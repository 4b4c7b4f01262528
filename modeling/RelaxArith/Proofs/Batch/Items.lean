/-
Batches of trees and of invocations are answered as if nothing ran in parallel.

What is computed for a batch is the answer of working on its items one after another.  Here it is
compared with what the workers come to.  Relaxing never fails, so a batch of trees has one answer,
and a caller who has cancelled gets none.  Expanding fails for want of an operand.  Several
invocations may lack one, and which of them is reported depends on who comes first; with one worker
it is the first of them, as it is one by one.
-/
import RelaxArith.Proofs.Batch.Answers

namespace RelaxArith.Batch

variable {π : Type} {workers : Nat}

/-! ### Batches of trees -/

/-- The work on the trees of a batch. -/
def relaxJobs (rx : Relaxer) (trees : List (Expr π)) : List (Job π) :=
  trees.map fun e => .ok (rx.relax e)

/-- Relaxing does not fail: only cancelling makes a difference. -/
theorem IsOutcome.eq_relaxBatch {rx : Relaxer} {trees : List (Expr π)} {c : Bool} {r : Answer π}
    (h : IsOutcome workers (relaxJobs rx trees) c r) : r = rx.relaxBatch c trees := by
  cases r with
  | ok out =>
    obtain ⟨hc, hjobs⟩ := h.complete out rfl
    have hout : out = trees.map rx.relax := by
      have hmap : (out.map .ok : List (Job π)) = (trees.map rx.relax).map .ok := by
        rw [hjobs, relaxJobs, List.map_map]
        rfl
      exact (List.map_inj_right fun _ _ heq => Except.ok.inj heq).mp hmap
    rw [Relaxer.relaxBatch, hc, hout]
    rfl
  | error e =>
    cases h.cause e rfl with
    | cancelled hc =>
      rw [Relaxer.relaxBatch, hc]
      rfl
    | job hjob _ =>
      rw [relaxJobs, List.getElem?_map] at hjob
      obtain ⟨x, _, hx⟩ := Option.map_eq_some_iff.mp hjob
      cases hx

/-! ### Batches of invocations -/

/-- The work on the invocations of a batch. An error says which invocation it is about. -/
def expandJobs (rx : Relaxer) (invs : List (Invocation π)) : List (Job π) :=
  invs.mapIdx fun i inv => (rx.expand inv).mapError (.expansion i)

/-- The first argument of an invocation is missing, or there is none. -/
def LacksOperand (inv : Invocation π) : Prop := ∀ e ∈ inv.args.head?, e.isAbsent = true

/-- The error of an invocation without an operand. -/
def missingOperand (inv : Invocation π) : ExpansionError :=
  ⟨ExpansionError.missingOperand, inv.name, inv.span⟩

theorem expand_eq_error_iff {rx : Relaxer} {inv : Invocation π} {e : ExpansionError} :
    rx.expand inv = .error e ↔ LacksOperand inv ∧ e = missingOperand inv := by
  rw [Relaxer.expand, LacksOperand, missingOperand]
  cases inv.args with
  | nil => exact ⟨fun h => ⟨nofun, (Except.error.inj h).symm⟩, fun h => congrArg _ h.2.symm⟩
  | cons a rest =>
    cases ha : a.isAbsent with
    | true =>
      simp only [ha, if_true]
      refine ⟨fun h => ⟨fun x hx => ?_, (Except.error.inj h).symm⟩, fun h => congrArg _ h.2.symm⟩
      rw [← Option.some.inj hx, ha]
    | false => simp [ha]

theorem expand_eq_ok_of_not_lacksOperand (rx : Relaxer) {inv : Invocation π}
    (h : ¬ LacksOperand inv) : ∃ e, rx.expand inv = .ok e := by
  cases hexpand : rx.expand inv with
  | ok e => exact ⟨e, rfl⟩
  | error e => exact absurd (expand_eq_error_iff.mp hexpand).1 h

theorem mapError_eq_ok_iff {ε ε' α : Type} {f : ε → ε'} {x : Except ε α} {a : α} :
    x.mapError f = .ok a ↔ x = .ok a := by
  cases x with
  | ok b => exact ⟨fun h => congrArg _ (Except.ok.inj h), fun h => congrArg _ (Except.ok.inj h)⟩
  | error e => constructor <;> intro h <;> cases h

theorem mapError_eq_error_iff {ε ε' α : Type} {f : ε → ε'} {x : Except ε α} {e' : ε'} :
    x.mapError f = .error e' ↔ ∃ e, x = .error e ∧ f e = e' := by
  cases x with
  | ok b =>
    constructor
    · intro h
      cases h
    · rintro ⟨e, h, _⟩
      cases h
  | error e =>
    constructor
    · intro h
      exact ⟨e, rfl, Except.error.inj h⟩
    · rintro ⟨_, h, rfl⟩
      cases h
      rfl

theorem expandJobs_eq_ok_iff {rx : Relaxer} {invs : List (Invocation π)} {i : Nat} {e : Expr π} :
    (expandJobs rx invs)[i]? = some (.ok e) ↔
      ∃ inv, invs[i]? = some inv ∧ rx.expand inv = .ok e := by
  rw [expandJobs, List.getElem?_mapIdx, Option.map_eq_some_iff]
  exact exists_congr fun inv => and_congr_right fun _ => mapError_eq_ok_iff

theorem expandJobs_eq_error_iff {rx : Relaxer} {invs : List (Invocation π)} {i : Nat}
    {e : BatchError} :
    (expandJobs rx invs)[i]? = some (.error e) ↔
      ∃ inv, invs[i]? = some inv ∧ LacksOperand inv ∧ e = .expansion i (missingOperand inv) := by
  rw [expandJobs, List.getElem?_mapIdx, Option.map_eq_some_iff]
  refine exists_congr fun inv => and_congr_right fun _ => ?_
  rw [mapError_eq_error_iff]
  constructor
  · rintro ⟨x, hexpand, rfl⟩
    obtain ⟨hlacks, rfl⟩ := expand_eq_error_iff.mp hexpand
    exact ⟨hlacks, rfl⟩
  · rintro ⟨hlacks, rfl⟩
    exact ⟨missingOperand inv, expand_eq_error_iff.mpr ⟨hlacks, rfl⟩, rfl⟩

/-- The results of all jobs are the expansions of all invocations. -/
theorem map_expand_of_jobs {rx : Relaxer} {invs : List (Invocation π)} {out : List (Expr π)}
    (h : out.map .ok = expandJobs rx invs) : invs.map rx.expand = out.map .ok := by
  apply List.ext_getElem?
  intro i
  have hi : (expandJobs rx invs)[i]? = out[i]?.map .ok := by rw [← h, List.getElem?_map]
  rw [List.getElem?_map, List.getElem?_map]
  cases hout : out[i]? with
  | none =>
    rw [hout, expandJobs, List.getElem?_mapIdx] at hi
    rw [Option.map_eq_none_iff.mp hi]
    rfl
  | some e =>
    rw [hout] at hi
    obtain ⟨inv, hinv, hexpand⟩ := expandJobs_eq_ok_iff.mp hi
    rw [hinv, Option.map_some, hexpand]
    rfl

/-- Expanding one by one gives all expansions, if there are all. -/
theorem expandFrom_eq_ok {rx : Relaxer} {invs : List (Invocation π)} {out : List (Expr π)}
    (h : invs.map rx.expand = out.map .ok) (n : Nat) : rx.expandFrom n invs = .ok out := by
  induction invs generalizing out n with
  | nil =>
    have hout : out = [] := List.map_eq_nil_iff.mp h.symm
    rw [Relaxer.expandFrom, hout]
  | cons inv rest ih =>
    obtain ⟨e, out', rfl, he, hrest⟩ := List.map_eq_cons_iff.mp h.symm
    rw [Relaxer.expandFrom, ← he, ih hrest.symm]
    rfl

/-- Expanding one by one stops at the first invocation without an operand. -/
theorem expandFrom_eq_error {rx : Relaxer} {invs : List (Invocation π)} {i : Nat}
    {inv : Invocation π} (hinv : invs[i]? = some inv) (hlacks : LacksOperand inv)
    (hfirst : ∀ j < i, ∀ inv', invs[j]? = some inv' → ¬ LacksOperand inv') (n : Nat) :
    rx.expandFrom n invs = .error (.expansion (n + i) (missingOperand inv)) := by
  induction invs generalizing i n with
  | nil => cases hinv
  | cons first rest ih =>
    cases i with
    | zero =>
      have herror : rx.expand first = .error (missingOperand inv) := by
        rw [Option.some.inj hinv]
        exact expand_eq_error_iff.mpr ⟨hlacks, rfl⟩
      rw [Relaxer.expandFrom, herror]
      rfl
    | succ i =>
      obtain ⟨e, he⟩ :=
        expand_eq_ok_of_not_lacksOperand rx (hfirst 0 (Nat.succ_pos i) first rfl)
      have hrest := ih (i := i) hinv
        (fun j hj inv' hinv' => hfirst (j + 1) (Nat.succ_lt_succ hj) inv' hinv') (n + 1)
      rw [Relaxer.expandFrom, he, hrest, Nat.add_right_comm]
      rfl

/-- What an answer to a batch of invocations says, on some number of workers and if the caller has
cancelled or not. -/
structure IsExpansion (rx : Relaxer) (invs : List (Invocation π)) (workers : Nat)
    (cancelled : Bool) (r : Answer π) : Prop where
  /-- Results are the expansions of all invocations, in their order. -/
  complete : ∀ out, r = .ok out → invs.map rx.expand = out.map .ok
  /-- A caller who has cancelled gets no results. -/
  withheld : cancelled = true → ∃ e, r = .error e
  /-- For one who has not, the batch fails exactly if an operand is missing. -/
  fails_iff : cancelled = false → ((∃ e, r = .error e) ↔ ∃ inv ∈ invs, LacksOperand inv)
  /-- An error tells of an invocation without an operand, by its index and name, unless the caller
  has cancelled. -/
  cause : ∀ e, r = .error e →
    (cancelled = true ∧ e = .canceled) ∨
    ∃ i inv, invs[i]? = some inv ∧ LacksOperand inv ∧ e = .expansion i (missingOperand inv)
  /-- With one worker it tells of the first such invocation, as if they had been expanded one after
  another. -/
  first : workers = 1 → cancelled = false →
    r = rx.expandBatch false invs ∧
    ∀ i e, r = .error (.expansion i e) →
      ∀ j < i, ∀ inv, invs[j]? = some inv → ¬ LacksOperand inv

/-- With one worker the invocations before the one that an error tells of have operands. -/
theorem hasOperands_of_jobs {rx : Relaxer} {invs : List (Invocation π)} {i : Nat}
    (h : ∀ j < i, ∃ x, (expandJobs rx invs)[j]? = some (.ok x)) :
    ∀ j < i, ∀ inv, invs[j]? = some inv → ¬ LacksOperand inv := by
  intro j hj inv hinv hlacks
  obtain ⟨x, hx⟩ := h j hj
  rw [expandJobs_eq_error_iff.mpr ⟨inv, hinv, hlacks, rfl⟩] at hx
  cases hx

theorem IsOutcome.isExpansion {rx : Relaxer} {invs : List (Invocation π)} {c : Bool}
    {r : Answer π} (h : IsOutcome workers (expandJobs rx invs) c r) :
    IsExpansion rx invs workers c r := by
  cases r with
  | ok out =>
    obtain ⟨hc, hjobs⟩ := h.complete out rfl
    have hmap := map_expand_of_jobs hjobs
    refine ⟨fun out' hout' => ?_, fun hc' => ?_, fun _ => ⟨nofun, ?_⟩, nofun, ?_⟩
    · rw [← Except.ok.inj hout']
      exact hmap
    · rw [hc] at hc'
      cases hc'
    · rintro ⟨inv, hinv, hlacks⟩
      have hmem : rx.expand inv ∈ out.map Except.ok := by
        rw [← hmap]
        exact List.mem_map_of_mem hinv
      rw [expand_eq_error_iff.mpr ⟨hlacks, rfl⟩] at hmem
      obtain ⟨_, _, hcontra⟩ := List.mem_map.mp hmem
      cases hcontra
    · intro _ _
      exact ⟨(expandFrom_eq_ok hmap 0).symm, nofun⟩
  | error e =>
    cases h.cause e rfl with
    | cancelled hc =>
      refine ⟨nofun, fun _ => ⟨_, rfl⟩, ?_, ?_, ?_⟩
      · rw [hc]
        exact nofun
      · intro e' he'
        exact Or.inl ⟨hc, (Except.error.inj he').symm⟩
      · rw [hc]
        exact nofun
    | @job i _ hjob hfirst =>
      obtain ⟨inv, hinv, hlacks, rfl⟩ := expandJobs_eq_error_iff.mp hjob
      have hmem : inv ∈ invs := List.mem_of_getElem? hinv
      refine ⟨nofun, fun _ => ⟨_, rfl⟩, fun _ => ⟨fun _ => ⟨inv, hmem, hlacks⟩, fun _ => ⟨_, rfl⟩⟩,
        ?_, ?_⟩
      · intro e' he'
        exact Or.inr ⟨i, inv, hinv, hlacks, (Except.error.inj he').symm⟩
      · intro hone _
        have hbefore := hasOperands_of_jobs (hfirst hone)
        have hbatch : rx.expandBatch false invs = .error (.expansion i (missingOperand inv)) := by
          have herror := @expandFrom_eq_error _ rx _ _ _ hinv hlacks hbefore 0
          rw [Nat.zero_add] at herror
          exact herror
        refine ⟨hbatch.symm, ?_⟩
        intro i' e' he'
        cases Except.error.inj he'
        exact hbefore

/-! ### Both kinds of batches -/

/-- **The answer to a batch does not depend on scheduling.** On any number of workers every
interleaving of a batch comes to an answer. For trees it is the one that is computed by relaxing
them one after another, unless the caller has cancelled by then. For invocations it is all
expansions, or the error of an invocation without an operand, or that the caller has cancelled. A
batch that is cancelled beforehand is answered with that, and no work is done on it; and once a
batch is stopped, no further task begins its work. -/
theorem answers_batch {workers : Nat} (hworkers : 1 ≤ workers) (rx : Relaxer)
    (trees : List (Expr π)) (invs : List (Invocation π)) :
    (∀ cancelled, Answers workers (relaxJobs rx trees) (fun c r => r = rx.relaxBatch c trees)
      (.start trees.length cancelled)) ∧
    (∀ cancelled, Answers workers (expandJobs rx invs) (IsExpansion rx invs workers)
      (.start invs.length cancelled)) ∧
    Answers workers (relaxJobs rx trees) (fun _ r => r = rx.relaxBatch true trees)
      (.start trees.length true) ∧
    Answers workers (expandJobs rx invs) (fun _ r => r = rx.expandBatch true invs)
      (.start invs.length true) ∧
    (∀ jobs ∈ [relaxJobs rx trees, expandJobs rx invs], ∀ s,
      Run workers jobs (.start jobs.length true) s →
        s.slots = List.replicate jobs.length (.absent none)) ∧
    (∀ jobs ∈ [relaxJobs rx trees, expandJobs rx invs], ∀ s s', s.stopped = true →
      Run workers jobs s s' →
        ∀ i : Nat, s'.tasks[i]? = some .working → s.tasks[i]? = some .working) := by
  have hrelax : (relaxJobs rx trees).length = trees.length := List.length_map _
  have hexpand : (expandJobs rx invs).length = invs.length := List.length_mapIdx
  refine ⟨?_, ?_, ?_, ?_, ?_, ?_⟩
  · intro cancelled
    rw [← hrelax]
    exact (answers_start hworkers _ cancelled).imp fun _ _ h => h.eq_relaxBatch
  · intro cancelled
    rw [← hexpand]
    exact (answers_start hworkers _ cancelled).imp fun _ _ h => h.isExpansion
  · rw [← hrelax]
    exact answers_cancelled hworkers _
  · rw [← hexpand]
    exact answers_cancelled hworkers _
  · intro jobs _ s hrun
    exact ((untouched_start jobs.length).run hrun).slots
  · intro jobs _ s s' hstopped hrun
    exact (working_of_run hstopped hrun).2

/-- Three invocations; the second has no argument, and the argument of the third is missing. -/
def operandExample : List (Invocation Empty) :=
  [⟨utf8 "relaxed", [.ident (utf8 "a") ⟨9, 10⟩], ⟨0, 11⟩⟩, ⟨utf8 "relaxed", [], ⟨12, 22⟩⟩,
    ⟨utf8 "again", [.absent (some .call)], ⟨23, 31⟩⟩]

example : Relaxer.standard.expandBatch false operandExample =
    .error (.expansion 1 ⟨1, utf8 "relaxed", ⟨12, 22⟩⟩) := rfl

/-- Two workers come to the error of one of the last two. -/
theorem answers_batch_operandExample :
    1 ≤ 2 ∧ ∃ (t : State Empty) (e : BatchError),
      Run 2 (expandJobs .standard operandExample) (.start 3 false) t ∧
      t.phase = .returned (.error e) ∧
      ∃ i inv, operandExample[i]? = some inv ∧ LacksOperand inv ∧
        e = .expansion i (missingOperand inv) := by
  have hall := answers_batch (by decide : 1 ≤ 2) Relaxer.standard [] operandExample
  obtain ⟨t, r, hrun, hphase, _, hkind⟩ := (hall.2.1 false).exists_run
  have hlacks : ∃ inv ∈ operandExample, LacksOperand inv :=
    ⟨⟨utf8 "relaxed", [], ⟨12, 22⟩⟩, by simp [operandExample], nofun⟩
  obtain ⟨e, rfl⟩ := (hkind.fails_iff rfl).mpr hlacks
  refine ⟨by decide, t, e, hrun, hphase, ?_⟩
  rcases hkind.cause e rfl with ⟨hcancelled, _⟩ | hcause
  · cases hcancelled
  · exact hcause

end RelaxArith.Batch
