/-
Every interleaving of a batch comes to an answer.

  * A batch that has no answer yet can always go on, and every step brings it nearer to its end: the
    loop has two steps for each item, each task has two, and the batch is stopped and cancelled at
    most once.
  * The answer is the results of all jobs in their places, or an error with a cause: a job that
    fails, or the caller, who has cancelled.
  * A batch that is stopped begins no further work, and one that was cancelled before it began does
    none at all.
-/
import RelaxArith.Proofs.Batch.Schedule

namespace RelaxArith.Batch

variable {π : Type} {workers : Nat} {jobs : List (Job π)} {s s' : State π}

/-! ### Every step counts -/

/-- The number of steps that are left to the loop behind its last item. -/
def Phase.rank : Phase π → Nat
  | .checking => 4
  | .launching => 3
  | .waiting => 2
  | .closing => 1
  | .returned _ => 0

/-- Is a task still to look whether the batch was stopped? -/
def Task.isStarted : Task → Bool
  | .started => true
  | _ => false

/-- A bound on the number of steps that are left: for each item that is not taken up, two of the
loop and two of its task; for each task in flight, one to finish and one more if it is still to
look; one for a stop and one for the caller. -/
def State.rank (size : Nat) (s : State π) : Nat :=
  4 * (size - s.tasks.length) + s.phase.rank + s.tasks.countP Task.isStarted + s.inFlight
    + (!s.stopped).toNat + (!s.cancelled).toNat

/-- A step of a task leaves fewer steps. -/
theorem State.rank_lt_of_set (size : Nat) {i : Nat} {t t' : Task} (htask : s.tasks[i]? = some t)
    (ht : t'.isStarted.toNat + t'.inFlight.toNat < t.isStarted.toNat + t.inFlight.toNat)
    (htasks : s'.tasks = s.tasks.set i t') (hphase : s'.phase = s.phase)
    (hstopped : s.stopped = true → s'.stopped = true) (hcancelled : s'.cancelled = s.cancelled) :
    s'.rank size < s.rank size := by
  have hlooking := countP_set_add (p := Task.isStarted) htask t'
  have hflight := countP_set_add (p := Task.inFlight) htask t'
  have hstop : (!s'.stopped).toNat ≤ (!s.stopped).toNat := by
    cases hs : s.stopped with
    | true => exact Nat.le_of_eq (by rw [hstopped hs])
    | false => exact Bool.toNat_le _
  rw [State.rank, State.rank, State.inFlight, State.inFlight, htasks, hphase, hcancelled,
    List.length_set]
  omega

/-- Every step leaves fewer steps. -/
theorem Bounds.rank_lt (h : Bounds workers jobs s) (hstep : Step workers jobs s s') :
    s'.rank jobs.length < s.rank jobs.length := by
  cases hstep with
  | cancel _ hcancelled => simp [State.rank, State.inFlight, hcancelled]
  | move hmove =>
    cases hmove with
    | exhausted hphase | broken hphase | passed hphase | refused hphase | settled hphase
    | answered hphase =>
      simp only [State.rank, State.inFlight, hphase, Phase.rank]
      omega
    | launched hphase =>
      have hitem := h.launching hphase
      have hone : [Task.started].countP Task.isStarted = 1 ∧
          [Task.started].countP Task.inFlight = 1 := by decide
      simp only [State.rank, State.inFlight, hphase, Phase.rank, List.length_append,
        List.length_singleton, List.countP_append, hone]
      omega
    | turnedAway htask | failed htask =>
      exact State.rank_lt_of_set _ htask (by decide) rfl rfl (fun _ => rfl) rfl
    | admitted htask | filled htask =>
      exact State.rank_lt_of_set _ htask (by decide) rfl rfl id rfl
    | spread _ hstopped => simp [State.rank, State.inFlight, hstopped]

/-! ### There is always a step -/

/-- A task in flight can go on. -/
theorem Bounds.task_moves (h : Bounds workers jobs s) (hbusy : 0 < s.inFlight) :
    ∃ s', Move workers jobs s s' := by
  obtain ⟨t, hmem, hflight⟩ := List.countP_pos_iff.mp hbusy
  obtain ⟨i, htask⟩ := List.mem_iff_getElem?.mp hmem
  cases t with
  | started =>
    cases hstopped : s.stopped with
    | true => exact ⟨_, .turnedAway htask hstopped⟩
    | false => exact ⟨_, .admitted htask hstopped⟩
  | working =>
    have hi : i < jobs.length :=
      Nat.lt_of_lt_of_le (List.getElem?_eq_some_iff.mp htask).1 h.tasks
    have hjob := List.getElem?_eq_getElem hi
    cases hresult : jobs[i] with
    | ok x => exact ⟨_, .filled htask (by rw [hjob, hresult])⟩
    | error e => exact ⟨_, .failed htask (by rw [hjob, hresult])⟩
  | finished => cases hflight

/-- A batch without an answer can go on by itself. -/
theorem Bounds.moves (h : Bounds workers jobs s) (hworkers : 1 ≤ workers)
    (hphase : ∀ r, s.phase ≠ .returned r) : ∃ s', Move workers jobs s s' := by
  cases hcase : s.phase with
  | checking =>
    rcases Nat.lt_or_eq_of_le h.tasks with hitem | hitem
    · cases hstopped : s.stopped with
      | true => exact ⟨_, .broken hcase hitem hstopped⟩
      | false => exact ⟨_, .passed hcase hitem hstopped⟩
    · exact ⟨_, .exhausted hcase hitem⟩
  | launching =>
    by_cases hfree : s.inFlight < workers
    · exact ⟨_, .launched hcase hfree⟩
    · exact h.task_moves (by omega)
  | waiting =>
    by_cases hidle : s.inFlight = 0
    · cases hfailure : s.failure with
      | some e => exact ⟨_, .refused hcase hidle hfailure⟩
      | none => exact ⟨_, .settled hcase hidle hfailure⟩
    · exact h.task_moves (Nat.pos_of_ne_zero hidle)
  | closing => exact ⟨_, .answered hcase⟩
  | returned r => exact absurd hcase (hphase r)

/-! ### Every interleaving comes to an answer -/

/-- Whatever steps are taken from a state, by the batch or by its caller, they come to an end, and
they end with an answer of some kind. The kind may depend on whether the caller has cancelled by
then. As long as there is no answer, the batch can go on without its caller. -/
inductive Answers (workers : Nat) (jobs : List (Job π)) (kind : Bool → Answer π → Prop) :
    State π → Prop
  | returned {s : State π} {r : Answer π} (hphase : s.phase = .returned r)
      (hkind : kind s.cancelled r) : Answers workers jobs kind s
  | goesOn {s : State π} (hmoves : ∃ s', Move workers jobs s s')
      (hsteps : ∀ s', Step workers jobs s s' → Answers workers jobs kind s') :
      Answers workers jobs kind s

/-- If all answers that can be reached are of a kind, then an answer of this kind is reached. The
induction is on the steps that are left. -/
theorem Invariant.answers {kind : Bool → Answer π → Prop} (hworkers : 1 ≤ workers)
    (h : Invariant workers jobs s)
    (hkind : ∀ t r, Run workers jobs s t → t.phase = .returned r → kind t.cancelled r) :
    Answers workers jobs kind s := by
  induction hrank : s.rank jobs.length using Nat.strongRecOn generalizing s with
  | ind n ih =>
    by_cases hreturned : ∃ r, s.phase = .returned r
    · obtain ⟨r, hphase⟩ := hreturned
      exact .returned hphase (hkind s r .refl hphase)
    · have hphase : ∀ r, s.phase ≠ .returned r := fun r hr => hreturned ⟨r, hr⟩
      refine .goesOn (h.bounds.moves hworkers hphase) fun s' hstep => ?_
      have hless := h.bounds.rank_lt hstep
      rw [hrank] at hless
      exact ih _ hless (h.step hstep) (fun t r hrun => hkind t r (.head hstep hrun)) rfl

theorem Move.cancelled_eq (h : Move workers jobs s s') : s'.cancelled = s.cancelled := by
  cases h with
  | exhausted | broken | passed | launched | turnedAway | admitted | filled | failed | refused
  | settled | answered | spread => rfl

/-- The batch comes to an answer of the kind also if its caller does nothing. -/
theorem Answers.exists_run {kind : Bool → Answer π → Prop} (h : Answers workers jobs kind s) :
    ∃ t r, Run workers jobs s t ∧ t.phase = .returned r ∧ t.cancelled = s.cancelled ∧
      kind s.cancelled r := by
  induction h with
  | returned hphase hkind => exact ⟨_, _, .refl, hphase, rfl, hkind⟩
  | goesOn hmoves _ ih =>
    obtain ⟨s', hmove⟩ := hmoves
    obtain ⟨t, r, hrun, hphase, hcancelled, hkind⟩ := ih s' (.move hmove)
    rw [hmove.cancelled_eq] at hcancelled hkind
    exact ⟨t, r, .head (.move hmove) hrun, hphase, hcancelled, hkind⟩

/-! ### Which answers there are -/

/-- What an answer to a batch says: results are those of all jobs, in their order, and were not
cancelled; an error has a cause. -/
structure IsOutcome (workers : Nat) (jobs : List (Job π)) (cancelled : Bool) (r : Answer π) :
    Prop where
  complete : ∀ out, r = .ok out → cancelled = false ∧ out.map .ok = jobs
  cause : ∀ e, r = .error e → Cause workers jobs cancelled e

/-- Where every task is finished and nothing has failed, the slots hold the results of all jobs. -/
theorem Records.slots_eq (h : Records workers jobs s) (hb : Bounds workers jobs s)
    (hfailure : s.failure = none) (hlength : s.tasks.length = jobs.length)
    (hidle : s.inFlight = 0) : s.slots.map .ok = jobs := by
  apply List.ext_getElem?
  intro i
  rw [List.getElem?_map]
  rcases Nat.lt_or_ge i jobs.length with hi | hi
  · obtain ⟨x, hjob, hslot⟩ := h.filled hfailure i (s.finished_of_idle hidle (hlength ▸ hi))
    rw [hjob, hslot]
    rfl
  · rw [List.getElem?_eq_none hi, List.getElem?_eq_none (hb.slots ▸ hi)]
    rfl

theorem isOutcome_error {c : Bool} {e : BatchError} (h : Cause workers jobs c e) :
    IsOutcome workers jobs c (.error e) := by
  refine ⟨fun out hout => ?_, fun e' he' => ?_⟩
  · cases hout
  · rw [← Except.error.inj he']
    exact h

theorem isOutcome_ok {out : List (Expr π)} (h : out.map .ok = jobs) :
    IsOutcome workers jobs false (.ok out) := by
  refine ⟨fun out' hout' => ⟨rfl, ?_⟩, fun e he => ?_⟩
  · rw [← Except.ok.inj hout']
    exact h
  · cases he

theorem Invariant.isOutcome (h : Invariant workers jobs s) {r : Answer π}
    (hphase : s.phase = .returned r) : IsOutcome workers jobs s.cancelled r := by
  rw [h.ending.answer r hphase, State.verdict]
  cases hfailure : s.failure with
  | some e => exact isOutcome_error (h.records.failure e hfailure)
  | none =>
    cases hcancelled : s.cancelled with
    | true => exact isOutcome_error (.cancelled rfl)
    | false =>
      have hidle := h.ending.idle (by rw [hphase]; rfl)
      have hlength := h.ending.ended (by rw [hphase]; rfl) hfailure hcancelled
      exact isOutcome_ok (h.records.slots_eq h.bounds hfailure hlength hidle)

/-- **Every interleaving of a batch comes to an answer, and the answer is the results of all jobs or
an error with a cause.** -/
theorem answers_start (hworkers : 1 ≤ workers) (jobs : List (Job π)) (cancelled : Bool) :
    Answers workers jobs (IsOutcome workers jobs) (.start jobs.length cancelled) := by
  have hstart := invariant_start workers jobs cancelled
  refine hstart.answers hworkers fun t r hrun hphase => ?_
  exact (hstart.run hrun).isOutcome hphase

theorem Answers.imp {kind kind' : Bool → Answer π → Prop} (h : Answers workers jobs kind s)
    (himp : ∀ c r, kind c r → kind' c r) : Answers workers jobs kind' s := by
  induction h with
  | returned hphase hkind => exact .returned hphase (himp _ _ hkind)
  | goesOn hmoves _ ih => exact .goesOn hmoves ih

/-! ### A batch that is stopped -/

/-- Once a batch is stopped it stays so, and no further task begins its work. -/
theorem working_of_step (hstopped : s.stopped = true) (hstep : Step workers jobs s s') :
    s'.stopped = true ∧ ∀ i : Nat, s'.tasks[i]? = some .working → s.tasks[i]? = some .working := by
  cases hstep with
  | cancel => exact ⟨hstopped, fun _ h => h⟩
  | move hmove =>
    cases hmove with
    | exhausted | broken | passed | refused | settled | answered =>
      exact ⟨hstopped, fun _ h => h⟩
    | spread => exact ⟨rfl, fun _ h => h⟩
    | launched => exact ⟨hstopped, fun _ h => getElem?_of_getElem?_append h nofun⟩
    | turnedAway | failed => exact ⟨rfl, fun _ h => getElem?_of_getElem?_set h nofun⟩
    | filled => exact ⟨hstopped, fun _ h => getElem?_of_getElem?_set h nofun⟩
    | admitted _ hnot =>
      rw [hstopped] at hnot
      cases hnot

theorem working_of_run (hstopped : s.stopped = true) (hrun : Run workers jobs s s') :
    s'.stopped = true ∧ ∀ i : Nat, s'.tasks[i]? = some .working → s.tasks[i]? = some .working := by
  induction hrun with
  | refl => exact ⟨hstopped, fun _ h => h⟩
  | tail _ hstep ih =>
    obtain ⟨hstopped', hworking⟩ := ih
    obtain ⟨hstopped'', hworking'⟩ := working_of_step hstopped' hstep
    exact ⟨hstopped'', fun i h => hworking i (hworking' i h)⟩

/-- A batch that was cancelled before it began: no work is done, and nothing else is reported. -/
structure Untouched (size : Nat) (s : State π) : Prop where
  stopped : s.stopped = true
  cancelled : s.cancelled = true
  tasks : ∀ i : Nat, s.tasks[i]? ≠ some .working
  slots : s.slots = List.replicate size (.absent none)
  failure : ∀ e, s.failure = some e → e = .canceled

theorem untouched_start (size : Nat) : Untouched size (State.start size true : State π) :=
  ⟨rfl, rfl, nofun, rfl, nofun⟩

theorem Untouched.step {size : Nat} (h : Untouched size s) (hstep : Step workers jobs s s') :
    Untouched size s' := by
  obtain ⟨hstopped, hworking⟩ := working_of_step h.stopped hstep
  have htasks : ∀ i : Nat, s'.tasks[i]? ≠ some .working := fun i hi => h.tasks i (hworking i hi)
  cases hstep with
  | cancel => exact ⟨hstopped, rfl, htasks, h.slots, h.failure⟩
  | move hmove =>
    cases hmove with
    | exhausted | broken | passed | refused | settled | answered | spread | launched | admitted =>
      exact ⟨hstopped, h.cancelled, htasks, h.slots, h.failure⟩
    | turnedAway =>
      refine ⟨hstopped, h.cancelled, htasks, h.slots, fun e he => ?_⟩
      rcases State.failure_of_fail he with hbefore | ⟨_, rfl⟩
      · exact h.failure e hbefore
      · rfl
    | filled htask | failed htask => exact absurd htask (h.tasks _)

theorem Untouched.run {size : Nat} (h : Untouched size s) (hrun : Run workers jobs s s') :
    Untouched size s' := by
  induction hrun with
  | refl => exact h
  | tail _ hstep ih => exact ih.step hstep

theorem Untouched.verdict {size : Nat} (h : Untouched size s) :
    s.verdict = .error .canceled := by
  rw [State.verdict]
  cases hfailure : s.failure with
  | none => simp [h.cancelled]
  | some e => rw [h.failure e hfailure]

/-- What was cancelled beforehand is answered with that. -/
theorem answers_cancelled (hworkers : 1 ≤ workers) (jobs : List (Job π)) :
    Answers workers jobs (fun _ r => r = .error .canceled) (.start jobs.length true) := by
  have hstart := invariant_start workers jobs true
  refine hstart.answers hworkers fun t r hrun hphase => ?_
  rw [(hstart.run hrun).ending.answer r hphase]
  exact ((untouched_start jobs.length).run hrun).verdict

end RelaxArith.Batch
