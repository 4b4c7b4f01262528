/-
A batch on several workers.

The answer to a batch is specified as if its items were worked on one after another.  In fact a
loop takes up one item after the other as long as the batch has not been stopped, and starts a task
for each, with only so many tasks in flight at a time.  A task looks once more whether the batch has
been stopped, and then does its work: it fills the slot of its item, or it fails.  The first failure
is recorded and stops the batch.  The caller may cancel at any moment, which stops the batch too,
sooner or later.  When the loop has ended and no task is in flight any more, the recorded failure is
the answer; if there is none, the loop looks whether the caller has cancelled, and answers with that
or with the slots as they are.

All of this is written down as steps of one state, which may be taken in any order.  The rest of the
file says what every step keeps: what is recorded always has a cause, a task that is finished has
filled its slot unless something has failed, and the loop ends early only if the batch was stopped.
-/
import Mathlib.Logic.Relation
import RelaxArith.Expansion

namespace RelaxArith.Batch

variable {π : Type}

/-- What the work on one item comes to. -/
abbrev Job (π : Type) := Except BatchError (Expr π)

/-- The answer to a batch. -/
abbrev Answer (π : Type) := Except BatchError (List (Expr π))

/-- How far a task has got. -/
inductive Task where
  /-- It has been started and is about to look whether the batch was stopped. -/
  | started
  /-- It has found that the batch was not stopped. -/
  | working
  /-- It has filled its slot or failed, and holds no worker any more. -/
  | finished
deriving DecidableEq

/-- Does a task hold a worker? -/
def Task.inFlight : Task → Bool
  | .finished => false
  | _ => true

/-- Where the loop is. -/
inductive Phase (π : Type) where
  /-- Before the next item: about to look whether the batch was stopped. -/
  | checking
  /-- About to start the task of the next item, as soon as a worker is free. -/
  | launching
  /-- Behind the last item that is taken up: waits for the tasks in flight. -/
  | waiting
  /-- No task is in flight and none has failed: about to look whether the caller has cancelled. -/
  | closing
  | returned (answer : Answer π)

/-- A batch under way. -/
structure State (π : Type) where
  phase : Phase π
  /-- The tasks of the items taken up so far, in the order of the items. -/
  tasks : List Task
  /-- The results; missing trees at first. -/
  slots : List (Expr π)
  /-- The first failure. -/
  failure : Option BatchError
  /-- Has the batch been stopped? -/
  stopped : Bool
  /-- Has the caller cancelled? -/
  cancelled : Bool

namespace State

/-- A batch of some size before its first step. What has been cancelled before is stopped from the
outset. -/
def start (size : Nat) (cancelled : Bool) : State π :=
  ⟨.checking, [], List.replicate size (.absent none), none, cancelled, cancelled⟩

/-- The number of workers that are busy. -/
def inFlight (s : State π) : Nat := s.tasks.countP Task.inFlight

/-- A task fails: if it is the first, its error is recorded, and the batch is stopped. -/
def fail (s : State π) (i : Nat) (e : BatchError) : State π :=
  { s with
    tasks := s.tasks.set i .finished
    failure := some (s.failure.getD e)
    stopped := true }

/-- What is to be answered once no task is in flight. -/
def verdict (s : State π) : Answer π :=
  match s.failure with
  | some e => .error e
  | none => if s.cancelled then .error .canceled else .ok s.slots

end State

/-- The steps of the loop and of the tasks. -/
inductive Move (workers : Nat) (jobs : List (Job π)) : State π → State π → Prop
  /-- There is no further item. -/
  | exhausted {s : State π} (hphase : s.phase = .checking)
      (hitem : s.tasks.length = jobs.length) : Move workers jobs s { s with phase := .waiting }
  /-- The loop finds that the batch was stopped, and ends early. -/
  | broken {s : State π} (hphase : s.phase = .checking) (hitem : s.tasks.length < jobs.length)
      (hstopped : s.stopped = true) : Move workers jobs s { s with phase := .waiting }
  /-- The loop goes on to the next item. -/
  | passed {s : State π} (hphase : s.phase = .checking) (hitem : s.tasks.length < jobs.length)
      (hstopped : s.stopped = false) : Move workers jobs s { s with phase := .launching }
  /-- A worker is free and gets the next item, whatever has happened since the loop looked. -/
  | launched {s : State π} (hphase : s.phase = .launching) (hfree : s.inFlight < workers) :
      Move workers jobs s { s with phase := .checking, tasks := s.tasks ++ [.started] }
  /-- A task finds that the batch was stopped, and fails with that. -/
  | turnedAway {s : State π} {i : Nat} (htask : s.tasks[i]? = some .started)
      (hstopped : s.stopped = true) : Move workers jobs s (s.fail i .canceled)
  /-- A task finds that the batch was not stopped. -/
  | admitted {s : State π} {i : Nat} (htask : s.tasks[i]? = some .started)
      (hstopped : s.stopped = false) :
      Move workers jobs s { s with tasks := s.tasks.set i .working }
  /-- A task fills its slot. -/
  | filled {s : State π} {i : Nat} {e : Expr π} (htask : s.tasks[i]? = some .working)
      (hjob : jobs[i]? = some (.ok e)) :
      Move workers jobs s
        { s with tasks := s.tasks.set i .finished, slots := s.slots.set i e }
  /-- The work of a task fails. -/
  | failed {s : State π} {i : Nat} {e : BatchError} (htask : s.tasks[i]? = some .working)
      (hjob : jobs[i]? = some (.error e)) : Move workers jobs s (s.fail i e)
  /-- The recorded failure is the answer. -/
  | refused {s : State π} {e : BatchError} (hphase : s.phase = .waiting)
      (hidle : s.inFlight = 0) (hfailure : s.failure = some e) :
      Move workers jobs s { s with phase := .returned (.error e) }
  /-- No task has failed. -/
  | settled {s : State π} (hphase : s.phase = .waiting) (hidle : s.inFlight = 0)
      (hfailure : s.failure = none) : Move workers jobs s { s with phase := .closing }
  /-- The caller's cancelling is the answer, or the slots are. -/
  | answered {s : State π} (hphase : s.phase = .closing) :
      Move workers jobs s { s with
        phase := .returned (if s.cancelled then .error .canceled else .ok s.slots) }
  /-- The caller's cancelling reaches the batch. -/
  | spread {s : State π} (hcancelled : s.cancelled = true) (hstopped : s.stopped = false) :
      Move workers jobs s { s with stopped := true }

/-- A step of a batch: one of its own, or the caller cancels before there is an answer. -/
inductive Step (workers : Nat) (jobs : List (Job π)) : State π → State π → Prop
  | move {s s' : State π} (h : Move workers jobs s s') : Step workers jobs s s'
  | cancel {s : State π} (hphase : ∀ r, s.phase ≠ .returned r) (hcancelled : s.cancelled = false) :
      Step workers jobs s { s with cancelled := true }

/-- One state of a batch comes after another, however its steps were interleaved. -/
abbrev Run (workers : Nat) (jobs : List (Job π)) : State π → State π → Prop :=
  Relation.ReflTransGen (Step workers jobs)

/-! ### Lists of tasks -/

/-- Changing one element changes a count by what the element counts for. -/
theorem countP_set_add {α : Type} {p : α → Bool} {l : List α} {i : Nat} {a : α}
    (h : l[i]? = some a) (b : α) :
    (l.set i b).countP p + (p a).toNat = l.countP p + (p b).toNat := by
  obtain ⟨hi, ha⟩ := List.getElem?_eq_some_iff.mp h
  have hmem : a ∈ l := List.mem_of_getElem? h
  rw [List.countP_set hi, ha]
  cases hp : p a with
  | true =>
    have hpos : 0 < l.countP p := List.countP_pos_iff.mpr ⟨a, hmem, hp⟩
    cases p b <;> simp <;> omega
  | false => cases p b <;> simp

theorem countP_set_le {α : Type} {p : α → Bool} {l : List α} {i : Nat} {a : α}
    (h : l[i]? = some a) (ha : p a = true) (b : α) : (l.set i b).countP p ≤ l.countP p := by
  have hcount := countP_set_add (p := p) h b
  have hone : (p b).toNat ≤ 1 := Bool.toNat_le _
  rw [ha, Bool.toNat_true] at hcount
  omega

/-- An element that is not the one put in stood there before. -/
theorem getElem?_of_getElem?_set {α : Type} {l : List α} {i j : Nat} {a b : α}
    (h : (l.set i a)[j]? = some b) (hne : b ≠ a) : l[j]? = some b := by
  by_cases hij : i = j
  · have hj : j < l.length := by
      have hbound := (List.getElem?_eq_some_iff.mp h).1
      rwa [List.length_set] at hbound
    rw [hij, List.getElem?_set_self hj] at h
    exact absurd (Option.some.inj h).symm hne
  · rwa [List.getElem?_set_ne hij] at h

/-- An element that is not the one put behind stood there before. -/
theorem getElem?_of_getElem?_append {α : Type} {l : List α} {j : Nat} {a b : α}
    (h : (l ++ [a])[j]? = some b) (hne : b ≠ a) : l[j]? = some b := by
  rcases Nat.lt_or_ge j l.length with hold | hnew
  · rwa [List.getElem?_append_left hold] at h
  · rw [List.getElem?_append_right hnew] at h
    exact absurd (List.mem_singleton.mp (List.mem_of_getElem? h)) hne

/-- Where no task is in flight, every task is finished. -/
theorem State.finished_of_idle {s : State π} (hidle : s.inFlight = 0) {i : Nat}
    (hi : i < s.tasks.length) : s.tasks[i]? = some .finished := by
  have hnone := List.countP_eq_zero.mp hidle
  have htask := List.getElem?_eq_getElem hi
  cases hcase : s.tasks[i] with
  | finished => rw [htask, hcase]
  | started => exact absurd (by rw [hcase]; rfl) (hnone _ (List.getElem_mem hi))
  | working => exact absurd (by rw [hcase]; rfl) (hnone _ (List.getElem_mem hi))

theorem State.eq_finished_of_idle {s : State π} (hidle : s.inFlight = 0) {i : Nat} {t : Task}
    (htask : s.tasks[i]? = some t) : t = .finished := by
  have hi := (List.getElem?_eq_some_iff.mp htask).1
  rw [s.finished_of_idle hidle hi] at htask
  exact (Option.some.inj htask).symm

/-- What is recorded after a task has failed is its error, if there was none before. -/
theorem State.failure_of_fail {s : State π} {i : Nat} {e e' : BatchError}
    (h : (s.fail i e).failure = some e') :
    s.failure = some e' ∨ s.failure = none ∧ e = e' := by
  have hrecorded : s.failure.getD e = e' := Option.some.inj h
  cases hfailure : s.failure with
  | none =>
    rw [hfailure, Option.getD_none] at hrecorded
    exact Or.inr ⟨rfl, hrecorded⟩
  | some first =>
    rw [hfailure, Option.getD_some] at hrecorded
    exact Or.inl (congrArg some hrecorded)

variable {workers : Nat} {jobs : List (Job π)} {s s' : State π}

/-! ### How many tasks there are -/

/-- What bounds the tasks. With one worker all tasks but the last are finished. -/
structure Bounds (workers : Nat) (jobs : List (Job π)) (s : State π) : Prop where
  slots : s.slots.length = jobs.length
  tasks : s.tasks.length ≤ jobs.length
  launching : s.phase = .launching → s.tasks.length < jobs.length
  limit : s.inFlight ≤ workers
  ordered : workers = 1 → ∀ i, i + 1 < s.tasks.length → s.tasks[i]? = some .finished

theorem bounds_start (workers : Nat) (jobs : List (Job π)) (cancelled : Bool) :
    Bounds workers jobs (.start jobs.length cancelled) :=
  ⟨List.length_replicate, Nat.zero_le _, nofun, Nat.zero_le _,
    fun _ _ hi => absurd hi (Nat.not_lt_zero _)⟩

/-- A task in flight goes on. -/
theorem Bounds.set (h : Bounds workers jobs s) {i : Nat} {t t' : Task}
    (htask : s.tasks[i]? = some t) (hflight : t.inFlight = true)
    (htasks : s'.tasks = s.tasks.set i t') (hphase : s'.phase = s.phase)
    (hslots : s'.slots.length = s.slots.length) : Bounds workers jobs s' := by
  have hlength : s'.tasks.length = s.tasks.length := by rw [htasks, List.length_set]
  refine ⟨hslots.trans h.slots, ?_, ?_, ?_, ?_⟩
  · rw [hlength]
    exact h.tasks
  · rw [hlength, hphase]
    exact h.launching
  · rw [State.inFlight, htasks]
    exact Nat.le_trans (countP_set_le htask hflight t') h.limit
  · intro hone j hj
    rw [hlength] at hj
    have hfinished := h.ordered hone j hj
    have hne : i ≠ j := by
      rintro rfl
      rw [htask] at hfinished
      rw [Option.some.inj hfinished] at hflight
      cases hflight
    rw [htasks, List.getElem?_set_ne hne]
    exact hfinished

theorem Bounds.step (h : Bounds workers jobs s) (hstep : Step workers jobs s s') :
    Bounds workers jobs s' := by
  cases hstep with
  | cancel => exact ⟨h.slots, h.tasks, h.launching, h.limit, h.ordered⟩
  | move hmove =>
    cases hmove with
    | exhausted | broken | refused | settled | answered =>
      exact ⟨h.slots, h.tasks, nofun, h.limit, h.ordered⟩
    | passed _ hitem => exact ⟨h.slots, h.tasks, fun _ => hitem, h.limit, h.ordered⟩
    | spread => exact ⟨h.slots, h.tasks, h.launching, h.limit, h.ordered⟩
    | turnedAway htask | admitted htask | failed htask => exact h.set htask rfl rfl rfl rfl
    | filled htask => exact h.set htask rfl rfl rfl List.length_set
    | launched hphase hfree =>
      have hitem := h.launching hphase
      refine ⟨h.slots, ?_, nofun, ?_, ?_⟩
      · show (s.tasks ++ [Task.started]).length ≤ jobs.length
        rw [List.length_append]
        exact hitem
      · show (s.tasks ++ [Task.started]).countP Task.inFlight ≤ workers
        rw [List.countP_append]
        exact hfree
      · -- a single worker was free, so all older tasks are finished
        intro hone i hi
        have hold : i < s.tasks.length := by simpa using hi
        have hidle : s.inFlight = 0 := by omega
        show (s.tasks ++ [Task.started])[i]? = _
        rw [List.getElem?_append_left hold]
        exact s.finished_of_idle hidle hold

/-! ### What is recorded -/

/-- Why a batch may fail: the caller has cancelled, or a job fails. With one worker it is the first
job that fails. -/
inductive Cause (workers : Nat) (jobs : List (Job π)) (cancelled : Bool) : BatchError → Prop
  | cancelled (h : cancelled = true) : Cause workers jobs cancelled .canceled
  | job {i : Nat} {e : BatchError} (hjob : jobs[i]? = some (.error e))
      (hfirst : workers = 1 → ∀ j < i, ∃ x, jobs[j]? = some (.ok x)) :
      Cause workers jobs cancelled e

/-- What is recorded has a reason: a stop, a failure and a task that is finished. -/
structure Records (workers : Nat) (jobs : List (Job π)) (s : State π) : Prop where
  stopped : s.stopped = true → s.failure ≠ none ∨ s.cancelled = true
  failure : ∀ e, s.failure = some e → Cause workers jobs s.cancelled e
  filled : s.failure = none → ∀ i : Nat, s.tasks[i]? = some .finished →
    ∃ x, jobs[i]? = some (.ok x) ∧ s.slots[i]? = some x

theorem records_start (workers : Nat) (jobs : List (Job π)) (cancelled : Bool) :
    Records workers jobs (.start jobs.length cancelled) :=
  ⟨Or.inr, nofun, nofun⟩

/-- A failure is recorded. -/
theorem Records.fail (h : Records workers jobs s) (i : Nat) {e : BatchError}
    (hcause : s.failure = none → Cause workers jobs s.cancelled e) :
    Records workers jobs (s.fail i e) := by
  refine ⟨fun _ => Or.inl nofun, ?_, nofun⟩
  intro e' he'
  rcases State.failure_of_fail he' with hbefore | ⟨hnone, rfl⟩
  · exact h.failure e' hbefore
  · exact hcause hnone

theorem Records.step (h : Records workers jobs s) (hb : Bounds workers jobs s)
    (hstep : Step workers jobs s s') : Records workers jobs s' := by
  cases hstep with
  | cancel _ hcancelled =>
    refine ⟨fun _ => Or.inr rfl, ?_, h.filled⟩
    intro e he
    cases h.failure e he with
    | cancelled hc => exact .cancelled rfl
    | job hjob hfirst => exact .job hjob hfirst
  | move hmove =>
    cases hmove with
    | exhausted | broken | passed | refused | settled | answered =>
      exact ⟨h.stopped, h.failure, h.filled⟩
    | spread hcancelled => exact ⟨fun _ => Or.inr hcancelled, h.failure, h.filled⟩
    | launched =>
      refine ⟨h.stopped, h.failure, ?_⟩
      intro hnone i hfinished
      exact h.filled hnone i (getElem?_of_getElem?_append hfinished nofun)
    | turnedAway _ hstopped =>
      refine h.fail _ fun hnone => ?_
      exact .cancelled ((h.stopped hstopped).resolve_left fun hsome => hsome hnone)
    | admitted htask =>
      refine ⟨h.stopped, h.failure, ?_⟩
      intro hnone i hfinished
      exact h.filled hnone i (getElem?_of_getElem?_set hfinished nofun)
    | @filled i x htask hjob =>
      refine ⟨h.stopped, h.failure, ?_⟩
      intro hnone j hfinished
      by_cases hij : i = j
      · subst hij
        have hi : i < s.slots.length := by
          have hbound := (List.getElem?_eq_some_iff.mp hjob).1
          rw [hb.slots]
          exact hbound
        exact ⟨x, hjob, List.getElem?_set_self hi⟩
      · rw [List.getElem?_set_ne hij] at hfinished
        rw [List.getElem?_set_ne hij]
        exact h.filled hnone j hfinished
    | @failed i e htask hjob =>
      -- with one worker everything before this task is finished, and has not failed
      refine h.fail i fun hnone => .job hjob fun hone j hj => ?_
      have hi := (List.getElem?_eq_some_iff.mp htask).1
      obtain ⟨x, hx, _⟩ := h.filled hnone j (hb.ordered hone j (by omega))
      exact ⟨x, hx⟩

/-! ### How a batch ends -/

/-- Does the loop go on? -/
def Phase.inLoop : Phase π → Bool
  | .checking | .launching => true
  | _ => false

/-- Has the loop waited for its tasks? -/
def Phase.isOver : Phase π → Bool
  | .closing | .returned _ => true
  | _ => false

/-- Behind the loop, every item has been taken up unless the batch was stopped; behind the waiting,
no task is in flight, and the answer is what the state says. -/
structure Ending (jobs : List (Job π)) (s : State π) : Prop where
  ended : s.phase.inLoop = false → s.failure = none → s.cancelled = false →
    s.tasks.length = jobs.length
  idle : s.phase.isOver = true → s.inFlight = 0
  closing : s.phase = .closing → s.failure = none
  answer : ∀ r, s.phase = .returned r → r = s.verdict

theorem ending_start (jobs : List (Job π)) (cancelled : Bool) :
    Ending jobs (.start jobs.length cancelled) :=
  ⟨nofun, nofun, nofun, nofun⟩

/-- A task in flight goes on, and the loop has not yet waited for it. -/
theorem Ending.set (h : Ending jobs s) {i : Nat} {t t' : Task} (htask : s.tasks[i]? = some t)
    (hflight : t.inFlight = true) (htasks : s'.tasks = s.tasks.set i t')
    (hphase : s'.phase = s.phase) (hfailure : s'.failure = none → s.failure = none)
    (hcancelled : s'.cancelled = s.cancelled) : Ending jobs s' := by
  have hover : s'.phase.isOver = false := by
    rw [hphase]
    cases hover : s.phase.isOver with
    | false => rfl
    | true =>
      rw [s.eq_finished_of_idle (h.idle hover) htask] at hflight
      cases hflight
  refine ⟨?_, ?_, ?_, ?_⟩
  · intro hloop hnone hnot
    rw [htasks, List.length_set]
    exact h.ended (hphase ▸ hloop) (hfailure hnone) (hcancelled ▸ hnot)
  · intro hover'
    rw [hover] at hover'
    cases hover'
  · intro hclosing
    rw [hclosing] at hover
    cases hover
  · intro r hreturned
    rw [hreturned] at hover
    cases hover

theorem Ending.step (h : Ending jobs s) (hr : Records workers jobs s)
    (hstep : Step workers jobs s s') : Ending jobs s' := by
  cases hstep with
  | cancel hphase => exact ⟨nofun, h.idle, h.closing, fun r hr => absurd hr (hphase r)⟩
  | move hmove =>
    cases hmove with
    | exhausted _ hitem => exact ⟨fun _ _ _ => hitem, nofun, nofun, nofun⟩
    | broken _ _ hstopped =>
      refine ⟨fun _ hnone hnot => ?_, nofun, nofun, nofun⟩
      rcases hr.stopped hstopped with hsome | hcancelled
      · exact absurd hnone hsome
      · rw [hnot] at hcancelled
        cases hcancelled
    | passed | launched => exact ⟨nofun, nofun, nofun, nofun⟩
    | turnedAway htask | failed htask => exact h.set htask rfl rfl rfl nofun rfl
    | admitted htask | filled htask => exact h.set htask rfl rfl rfl id rfl
    | refused hphase hidle hfailure =>
      refine ⟨fun _ => h.ended (by rw [hphase]; rfl), fun _ => hidle, nofun, ?_⟩
      intro r hreturned
      rw [← Phase.returned.inj hreturned, State.verdict, hfailure]
    | settled hphase hidle hfailure =>
      exact ⟨fun _ => h.ended (by rw [hphase]; rfl), fun _ => hidle, fun _ => hfailure, nofun⟩
    | answered hphase =>
      refine ⟨fun _ => h.ended (by rw [hphase]; rfl), fun _ => h.idle (by rw [hphase]; rfl),
        nofun, ?_⟩
      intro r hreturned
      rw [← Phase.returned.inj hreturned, State.verdict, h.closing hphase]
    | spread => exact ⟨h.ended, h.idle, h.closing, h.answer⟩

/-! ### Every run -/

/-- What holds of a batch at any time. -/
structure Invariant (workers : Nat) (jobs : List (Job π)) (s : State π) : Prop where
  bounds : Bounds workers jobs s
  records : Records workers jobs s
  ending : Ending jobs s

theorem invariant_start (workers : Nat) (jobs : List (Job π)) (cancelled : Bool) :
    Invariant workers jobs (.start jobs.length cancelled) :=
  ⟨bounds_start workers jobs cancelled, records_start workers jobs cancelled,
    ending_start jobs cancelled⟩

theorem Invariant.step (h : Invariant workers jobs s) (hstep : Step workers jobs s s') :
    Invariant workers jobs s' :=
  ⟨h.bounds.step hstep, h.records.step h.bounds hstep, h.ending.step h.records hstep⟩

/-- **However the steps are interleaved, the invariant holds.** -/
theorem Invariant.run (h : Invariant workers jobs s) (hrun : Run workers jobs s s') :
    Invariant workers jobs s' := by
  induction hrun with
  | refl => exact h
  | tail _ hstep ih => exact ih.step hstep

end RelaxArith.Batch
