/-
Runs of the token automaton.

The scanner looks ahead: behind `1` it tries `.` and `e` before it settles for the digits.  What
matters about this is said once, for runs of the automaton: the longest match in a text is not
changed by what follows the text if the run through it cannot go on, and cutting a text off
behind its longest match does not change that match.

A separator is a blank or a punctuation mark.  Once a token has begun, no run goes on with a
separator, except inside a text between quotes; and a run that ends inside an open text has matched
nothing.
-/
import RelaxArith.Token.Stream

namespace RelaxArith.Automaton

/-- The state after a whole text, if some pattern can go on to its end. -/
def run (q : State) : Bytes → Option State
  | [] => some q
  | b :: bs => (q.next b).bind fun q' => run q' bs

/-! ### The longest match and the text around it -/

theorem longest_cons_of_none {q : State} {b : UInt8} (h : q.next b = none) (s : Bytes) :
    longest q (b :: s) = q.class?.map fun c => (c, 0) := by
  simp [longest, h]

theorem longest_cons_of_some {q q' : State} {b : UInt8} (h : q.next b = some q') (s : Bytes) :
    longest q (b :: s) = match longest q' s with
      | some (c, n) => some (c, n + 1)
      | none => q.class?.map fun c => (c, 0) := by
  rw [longest, h]
  rfl

/-- What follows a text is not looked at if the run through the text cannot go on with it. -/
theorem longest_append {q : State} {w v : Bytes}
    (h : ∀ q', run q w = some q' → ∀ b ∈ v.head?, q'.next b = none) :
    longest q (w ++ v) = longest q w := by
  induction w generalizing q with
  | nil =>
    cases v with
    | nil => rfl
    | cons b v =>
      rw [List.nil_append, longest_cons_of_none (h q rfl b rfl)]
      rfl
  | cons a w ih =>
    rw [List.cons_append]
    cases hnext : q.next a with
    | none => rw [longest_cons_of_none hnext, longest_cons_of_none hnext]
    | some q₁ =>
      have hrest : longest q₁ (w ++ v) = longest q₁ w := by
        refine ih fun q' hq' => h q' ?_
        rw [run, hnext]
        exact hq'
      rw [longest_cons_of_some hnext, longest_cons_of_some hnext, hrest]

theorem longest_cut_none {q : State} {w v : Bytes} (h : longest q (w ++ v) = none) :
    longest q w = none := by
  induction w generalizing q with
  | nil =>
    cases v with
    | nil => exact h
    | cons b v =>
      cases hnext : q.next b with
      | none =>
        rw [List.nil_append, longest_cons_of_none hnext] at h
        exact h
      | some q₁ =>
        rw [List.nil_append, longest_cons_of_some hnext] at h
        cases hrest : longest q₁ v with
        | none => rw [hrest] at h; exact h
        | some x => rw [hrest] at h; cases h
  | cons a w ih =>
    rw [List.cons_append] at h
    cases hnext : q.next a with
    | none =>
      rw [longest_cons_of_none hnext] at h ⊢
      exact h
    | some q₁ =>
      rw [longest_cons_of_some hnext] at h ⊢
      cases hlong : longest q₁ (w ++ v) with
      | none =>
        rw [hlong] at h
        rw [ih hlong]
        exact h
      | some x => rw [hlong] at h; cases h

/-- A match stays the longest when the text is cut off somewhere behind it. -/
theorem longest_cut {q : State} {w v : Bytes} {c : Class} {n : Nat}
    (h : longest q (w ++ v) = some (c, n)) (hn : n ≤ w.length) : longest q w = some (c, n) := by
  induction w generalizing q n with
  | nil =>
    obtain rfl : n = 0 := by simpa using hn
    cases v with
    | nil => exact h
    | cons b v =>
      cases hnext : q.next b with
      | none =>
        rw [List.nil_append, longest_cons_of_none hnext] at h
        exact h
      | some q₁ =>
        rw [List.nil_append, longest_cons_of_some hnext] at h
        cases hrest : longest q₁ v with
        | none => rw [hrest] at h; exact h
        | some x => rw [hrest] at h; simp at h
  | cons a w ih =>
    rw [List.cons_append] at h
    cases hnext : q.next a with
    | none =>
      rw [longest_cons_of_none hnext] at h ⊢
      exact h
    | some q₁ =>
      rw [longest_cons_of_some hnext] at h ⊢
      cases hlong : longest q₁ (w ++ v) with
      | none =>
        rw [hlong] at h
        rw [longest_cut_none hlong]
        exact h
      | some x =>
        obtain ⟨c', m⟩ := x
        rw [hlong] at h
        simp only [Option.some.injEq, Prod.mk.injEq] at h
        obtain ⟨rfl, rfl⟩ := h
        rw [ih hlong (by simpa using hn)]

/-- A match is a run to a state that says what the match is. -/
theorem run_of_longest {q : State} {s : Bytes} {c : Class} {n : Nat}
    (h : longest q s = some (c, n)) :
    n ≤ s.length ∧ ∃ q', run q (s.take n) = some q' ∧ q'.class? = some c := by
  induction s generalizing q n with
  | nil =>
    obtain ⟨c', hc', heq⟩ := Option.map_eq_some_iff.mp h
    cases heq
    exact ⟨Nat.le_refl 0, q, rfl, hc'⟩
  | cons b s ih =>
    cases hnext : q.next b with
    | none =>
      rw [longest_cons_of_none hnext] at h
      obtain ⟨c', hc', heq⟩ := Option.map_eq_some_iff.mp h
      cases heq
      exact ⟨Nat.zero_le _, q, rfl, hc'⟩
    | some q₁ =>
      rw [longest_cons_of_some hnext] at h
      cases hrest : longest q₁ s with
      | none =>
        rw [hrest] at h
        obtain ⟨c', hc', heq⟩ := Option.map_eq_some_iff.mp h
        cases heq
        exact ⟨Nat.zero_le _, q, rfl, hc'⟩
      | some x =>
        obtain ⟨c', m⟩ := x
        rw [hrest] at h
        simp only [Option.some.injEq, Prod.mk.injEq] at h
        obtain ⟨rfl, rfl⟩ := h
        obtain ⟨hm, q', hrun, hclass⟩ := ih hrest
        refine ⟨by simpa using hm, q', ?_, hclass⟩
        rw [List.take_succ_cons, run, hnext]
        exact hrun

/-- A text that a run accepts as a whole is its own longest match, if the run cannot go on. -/
theorem longest_of_run {q q' : State} {w v : Bytes} {c : Class} (hrun : run q w = some q')
    (hclass : q'.class? = some c) (hv : ∀ b ∈ v.head?, q'.next b = none) :
    longest q (w ++ v) = some (c, w.length) := by
  have halone : longest q w = some (c, w.length) := by
    induction w generalizing q with
    | nil =>
      cases hrun
      rw [longest, hclass]
      rfl
    | cons a w ih =>
      obtain ⟨q₁, hnext, hrun⟩ := Option.bind_eq_some_iff.mp hrun
      rw [longest_cons_of_some hnext, ih hrun]
      rfl
  rw [longest_append, halone]
  intro q₁ hq₁
  rw [hrun] at hq₁
  cases hq₁
  exact hv

/-- There is a match that is no shorter than any accepted beginning. -/
theorem le_longest_of_run {q q' : State} {w v : Bytes} {c : Class} (hrun : run q w = some q')
    (hclass : q'.class? = some c) :
    ∃ c' n, longest q (w ++ v) = some (c', n) ∧ w.length ≤ n := by
  induction w generalizing q with
  | nil =>
    cases hrun
    cases hlong : longest q' ([] ++ v) with
    | none =>
      have hempty := longest_cut_none hlong
      rw [longest, hclass] at hempty
      cases hempty
    | some x => exact ⟨x.1, x.2, rfl, Nat.zero_le _⟩
  | cons a w ih =>
    obtain ⟨q₁, hnext, hrun⟩ := Option.bind_eq_some_iff.mp hrun
    obtain ⟨c', n, hlong, hle⟩ := ih hrun
    refine ⟨c', n + 1, ?_, by rw [List.length_cons]; omega⟩
    rw [List.cons_append, longest_cons_of_some hnext, hlong]

/-! ### Separators -/

/-- Blanks and punctuation marks. -/
def isSeparator (b : UInt8) : Bool := isBlank b || isPunctuation b

/-- The states inside or at the end of a token, apart from those of a text not yet closed. -/
def State.isInner : State → Bool
  | .start | .blank | .openText => false
  | _ => true

theorem next_separator {q : State} (hq : q.isInner = true) {b : UInt8} (hb : isSeparator b = true) :
    q.next b = none := by
  have hbytes : b = 0x20 ∨ b = 0x09 ∨ b = 0x0A ∨ b = 0x0D ∨ b = 0x28 ∨ b = 0x29 ∨ b = 0x5B ∨
      b = 0x5D ∨ b = 0x2C ∨ b = 0x3A := by
    simpa [isSeparator, isBlank, isPunctuation, or_assoc] using hb
  rcases hbytes with rfl | rfl | rfl | rfl | rfl | rfl | rfl | rfl | rfl | rfl
  all_goals
    cases q with
    | start | blank | openText => cases hq
    | hash | invocation | name | dot | whole | point | fraction | exponentMark | exponentSign
    | exponent | closedText | operator | longOperator | ampersand | bar | punctuation => rfl

theorem inner_of_next {q q' : State} {b : UInt8} (hq : q.isInner = true)
    (h : q.next b = some q') : q'.isInner = true := by
  cases q <;> grind [State.next, State.isInner]

theorem inner_of_run {q q' : State} {s : Bytes} (hq : q.isInner = true)
    (h : run q s = some q') : q'.isInner = true := by
  induction s generalizing q with
  | nil => cases h; exact hq
  | cons b s ih =>
    obtain ⟨q₁, hnext, hrun⟩ := Option.bind_eq_some_iff.mp h
    exact ih (inner_of_next hq hnext) hrun

/-- A text whose closing quote is still missing at the end has matched nothing. -/
theorem inner_of_run_openText {q' : State} {s : Bytes} {x : Class × Nat}
    (hlong : longest .openText s = some x) (h : run .openText s = some q') :
    q'.isInner = true := by
  induction s generalizing x with
  | nil => cases hlong
  | cons b s ih =>
    obtain ⟨q₁, hnext, hrun⟩ := Option.bind_eq_some_iff.mp h
    rw [longest_cons_of_some hnext] at hlong
    by_cases hb : b = 0x22
    · rw [State.next, hb] at hnext
      cases hnext
      exact inner_of_run rfl hrun
    · have : q₁ = .openText := by
        simp only [State.next, beq_iff_eq, hb, if_false, Option.some.injEq] at hnext
        exact hnext.symm
      subst this
      cases hrest : longest .openText s with
      | none => rw [hrest] at hlong; cases hlong
      | some x => exact ih hrest hrun

/-- Behind a blank the longest match takes all blanks that follow. -/
theorem longest_blank (s : Bytes) :
    longest .blank s = some (.blank, (s.takeWhile isBlank).length) := by
  induction s with
  | nil => rfl
  | cons b s ih =>
    by_cases hb : isBlank b = true
    · have hnext : State.next .blank b = some .blank := by simp [State.next, hb]
      rw [longest_cons_of_some hnext, ih, List.takeWhile_cons_of_pos hb]
      rfl
    · have hnext : State.next .blank b = none := by simp [State.next, hb]
      rw [longest_cons_of_none hnext, List.takeWhile_cons_of_neg hb]
      rfl

/-- No run leads into blank space from anywhere but blank space and the start. -/
theorem ne_blank_of_run {q q' : State} {s : Bytes} (hblank : q ≠ .blank) (hstart : q ≠ .start)
    (h : run q s = some q') : q' ≠ .blank := by
  induction s generalizing q with
  | nil => cases h; exact hblank
  | cons b s ih =>
    obtain ⟨q₁, hnext, hrun⟩ := Option.bind_eq_some_iff.mp h
    refine ih ?_ ?_ hrun <;> cases q <;> grind [State.next]

/-- Only blank space begins with a blank. -/
theorem isBlank_of_longest {b : UInt8} {s : Bytes} {n : Nat}
    (h : longest .start (b :: s) = some (.blank, n)) : isBlank b = true := by
  obtain ⟨_, q, hrun, hclass⟩ := run_of_longest h
  have hq : q = .blank := by
    cases q <;> first | rfl | cases hclass
  subst hq
  cases n with
  | zero => cases hrun
  | succ n =>
    obtain ⟨q₁, hnext, hrun⟩ := Option.bind_eq_some_iff.mp hrun
    cases hb : isBlank b with
    | true => rfl
    | false =>
      refine absurd rfl (ne_blank_of_run ?_ ?_ hrun) <;> grind [State.next]

/-- A text that begins with a token leads to a state from which no separator leads on. -/
theorem inner_of_token {s : Bytes} {q : State} {c : Category} {n : Nat}
    (hlong : longest .start s = some (.token c, n)) (h : run .start s = some q) :
    q.isInner = true := by
  cases s with
  | nil => cases hlong
  | cons b s =>
    obtain ⟨q₁, hnext, hrun⟩ := Option.bind_eq_some_iff.mp h
    rw [longest_cons_of_some hnext] at hlong
    cases hrest : longest q₁ s with
    | none => rw [hrest] at hlong; cases hlong
    | some x =>
      obtain ⟨c', m⟩ := x
      rw [hrest] at hlong
      cases hlong
      cases hq₁ : q₁ with
      | blank => subst hq₁; rw [longest_blank] at hrest; cases hrest
      | openText => subst hq₁; exact inner_of_run_openText hrest hrun
      | start => exact absurd hnext (by subst hq₁; grind [State.next])
      | hash | invocation | name | dot | whole | point | fraction | exponentMark | exponentSign
      | exponent | closedText | operator | longOperator | ampersand | bar | punctuation =>
        exact inner_of_run (by rw [hq₁]; rfl) hrun

/-! ### The equals sign -/

theorem run_operator {s : Bytes} {q : State} (h : run .operator s = some q) :
    q = .operator ∨ q = .longOperator := by
  cases s with
  | nil => cases h; exact Or.inl rfl
  | cons b s =>
    obtain ⟨q₁, hnext, hrun⟩ := Option.bind_eq_some_iff.mp h
    have hlong : q₁ = .longOperator := by
      simp only [State.next] at hnext
      split at hnext <;> cases hnext
      rfl
    subst hlong
    cases s with
    | nil => cases hrun; exact Or.inr rfl
    | cons c s => cases hrun

/-- What begins with an equals sign is an operator. -/
theorem operator_of_equals {s : Bytes} {c : Category} {n : Nat}
    (h : longest .start (0x3D :: s) = some (.token c, n)) : c = .operator := by
  obtain ⟨_, q, hrun, hclass⟩ := run_of_longest h
  cases n with
  | zero => cases hrun; cases hclass
  | succ n =>
    rcases run_operator hrun with rfl | rfl
    · cases hclass; rfl
    · cases hclass; rfl

end RelaxArith.Automaton
