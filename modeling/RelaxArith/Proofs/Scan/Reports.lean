/-
What a scanner hands out, one token after the other.

A text is scanned at once or token by token, with reports on the way.  Both come across the same
things in the same order: the reports before a token, the token, and so on up to the end of the
text, where the token of the end is handed out.  A text has tokens exactly if there is no report,
and otherwise the first report stands for it.
-/
import RelaxArith.Proofs.Scan.Spelling

namespace RelaxArith

open Automaton

/-- The token that was come across. -/
def ScanEvent.token? : ScanEvent → Option Token
  | .token t => some t
  | .error _ => none

/-- The report that was come across. -/
def ScanEvent.error? : ScanEvent → Option SyntaxError
  | .token _ => none
  | .error e => some e

/-- The first report on a text. -/
def firstReport (s : Bytes) : Option SyntaxError := (scan s).findSome? ScanEvent.error?

/-- There is no token among reports. -/
theorem filterMap_token_reports (es : List SyntaxError) :
    (es.map ScanEvent.error).filterMap ScanEvent.token? = [] := by
  induction es with
  | nil => rfl
  | cons e es ih => exact ih

theorem findSome_error_reports (es : List SyntaxError) :
    (es.map ScanEvent.error).findSome? ScanEvent.error? = es.head? := by
  cases es <;> rfl

theorem tokens_eq (s : Bytes) :
    tokens s = match firstReport s with
      | some e => .error e
      | none => .ok ((scan s).filterMap ScanEvent.token?) := by
  unfold tokens firstReport
  induction scan s with
  | nil => rfl
  | cons event events ih =>
    cases event with
    | error e => rfl
    | token t =>
      simp only [List.foldr_cons, List.findSome?_cons, List.filterMap_cons, ScanEvent.error?,
        ScanEvent.token?]
      rw [ih]
      cases events.findSome? ScanEvent.error? <;> rfl

theorem tokens_eq_error_iff {s : Bytes} {e : SyntaxError} :
    tokens s = .error e ↔ firstReport s = some e := by
  rw [tokens_eq]
  cases firstReport s <;> simp

/-! ### Single tokens -/

/-- What is no more than a beginning is not the end of the input. -/
theorem category_ne_end {s : Bytes} {c : Category} {n : Nat}
    (h : longest .start s = some (.token c, n)) : c ≠ .endOfInput := by
  obtain ⟨-, q, -, hclass⟩ := run_of_longest h
  rintro rfl
  cases q <;> simp [State.class?] at hclass

theorem reach_le (q : State) (s : Bytes) : reach q s ≤ s.length := by
  induction s generalizing q with
  | nil => exact Nat.le_refl 0
  | cons b s ih =>
    rw [reach]
    cases q.next b with
    | none => simp
    | some q' => simpa using ih q'

theorem lead_le {b : UInt8} {bs : Bytes} {l : Lead} {n : Nat} (h : lead (b :: bs) = (l, n)) :
    1 ≤ n ∧ n ≤ (b :: bs).length := by
  unfold lead at h
  cases hlong : longest .start (b :: bs) with
  | none =>
    rw [hlong] at h
    cases h
    refine ⟨?_, reach_le _ _⟩
    rw [reach]
    cases State.start.next b <;> simp
  | some x =>
    obtain ⟨c, m⟩ := x
    rw [hlong] at h
    have hm : m = n := by cases c <;> cases h <;> rfl
    rw [← hm]
    exact ⟨longest_start_pos hlong, (run_of_longest hlong).1⟩

theorem category_of_lead {s : Bytes} {c : Category} {n : Nat} (h : lead s = (.token c, n)) :
    c ≠ .endOfInput := by
  unfold lead at h
  cases hlong : longest .start s with
  | none => rw [hlong] at h; cases h
  | some x =>
    obtain ⟨k | k, m⟩ := x
    · rw [hlong] at h; cases h
    · rw [hlong] at h
      cases h
      exact category_ne_end hlong

/-- A token that a text begins with is not that of the end. -/
theorem category_of_event {s : Bytes} {l : Lead} {offset n : Nat} {t : Token}
    (hlead : lead s = (l, n)) (hevent : l.event? offset n s = some (.token t)) :
    t.category ≠ .endOfInput := by
  cases l with
  | blank | unrecognized => cases hevent
  | token c =>
    cases hevent
    exact category_of_lead hlead

/-! ### Token by token -/

/-- Reports and a token are what scanning comes across next, or the token is that of the end. -/
def Scanner.HandsOut (s : Scanner) : List SyntaxError × Token × Scanner → Prop
  | (es, t, s') =>
    (t = Token.endAt (s.offset + s.rest.length) ∧ scanFrom s.offset s.rest = es.map .error) ∨
    (t.category ≠ .endOfInput ∧ s'.rest.length < s.rest.length ∧
      s'.offset + s'.rest.length = s.offset + s.rest.length ∧
      scanFrom s.offset s.rest = es.map .error ++ .token t :: scanFrom s'.offset s'.rest)

section Lead

variable {n : Nat} {b : UInt8} {bs : Bytes} {l : Lead}

theorem scanFrom_lead (offset : Nat) (h : lead (b :: bs) = (l, n)) :
    scanFrom offset (b :: bs) = (l.event? offset n (b :: bs)).toList
      ++ scanFrom (offset + n) (bs.drop (n - 1)) := by
  rw [scanFrom, h]

theorem length_behind_lead (offset : Nat) (h : lead (b :: bs) = (l, n)) :
    (bs.drop (n - 1)).length < (b :: bs).length ∧
      offset + n + (bs.drop (n - 1)).length = offset + (b :: bs).length := by
  obtain ⟨hpos, hle⟩ := lead_le h
  simp only [List.length_drop, List.length_cons] at hle ⊢
  omega

/-- A report or blanks in front of what a scanner hands out. -/
theorem Scanner.HandsOut.cons {offset : Nat} {es : List SyntaxError} {t : Token} {s' : Scanner}
    (es' : List SyntaxError) (h : lead (b :: bs) = (l, n))
    (hevent : (l.event? offset n (b :: bs)).toList = es'.map .error)
    (hbehind : HandsOut ⟨offset + n, bs.drop (n - 1)⟩ (es, t, s')) :
    HandsOut ⟨offset, b :: bs⟩ (es' ++ es, t, s') := by
  obtain ⟨hshort, htotal⟩ := length_behind_lead offset h
  have hscan := scanFrom_lead offset h
  rw [hevent] at hscan
  rcases hbehind with ⟨hend, hrest⟩ | ⟨hcat, hshort', htotal', hrest⟩
  · refine .inl ⟨?_, ?_⟩
    · rw [hend, ← htotal]
    · rw [hscan, hrest, List.map_append]
  · refine .inr ⟨hcat, Nat.lt_trans hshort' hshort, htotal'.trans htotal, ?_⟩
    rw [hscan, hrest, List.map_append, List.append_assoc]

end Lead

/-- What a scanner hands out next is what scanning comes across next. -/
theorem Scanner.handsOut_next (s : Scanner) : s.HandsOut s.next := by
  fun_induction Scanner.next s with
  | case1 offset =>
    refine .inl ⟨rfl, ?_⟩
    rw [scanFrom]
    rfl
  | case2 offset b bs l n hlead behind t hevent =>
    obtain ⟨hshort, htotal⟩ := length_behind_lead offset hlead
    refine .inr ⟨category_of_event hlead hevent, hshort, htotal, ?_⟩
    rw [scanFrom_lead offset hlead, hevent]
    rfl
  | case3 offset b bs l n hlead behind e hevent es t s' hnext ih =>
    rw [hnext] at ih
    exact ih.cons [e] hlead (by rw [hevent]; rfl)
  | case4 offset b bs l n hlead behind hevent ih =>
    exact ih.cons [] hlead (by rw [hevent]; rfl)

/-! ### Places of reports -/

/-- Reports take up room, within the text that they are made on. -/
theorem span_of_report {n : Nat} {s : Bytes} {e : SyntaxError} (h : .error e ∈ scanFrom n s) :
    n ≤ e.span.lo ∧ e.span.lo < e.span.hi ∧ e.span.hi ≤ n + s.length := by
  fun_induction scanFrom n s with
  | case1 => cases h
  | case2 offset b bs l n hlead ih =>
    obtain ⟨hpos, hle⟩ := lead_le hlead
    obtain ⟨-, htotal⟩ := length_behind_lead offset hlead
    rcases List.mem_append.mp h with h | h
    · cases l with
      | blank => cases h
      | token c => simp [Lead.event?] at h
      | unrecognized =>
        have he : e = ⟨⟨offset, offset + n⟩, .unrecognized ((b :: bs).take n)⟩ := by
          simpa [Lead.event?] using h
        rw [he]
        exact ⟨Nat.le_refl _, by simp only; omega, by simp only; omega⟩
    · have hrest := ih h
      omega

theorem span_of_firstReport {s : Bytes} {e : SyntaxError} (h : firstReport s = some e) :
    e.span.lo < e.span.hi ∧ e.span.hi ≤ s.length := by
  obtain ⟨event, hmem, hevent⟩ := List.exists_of_findSome?_eq_some h
  cases event with
  | token t => cases hevent
  | error e' =>
    cases hevent
    have hspan := span_of_report hmem
    omega

end RelaxArith
