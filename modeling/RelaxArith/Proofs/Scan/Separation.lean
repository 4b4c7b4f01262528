/-
Blanks separate scans.

Longest matches look ahead, and inside a text between quotes a blank is a byte like any other.  But
a text that scans without a report, with blanks behind it, scans as if nothing else followed: its
last token has been closed, and no run goes on from inside a token with a blank.  Behind the blanks
scanning starts afresh, since what it comes across depends on the offset only by the positions that
it notes; so tokens and reports there are those of the text behind the blanks, shifted.

In particular a single blank between any two tokens keeps them what they are, and so does one in
front of each, which is how tokens are written down behind a text that is there already.

Scanning at once and asking a scanner for tokens until it hands out the end come across the same.
-/
import Mathlib
import RelaxArith.Proofs.Scan.Engine

namespace RelaxArith

open Automaton

/-! ### The same, further on -/

/-- A span some bytes further on. -/
def Span.shift (k : Nat) (s : Span) : Span := ⟨k + s.lo, k + s.hi⟩

/-- The same token or report, some bytes further on. -/
def ScanEvent.shift (k : Nat) : ScanEvent → ScanEvent
  | .token t => .token { t with span := t.span.shift k }
  | .error e => .error { e with span := e.span.shift k }

theorem Lead.event?_shift (l : Lead) (k offset n : Nat) (s : Bytes) :
    l.event? (k + offset) n s = (l.event? offset n s).map (ScanEvent.shift k) := by
  cases l with
  | blank => rfl
  | token c => simp [Lead.event?, ScanEvent.shift, Span.shift, Nat.add_assoc]
  | unrecognized => simp [Lead.event?, ScanEvent.shift, Span.shift, Nat.add_assoc]

/-- Scanning further on comes across the same, further on. -/
theorem scanFrom_shift (k offset : Nat) (s : Bytes) :
    scanFrom (k + offset) s = (scanFrom offset s).map (ScanEvent.shift k) := by
  fun_induction scanFrom offset s with
  | case1 offset =>
    rw [scanFrom]
    rfl
  | case2 offset b bs l n hlead ih =>
    rw [scanFrom_lead _ hlead, Lead.event?_shift, Option.toList_map, List.map_append, ← ih,
      Nat.add_assoc]

/-! ### Blanks behind a text -/

theorem spelled_of_blanks {w : Bytes} (h : ∀ b ∈ w, isBlank b = true) (n : Nat) (v : Bytes) :
    Spelled n w v [] := by
  induction w generalizing n with
  | nil => exact .nil n v
  | cons b w ih =>
    obtain ⟨hb, hw⟩ := List.forall_mem_cons.mp h
    exact .blank hb (ih hw (n + 1))

theorem separated_of_blanks {w : Bytes} (hw : w ≠ []) (h : ∀ b ∈ w, isBlank b = true)
    (t : Bytes) : Separated (w ++ t) := by
  cases w with
  | nil => exact absurd rfl hw
  | cons b w =>
    intro c hc
    cases hc
    rw [isSeparator, h b List.mem_cons_self, Bool.true_or]

/-- Behind a spelled text and blanks, scanning goes on as at the beginning of what follows. -/
theorem scan_append_blanks {s w : Bytes} {ts : List Token} (hs : Spelled 0 s [] ts)
    (hw : w ≠ []) (hblank : ∀ b ∈ w, isBlank b = true) (t : Bytes) :
    scan (s ++ w ++ t)
      = ts.map .token ++ (scan t).map (ScanEvent.shift (s.length + w.length)) := by
  have hfront : Spelled 0 (s ++ w) t ts := by
    have htokens : Spelled 0 s (w ++ t) ts := hs.before (separated_of_blanks hw hblank t)
    have hboth := htokens.append (spelled_of_blanks hblank (0 + s.length) t)
    rwa [List.append_nil] at hboth
  have hbehind : 0 + (s ++ w).length = s.length + w.length + 0 := by
    rw [List.length_append]
    omega
  calc scan (s ++ w ++ t)
      = ts.map ScanEvent.token ++ scanFrom (0 + (s ++ w).length) t := hfront.scanFrom_append
    _ = ts.map ScanEvent.token ++ (scan t).map (ScanEvent.shift (s.length + w.length)) := by
        rw [hbehind, scanFrom_shift, scan]

/-! ### Blanks between tokens -/

/-- The texts of tokens, each behind a blank. -/
def spaced (ts : List Token) : Bytes := ts.flatMap fun t => 0x20 :: t.lexeme

theorem separated_spaced (ts : List Token) : Separated (spaced ts) := by
  intro b hb
  cases ts with
  | nil => simp [spaced] at hb
  | cons t ts =>
    have hblank : b = 0x20 := by simpa [spaced, eq_comm] using hb
    rw [hblank]
    decide

theorem spelled_spaced {ts : List Token} (h : ∀ t ∈ ts, t.IsWhole) (n : Nat) :
    ∃ us, Spelled n (spaced ts) [] us ∧ us.map Token.word = ts.map Token.word := by
  induction ts generalizing n with
  | nil => exact ⟨[], .nil n [], rfl⟩
  | cons t ts ih =>
    obtain ⟨us, hus, hwords⟩ :=
      ih (fun u hu => h u (List.mem_cons_of_mem t hu)) (n + 1 + t.lexeme.length)
    have hseparated : Separated (spaced ts ++ []) := by
      rw [List.append_nil]
      exact separated_spaced ts
    have htoken := (h t (List.mem_cons_self ..)).spelled (n + 1) hseparated
    refine ⟨⟨t.category, t.lexeme, ⟨n + 1, n + 1 + t.lexeme.length⟩⟩ :: us, ?_, ?_⟩
    · show Spelled n (0x20 :: (t.lexeme ++ spaced ts)) [] _
      exact .blank (by decide) (htoken.append hus)
    · simp [hwords, Token.word]

/-- Behind a text that is made of tokens, other tokens can be written down. -/
theorem spelled_append_spaced {s : Bytes} {ts us : List Token} (hts : Spelled 0 s [] ts)
    (hus : ∀ t ∈ us, t.IsWhole) :
    ∃ vs, Spelled 0 (s ++ spaced us) [] (ts ++ vs) ∧ vs.map Token.word = us.map Token.word := by
  obtain ⟨vs, hvs, hwords⟩ := spelled_spaced hus (0 + s.length)
  have hseparated : Separated (spaced us ++ []) := by
    rw [List.append_nil]
    exact separated_spaced us
  exact ⟨vs, (hts.before hseparated).append hvs, hwords⟩

theorem join_lexemes (t : Token) (ts : List Token) :
    Bytes.join (utf8 " ") ((t :: ts).map Token.lexeme) = t.lexeme ++ spaced ts := by
  induction ts generalizing t with
  | nil => exact (List.append_nil _).symm
  | cons t' ts ih =>
    have hfirst : Bytes.join (utf8 " ") ((t :: t' :: ts).map Token.lexeme)
        = t.lexeme ++ utf8 " " ++ Bytes.join (utf8 " ") ((t' :: ts).map Token.lexeme) := rfl
    rw [hfirst, ih, List.append_assoc]
    rfl

/-- Tokens with a blank between any two are spelled as they are. -/
theorem spelled_join {ts : List Token} (h : ∀ t ∈ ts, t.IsWhole) :
    ∃ us, Spelled 0 (Bytes.join (utf8 " ") (ts.map Token.lexeme)) [] us ∧
      us.map Token.word = ts.map Token.word := by
  cases ts with
  | nil => exact ⟨[], .nil 0 [], rfl⟩
  | cons t ts =>
    obtain ⟨ht, hts⟩ := List.forall_mem_cons.mp h
    have hfirst := ht.spelled 0 (v := []) fun _ hb => nomatch hb
    obtain ⟨us, hspelled, hwords⟩ := spelled_append_spaced hfirst hts
    rw [join_lexemes]
    exact ⟨_, hspelled, congrArg (t.word :: ·) hwords⟩

/-! ### Asking up to the end -/

namespace Scanner

/-- A scanner that hands out the token of the end has nothing left. -/
theorem next_end {s : Scanner} (h : s.next.2.1.category = .endOfInput) :
    s.next.2.2 = ⟨s.offset + s.rest.length, []⟩ := by
  fun_induction Scanner.next s with
  | case1 offset => rfl
  | case2 offset b bs l n hlead behind t hevent =>
    exact absurd h (category_of_event hlead hevent)
  | case3 offset b bs l n hlead behind e hevent es t s' hnext ih =>
    rw [hnext] at ih
    rw [← (length_behind_lead offset hlead).2]
    exact ih h
  | case4 offset b bs l n hlead behind hevent ih =>
    rw [← (length_behind_lead offset hlead).2]
    exact ih h

theorem take_at_end (n calls : Nat) :
    take calls ⟨n, []⟩ = List.replicate calls (.token (Token.endAt n)) := by
  induction calls with
  | zero => rfl
  | succ calls ih =>
    rw [take, Scanner.next]
    simp only [ih]
    rfl

/-- Asking up to the end, and further, comes across what scanning comes across, and then the end. -/
theorem take_eq_scanFrom (s : Scanner) :
    ∃ calls ≤ s.rest.length, ∀ more, s.take (calls + (more + 1))
      = scanFrom s.offset s.rest
        ++ List.replicate (more + 1) (.token (Token.endAt (s.offset + s.rest.length))) := by
  induction hlength : s.rest.length using Nat.strongRecOn generalizing s with
  | ind length ih =>
    obtain ⟨es, t, s', hnext⟩ : ∃ es t s', s.next = (es, t, s') := ⟨_, _, _, rfl⟩
    have hout := s.handsOut_next
    have hend := @next_end s
    rw [hnext] at hout hend
    rcases hout with ⟨rfl, hscan⟩ | ⟨-, hshort, htotal, hscan⟩
    · refine ⟨0, Nat.zero_le _, fun more => ?_⟩
      obtain rfl := hend rfl
      rw [Nat.zero_add, take, hnext]
      simp only [take_at_end, hscan, hlength, List.replicate_succ]
    · obtain ⟨calls, hcalls, htake⟩ := ih s'.rest.length (by omega) s' rfl
      refine ⟨calls + 1, by omega, fun more => ?_⟩
      rw [Nat.add_right_comm, take, hnext]
      simp only [htake more, htotal, hscan, hlength, List.append_assoc, List.cons_append]

end Scanner

/-- **Blanks separate scans.** If a text scans to tokens without a report, then with blanks behind
it and any other text behind these it scans to the same tokens, followed by what scanning the other
text comes across, reports included, that many bytes further on. And the lexemes of the tokens, with
a single blank between any two of them, scan to tokens of the same categories with the same lexemes.
What scanning comes across is what a scanner comes across that is asked for tokens up to the end. -/
theorem blanks_separate_scans {s : Bytes} {ts : List Token} (hs : scan s = ts.map .token) :
    (∀ w t : Bytes, w ≠ [] → (∀ b ∈ w, b ∈ utf8 " \t\n\r") →
      scan (s ++ w ++ t) = scan s ++ (scan t).map (ScanEvent.shift (s.length + w.length))) ∧
    (∃ us : List Token,
      scan (Bytes.join (utf8 " ") (ts.map Token.lexeme)) = us.map .token ∧
      us.map Token.word = ts.map Token.word) ∧
    ∀ x : Bytes, ∃ calls ≤ x.length, ∀ more, (Scanner.ofText x).take (calls + (more + 1))
      = scan x ++ List.replicate (more + 1) (.token (Token.endAt x.length)) := by
  have hspelled := scan_eq_iff.mp hs
  refine ⟨?_, ?_, ?_⟩
  · intro w t hw hblank
    rw [hs]
    exact scan_append_blanks hspelled hw (fun b hb => mem_blanks_iff.mp (hblank b hb)) t
  · obtain ⟨us, hjoined, hwords⟩ := spelled_join hspelled.isWhole
    exact ⟨us, hjoined.scanFrom, hwords⟩
  · intro x
    have htake := (Scanner.ofText x).take_eq_scanFrom
    rwa [show (Scanner.ofText x).offset + (Scanner.ofText x).rest.length = x.length from
      Nat.zero_add _] at htake

/-- The tokens of a text in quotes with a blank in it, and of a number with the beginning of an
exponent behind it that is none. -/
def separationExample : List Token :=
  [⟨.text, utf8 "\"a b\"", ⟨0, 5⟩⟩, ⟨.operator, utf8 "+", ⟨5, 6⟩⟩, ⟨.number, utf8 "2.5", ⟨6, 9⟩⟩,
    ⟨.name, utf8 "e", ⟨9, 10⟩⟩, ⟨.operator, utf8 "+", ⟨10, 11⟩⟩]

theorem blanks_separate_scans_separationExample :
    scan (utf8 "\"a b\"+2.5e+") = separationExample.map .token ∧
    utf8 " \n" ≠ [] ∧ (∀ b ∈ utf8 " \n", b ∈ utf8 " \t\n\r") ∧
    scan (utf8 "\"a b\"+2.5e+" ++ utf8 " \n" ++ utf8 "=1 &b") = separationExample.map .token ++
      [.token ⟨.operator, utf8 "=", ⟨13, 14⟩⟩, .token ⟨.number, utf8 "1", ⟨14, 15⟩⟩,
        .error ⟨⟨16, 18⟩, .unrecognized (utf8 "&b")⟩] ∧
    (∃ us : List Token, scan (utf8 "\"a b\" + 2.5 e +") = us.map .token ∧
      us.map Token.word = separationExample.map Token.word) ∧
    ∃ calls ≤ 5, ∀ more, (Scanner.ofText (utf8 "=1 &b")).take (calls + (more + 1))
      = scan (utf8 "=1 &b") ++ List.replicate (more + 1) (.token (Token.endAt 5)) := by
  have hscan : scan (utf8 "\"a b\"+2.5e+") = separationExample.map .token := by cbv
  have hfull : utf8 " \n" ≠ [] := by decide
  have hall : (utf8 " \n").all isBlank = true := by decide
  have hblank : ∀ b ∈ utf8 " \n", b ∈ utf8 " \t\n\r" :=
    fun b hb => mem_blanks_iff.mpr (List.all_eq_true.mp hall b hb)
  have hbehind : scan (utf8 "=1 &b") = [.token ⟨.operator, utf8 "=", ⟨0, 1⟩⟩,
      .token ⟨.number, utf8 "1", ⟨1, 2⟩⟩, .error ⟨⟨3, 5⟩, .unrecognized (utf8 "&b")⟩] := by cbv
  have hjoin : Bytes.join (utf8 " ") (separationExample.map Token.lexeme)
      = utf8 "\"a b\" + 2.5 e +" := by decide
  obtain ⟨hseparate, hjoined, hasked⟩ := blanks_separate_scans hscan
  have hboth := hseparate (utf8 " \n") (utf8 "=1 &b") hfull hblank
  rw [hscan, hbehind] at hboth
  rw [hjoin] at hjoined
  exact ⟨hscan, hfull, hblank, hboth, hjoined, hasked (utf8 "=1 &b")⟩

end RelaxArith
