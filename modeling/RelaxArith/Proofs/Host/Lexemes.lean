/-
What the scanner hands out.

A name has no dots, since a dot is neither a letter nor a digit; that is all that has to be known of
Unicode, where a code point is either a byte of ASCII or spelled without such bytes.  A literal is
spelled as Go's lexical grammar has it: numbers by their parts, and the others by their opening
quote, which is kept even where carriage returns are dropped.  Both hold of each lexeme of a source.
-/
import RelaxArith.Proofs.Host.Literals
import RelaxArith.Host.Lines

namespace RelaxArith.Host

open RelaxArith.Host.Lex

/-- A lexeme with a text as the scanner hands it out: names have no dots, and literals are spelled as
Go's lexical grammar has them. -/
structure Lexeme.Genuine (l : Lexeme) : Prop where
  name : l.kind = .name → 0x2E ∉ l.text
  literal : ∀ k, l.kind = .literal k → Spelling k l.text

theorem Lexeme.Genuine.of_spelling {k : LiteralKind} {text : Bytes} (h : Spelling k text)
    (pos width : Nat) : Lexeme.Genuine ⟨.literal k, text, pos, width⟩ :=
  ⟨nofun, fun _ hk => by cases hk; exact h⟩

namespace Lex

/-! ### Names -/

theorem le_of_continuation? {b : UInt8} {n : Nat} (h : Bytes.continuation? b = some n) :
    0x80 ≤ b := by
  rw [Bytes.continuation?] at h
  split at h
  · rename_i hb
    rw [Bool.and_eq_true, decide_eq_true_eq] at hb
    exact hb.1
  · cases h

theorem eq_of_shortest? {least c width : Nat} {r : Nat × Nat}
    (h : Bytes.shortest? least c width = some r) : r = (c, width) ∧ least ≤ c := by
  rw [Bytes.shortest?] at h
  split at h
  · rename_i hc
    cases h
    simp only [Bool.and_eq_true, decide_eq_true_eq] at hc
    exact ⟨rfl, hc.1.1⟩
  · cases h

/-- A code point is a byte of ASCII, or it is spelled by bytes that are not. -/
theorem codePoint?_cases {s : Bytes} {c n : Nat} (h : Bytes.codePoint? s = some (c, n)) :
    (∃ b t, s = b :: t ∧ b < 0x80 ∧ c = b.toNat) ∨ 0x80 ≤ c ∧ ∀ b ∈ s.take n, 0x80 ≤ b := by
  rw [Bytes.codePoint?.eq_def] at h
  split at h
  · cases h
  · rename_i a rest
    split at h
    · rename_i ha
      cases h
      exact .inl ⟨a, rest, rfl, ha, rfl⟩
    · rename_i ha
      right
      have ha' : 0x80 ≤ a := UInt8.not_lt.mp ha
      split at h
      · split at h
        · obtain ⟨x, hx, h⟩ := Option.bind_eq_some_iff.mp h
          obtain ⟨heq, hle⟩ := eq_of_shortest? h
          cases heq
          exact ⟨hle, by simp [ha', le_of_continuation? hx]⟩
        · cases h
      split at h
      · split at h
        · obtain ⟨x, hx, h⟩ := Option.bind_eq_some_iff.mp h
          obtain ⟨y, hy, h⟩ := Option.bind_eq_some_iff.mp h
          obtain ⟨heq, hle⟩ := eq_of_shortest? h
          cases heq
          exact ⟨Nat.le_trans (by decide) hle,
            by simp [ha', le_of_continuation? hx, le_of_continuation? hy]⟩
        · cases h
      split at h
      · split at h
        · obtain ⟨x, hx, h⟩ := Option.bind_eq_some_iff.mp h
          obtain ⟨y, hy, h⟩ := Option.bind_eq_some_iff.mp h
          obtain ⟨z, hz, h⟩ := Option.bind_eq_some_iff.mp h
          obtain ⟨heq, hle⟩ := eq_of_shortest? h
          cases heq
          exact ⟨Nat.le_trans (by decide) hle, by
            simp [ha', le_of_continuation? hx, le_of_continuation? hy, le_of_continuation? hz]⟩
        · cases h
      · cases h

/-- The letters and digits of names are no dots. -/
theorem not_mem_take_wordLength (first : Bool) (s : Bytes) :
    0x2E ∉ s.take (wordLength first s) := by
  rw [wordLength]
  split
  · simp
  · rename_i c n hc
    obtain ⟨b, t, rfl, hb, rfl⟩ | ⟨hle, hall⟩ := codePoint?_cases hc
    · have hlt : b.toNat < 0x80 := UInt8.lt_iff_toNat_lt.mp hb
      have hbyte : b.toNat.toUInt8 = b := UInt8.ofNat_toNat
      rw [if_pos hlt, hbyte]
      dsimp only
      split
      · rename_i hword
        intro hmem
        rw [List.take_succ_cons, List.take_zero, List.mem_singleton] at hmem
        rw [← hmem] at hword
        revert hword
        cases first <;> decide
      · simp
    · rw [if_neg (by omega)]
      split
      · intro hmem
        exact absurd (hall _ hmem) (by decide)
      · simp

/-- Names have no dots. -/
theorem not_mem_take_restOfName (s : Bytes) : 0x2E ∉ s.take (restOfName s) := by
  fun_induction restOfName s with
  | case1 => simp
  | case2 b bs h => simp
  | case3 b bs n h ih =>
    have hfirst := not_mem_take_wordLength false (b :: bs)
    rw [h] at hfirst
    rw [List.take_add, List.mem_append, not_or]
    exact ⟨hfirst, ih⟩

/-! ### Lexemes -/

theorem not_mem_dropReturns {s : Bytes} (h : 0x2E ∉ s) : 0x2E ∉ dropReturns s :=
  fun hmem => h (List.mem_filter.mp hmem).1

/-- What the scanner makes of a text is genuine. -/
theorem genuine_of_lexeme? {b : UInt8} {bs : Bytes} {kind : LexemeKind} {n : Nat}
    (h : lexeme? (b :: bs) = some (kind, n)) (pos width : Nat) :
    Lexeme.Genuine ⟨kind, if b == 0x60 then dropReturns ((b :: bs).take n) else (b :: bs).take n,
      pos, width⟩ := by
  rw [lexeme?.eq_def] at h
  dsimp only at h
  split at h
  · have hname : 0x2E ∉ (b :: bs).take (restOfName (b :: bs)) := not_mem_take_restOfName _
    cases h
    refine ⟨fun _ => ?_, fun k hk => ?_⟩
    · dsimp only
      split
      · exact not_mem_dropReturns hname
      · exact hname
    · dsimp only at hk
      split at hk <;> cases hk
  split at h
  · -- a number: no quote begins with a digit or a point
    rename_i hdigit
    obtain ⟨⟨k, m⟩, hnumber, heq⟩ := Option.map_eq_some_iff.mp h
    cases heq
    have hquote : (b == 0x60) = false := by
      rw [beq_eq_false_iff_ne]
      rintro rfl
      exact absurd hdigit (by simp [isDecimal])
    rw [hquote]
    exact .of_spelling (spelling_of_number? hnumber) pos width
  split at h
  · rename_i hquote
    obtain ⟨⟨m, _⟩, _, heq⟩ := Option.map_eq_some_iff.mp h
    cases heq
    cases beq_iff_eq.mp hquote
    exact .of_spelling (.text _) pos width
  split at h
  · rename_i hquote
    split at h
    · cases h
      cases beq_iff_eq.mp hquote
      exact .of_spelling (.char _) pos width
    · cases h
  split at h
  · -- a raw text: its opening quote is no carriage return
    rename_i hquote
    obtain ⟨m, _, heq⟩ := Option.map_eq_some_iff.mp h
    cases heq
    cases beq_iff_eq.mp hquote
    exact .of_spelling (.raw _) pos width
  · obtain ⟨w, _, heq⟩ := Option.map_eq_some_iff.mp h
    cases heq
    exact ⟨nofun, nofun⟩

theorem genuine_of_mem_lineEndIf {ending : Bool} {offset : Nat} {l : Lexeme}
    (h : Item.lexeme l ∈ lineEndIf ending offset) : l.Genuine := by
  rw [lineEndIf] at h
  split at h
  · cases List.mem_singleton.mp h
    exact ⟨nofun, nofun⟩
  · cases h

/-- The lexemes among the items of a source are genuine. -/
theorem genuine_of_itemsFrom {offset : Nat} {ending : Bool} {s : Bytes} {found : List Item}
    (h : itemsFrom offset ending s = some found) {l : Lexeme} (hl : Item.lexeme l ∈ found) :
    l.Genuine := by
  fun_induction itemsFrom offset ending s generalizing found with
  | case1 =>
    cases h
    rcases List.mem_append.mp hl with hl | hl
    · exact genuine_of_mem_lineEndIf hl
    · cases List.mem_singleton.mp hl
      exact ⟨nofun, nofun⟩
  | case2 _ _ _ _ _ ih =>
    -- a line end
    obtain ⟨rest, hrest, heq⟩ := Option.bind_eq_some_iff.mp h
    cases heq
    rcases List.mem_append.mp hl with hl | hl
    · exact genuine_of_mem_lineEndIf hl
    · exact ih hrest hl
  | case3 _ _ _ _ _ _ ih => exact ih h hl
  | case4 =>
    -- a comment up to the end of its line
    rename_i ih
    obtain ⟨rest, hrest, heq⟩ := Option.bind_eq_some_iff.mp h
    cases heq
    rw [List.mem_cons] at hl
    exact ih hrest (hl.resolve_left nofun)
  | case5 _ _ _ _ _ _ _ _ ih =>
    -- a general comment
    obtain ⟨n, _, h⟩ := Option.bind_eq_some_iff.mp h
    obtain ⟨rest, hrest, heq⟩ := Option.bind_eq_some_iff.mp h
    cases heq
    rw [List.cons_append, List.mem_cons] at hl
    rcases List.mem_append.mp (hl.resolve_left nofun) with hl | hl
    · exact genuine_of_mem_lineEndIf hl
    · exact ih n hrest hl
  | case6 _ _ _ _ _ _ _ _ ih =>
    obtain ⟨⟨kind, n⟩, hlexeme, h⟩ := Option.bind_eq_some_iff.mp h
    obtain ⟨rest, hrest, heq⟩ := Option.bind_eq_some_iff.mp h
    cases heq
    rw [List.mem_cons] at hl
    rcases hl with hl | hl
    · cases hl
      exact genuine_of_lexeme? hlexeme _ _
    · exact ih kind n hrest hl

end Lex

/-! ### Sources -/

namespace Material

/-- Reading items adds their lexemes, and nothing else, to those of the material. -/
theorem mem_lexemes_gather {found : List Item} {previous : Nat} {behind : Option Nat}
    {group : Option Gathering} {m : Material} {l : Lexeme}
    (h : l ∈ (gather found previous behind group m).lexemes) :
    Item.lexeme l ∈ found ∨ l ∈ m.lexemes := by
  fun_induction gather found previous behind group m with
  | case1 => exact .inr (List.mem_reverse.mp h)
  | case2 _ _ _ _ _ _ _ _ _ _ _ _ ih => exact (ih h).imp_left (List.mem_cons_of_mem _)
  | case3 _ _ _ _ _ _ _ _ _ _ _ _ ih => exact (ih h).imp_left (List.mem_cons_of_mem _)
  | case4 _ _ _ _ _ _ _ _ ih => exact (ih h).imp_left (List.mem_cons_of_mem _)
  | case5 previous first rest behind group m m' ih =>
    have hsame : m'.lexemes = m.lexemes := by cases group <;> rfl
    rcases ih h with hrest | hl
    · exact .inl (List.mem_cons_of_mem _ hrest)
    · rw [hsame, List.mem_cons] at hl
      rcases hl with rfl | hl
      · exact .inl List.mem_cons_self
      · exact .inr hl

/-- The lexemes of a source are genuine. -/
theorem genuine_of_ofSource {file s : Bytes} {m : Material} (h : ofSource file s = some m)
    {l : Lexeme} (hl : l ∈ m.lexemes) : l.Genuine := by
  obtain ⟨found, hfound, h⟩ := Option.bind_eq_some_iff.mp h
  obtain ⟨lines, _, heq⟩ := Option.bind_eq_some_iff.mp h
  cases heq
  rcases mem_lexemes_gather hl with hl | hl
  · unfold Lex.items at hfound
    extract_lets mark skip at hfound
    split at hfound
    · exact Lex.genuine_of_itemsFrom hfound hl
    · cases hfound
  · cases hl

end Material

end RelaxArith.Host
