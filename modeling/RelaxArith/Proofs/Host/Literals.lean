/-
How Go spells literals.

An expression tree does not keep the kind of a literal, only whether it is a number or a text; on
the way back to Go the kind is guessed from the spelling, by looking for some letters in some order.
Here the spellings are described as Go's lexical grammar has them, by their parts: digits, fraction
and exponent.  The description is generous with underscores and with digits that are left out.  From
the letters that can occur in each part it follows that the guess is right; and whatever the scanner
takes for a literal is spelled as described.
-/
import RelaxArith.Host.Exchange

namespace RelaxArith.Host

open RelaxArith.Host.Lex

/-! ### The grammar -/

/-- Digits, and underscores between them. -/
def Digits (isDigit : UInt8 → Bool) (s : Bytes) : Prop := ∀ b ∈ s, isDigit b = true ∨ b = 0x5F

/-- Nothing, or a point and digits. -/
inductive Fraction (isDigit : UInt8 → Bool) : Bytes → Prop
  | nil : Fraction isDigit []
  | point {s : Bytes} (hs : Digits isDigit s) : Fraction isDigit (0x2E :: s)

/-- A letter or its capital, a sign perhaps, and decimal digits. -/
inductive Exponent (letter : UInt8) : Bytes → Prop
  | mk {b : UInt8} {sign s : Bytes} (hb : lower b = letter)
      (hsign : sign ∈ [[], [0x2B], [0x2D]]) (hs : Digits isDecimal s) :
      Exponent letter (b :: (sign ++ s))

/-- The spelling of a number that is not imaginary. Octal numbers with a plain zero in front are
among the decimal ones. -/
inductive Numeral : LiteralKind → Bytes → Prop
  | decimal {s : Bytes} (hs : Digits isDecimal s) : Numeral .int s
  | based {b : UInt8} {s : Bytes} (hb : lower b = 0x6F ∨ lower b = 0x62)
      (hs : Digits isDecimal s) : Numeral .int (0x30 :: b :: s)
  | hex {b : UInt8} {s : Bytes} (hb : lower b = 0x78) (hs : Digits isHex s) :
      Numeral .int (0x30 :: b :: s)
  | float {s f e : Bytes} (hs : Digits isDecimal s) (hf : Fraction isDecimal f)
      (he : e = [] ∨ Exponent 0x65 e) (hne : f ++ e ≠ []) : Numeral .float (s ++ (f ++ e))
  | hexFloat {b : UInt8} {s f e : Bytes} (hb : lower b = 0x78) (hs : Digits isHex s)
      (hf : Fraction isHex f) (he : Exponent 0x70 e) :
      Numeral .float (0x30 :: b :: (s ++ (f ++ e)))

/-- The spelling of a literal. -/
inductive Spelling : LiteralKind → Bytes → Prop
  | number {k : LiteralKind} {s : Bytes} (h : Numeral k s) : Spelling k s
  | imaginary {k : LiteralKind} {s : Bytes} (h : Numeral k s) : Spelling .imaginary (s ++ [0x69])
  | char (s : Bytes) : Spelling .char (0x27 :: s)
  | text (s : Bytes) : Spelling .text (0x22 :: s)
  | raw (s : Bytes) : Spelling .text (0x60 :: s)

/-! ### Letters -/

/-- What holds of each byte by its number holds of every byte. -/
theorem forall_byte {p : UInt8 → Prop} (h : ∀ n : Fin 256, p (UInt8.ofNat n)) (b : UInt8) : p b := by
  simpa using h ⟨b.toNat, b.toNat_lt⟩

/-- Nothing in a text is, but for case, one of some letters. -/
def Lacks (letters : List UInt8) (s : Bytes) : Prop := ∀ b ∈ s, lower b ∉ letters

namespace Lacks

variable {letters : List UInt8} {s t : Bytes} {b : UInt8}

theorem nil : Lacks letters [] := nofun

theorem append (hs : Lacks letters s) (ht : Lacks letters t) : Lacks letters (s ++ t) :=
  List.forall_mem_append.mpr ⟨hs, ht⟩

theorem cons (hb : lower b ∉ letters) (hs : Lacks letters s) : Lacks letters (b :: s) :=
  List.forall_mem_cons.mpr ⟨hb, hs⟩

theorem mono {fewer : List UInt8} (hs : Lacks letters s) (hsub : fewer ⊆ letters) :
    Lacks fewer s :=
  fun b hb hmem => hs b hb (hsub hmem)

theorem any_eq_false {p : UInt8 → Bool} (hp : ∀ b, p b = true → lower b ∈ letters)
    (hs : Lacks letters s) : s.any p = false := by
  rw [List.any_eq_false]
  exact fun b hb hpb => hs b hb (hp b hpb)

end Lacks

/-- Decimal digits are no letters of numbers. -/
theorem Digits.lacks {s : Bytes} (h : Digits isDecimal s) :
    Lacks [0x2E, 0x65, 0x69, 0x70, 0x78] s := by
  intro b hb
  have hbyte : ∀ b : UInt8, isDecimal b = true ∨ b = 0x5F →
      lower b ∉ [0x2E, 0x65, 0x69, 0x70, 0x78] :=
    forall_byte (by decide +kernel)
  exact hbyte b (h b hb)

/-- Hexadecimal digits are not the letters that hexadecimal numbers have besides. -/
theorem Digits.lacks_of_isHex {s : Bytes} (h : Digits isHex s) : Lacks [0x2E, 0x69, 0x70, 0x78] s := by
  intro b hb
  have hbyte : ∀ b : UInt8, isHex b = true ∨ b = 0x5F → lower b ∉ [0x2E, 0x69, 0x70, 0x78] :=
    forall_byte (by decide +kernel)
  exact hbyte b (h b hb)

theorem Fraction.lacks {isDigit : UInt8 → Bool} {letters : List UInt8} {f : Bytes}
    (hdigits : ∀ s, Digits isDigit s → Lacks letters s) (hpoint : lower 0x2E ∉ letters)
    (h : Fraction isDigit f) : Lacks letters f := by
  cases h with
  | nil => exact .nil
  | point hs => exact .cons hpoint (hdigits _ hs)

theorem Exponent.lacks {letter : UInt8} {e : Bytes} (hletter : letter ∉ [0x69, 0x78])
    (h : Exponent letter e) : Lacks [0x69, 0x78] e := by
  obtain ⟨rfl, hsign, hs⟩ := h
  have hsigns : ∀ sign ∈ ([[], [0x2B], [0x2D]] : List Bytes), ∀ b ∈ sign,
      lower b ∉ [0x69, 0x78] := by
    decide +kernel
  exact .cons hletter (.append (hsigns _ hsign) (hs.lacks.mono (by decide)))

theorem Exponent.ne_nil {letter : UInt8} {e : Bytes} (h : Exponent letter e) : e ≠ [] := by
  cases h
  exact List.cons_ne_nil _ _

/-- Where there is an exponent there is its letter. -/
theorem Exponent.any_eq_true {letter : UInt8} {e : Bytes} {p : UInt8 → Bool}
    (hp : ∀ b, lower b = letter → p b = true) (h : Exponent letter e) : e.any p = true := by
  obtain ⟨hb, _, _⟩ := h
  rw [List.any_cons, hp _ hb, Bool.true_or]

/-! ### The guess -/

/-- The kind of a number without an `i` depends on the mark of a hexadecimal one. -/
theorem literalKind_number {s : Bytes} (hi : Lacks [0x69] s) :
    literalKind .number s =
      if Bytes.startsWith s (utf8 "0x") || Bytes.startsWith s (utf8 "0X") then
        if s.any fun b => b == 0x70 || b == 0x50 then .float else .int
      else if s.any fun b => b == 0x2E || b == 0x65 || b == 0x45 then .float else .int := by
  rw [literalKind]
  refine if_neg fun hlast => ?_
  exact hi 0x69 (List.mem_of_getLast? (beq_iff_eq.mp hlast)) (by decide)

theorem literalKind_hex {b : UInt8} {s : Bytes} (hb : lower b = 0x78) (hi : Lacks [0x69] s) :
    literalKind .number (0x30 :: b :: s)
      = if s.any fun b => b == 0x70 || b == 0x50 then .float else .int := by
  have hcases : b = 0x78 ∨ b = 0x58 := by
    revert hb
    exact forall_byte (p := fun b => lower b = 0x78 → b = 0x78 ∨ b = 0x58) (by decide +kernel) b
  have hlacks : Lacks [0x69] (0x30 :: b :: s) := .cons (by decide) (.cons (by rw [hb]; decide) hi)
  rw [literalKind_number hlacks]
  rcases hcases with rfl | rfl <;> rfl

theorem literalKind_decimal {s : Bytes} (h : Lacks [0x69, 0x78] s) :
    literalKind .number s
      = if s.any fun b => b == 0x2E || b == 0x65 || b == 0x45 then .float else .int := by
  rw [literalKind_number (h.mono (by decide))]
  refine if_neg ?_
  -- the mark would be the second letter
  have hmark {c : UInt8} (hc : lower c = 0x78) : Bytes.startsWith s [0x30, c] = false := by
    rw [Bytes.startsWith, Bool.eq_false_iff]
    intro hprefix
    obtain ⟨t, rfl⟩ := List.isPrefixOf_iff_prefix.mp hprefix
    exact h c (by simp) (by rw [hc]; decide)
  rw [Bool.not_eq_true, Bool.or_eq_false_iff]
  exact ⟨hmark (by decide), hmark (by decide)⟩

/-- The kind of a number is guessed from its spelling. -/
theorem literalKind_of_numeral {k : LiteralKind} {s : Bytes} (h : Numeral k s) :
    literalKind .number s = k := by
  cases h with
  | decimal hs =>
    rw [literalKind_decimal (hs.lacks.mono (by decide)),
      hs.lacks.any_eq_false (forall_byte (by decide +kernel))]
    rfl
  | @based b s hb hs =>
    have hmark : lower b ∉ [0x2E, 0x65, 0x69, 0x70, 0x78] := by
      rcases hb with hb | hb <;> rw [hb] <;> decide
    have hlacks : Lacks [0x2E, 0x65, 0x69, 0x70, 0x78] (0x30 :: b :: s) :=
      .cons (by decide) (.cons hmark hs.lacks)
    rw [literalKind_decimal (hlacks.mono (by decide)),
      hlacks.any_eq_false (forall_byte (by decide +kernel))]
    rfl
  | hex hb hs =>
    rw [literalKind_hex hb (hs.lacks_of_isHex.mono (by decide)),
      hs.lacks_of_isHex.any_eq_false (forall_byte (by decide +kernel))]
    rfl
  | @float s f e hs hf he hne =>
    have hlacks : Lacks [0x69, 0x78] (s ++ (f ++ e)) := by
      refine .append (hs.lacks.mono (by decide)) (.append ?_ ?_)
      · exact hf.lacks (fun s hs => hs.lacks.mono (by decide)) (by decide)
      · rcases he with rfl | he
        · exact .nil
        · exact he.lacks (by decide)
    have hmarked : ((s ++ (f ++ e)).any fun b => b == 0x2E || b == 0x65 || b == 0x45) = true := by
      rw [List.any_append, List.any_append, Bool.or_eq_true, Bool.or_eq_true]
      right
      cases hf with
      | point => exact .inl rfl
      | nil =>
        rcases he with rfl | he
        · exact absurd rfl hne
        · exact .inr (he.any_eq_true (forall_byte (by decide +kernel)))
    rw [literalKind_decimal hlacks, if_pos hmarked]
  | @hexFloat b s f e hb hs hf he =>
    have hlacks : Lacks [0x69] (s ++ (f ++ e)) := by
      refine .append (hs.lacks_of_isHex.mono (by decide)) (.append ?_ ?_)
      · exact hf.lacks (fun s hs => hs.lacks_of_isHex.mono (by decide)) (by decide)
      · exact (he.lacks (by decide)).mono (by decide)
    have hmarked : ((s ++ (f ++ e)).any fun b => b == 0x70 || b == 0x50) = true := by
      rw [List.any_append, List.any_append, he.any_eq_true (forall_byte (by decide +kernel)),
        Bool.or_true, Bool.or_true]
    rw [literalKind_hex hb hlacks, if_pos hmarked]

theorem Numeral.kind_cases {k : LiteralKind} {s : Bytes} (h : Numeral k s) :
    k = .int ∨ k = .float := by
  cases h with
  | decimal | based | hex => exact .inl rfl
  | float | hexFloat => exact .inr rfl

/-- The kind of a literal is guessed from its spelling. -/
theorem literalKind_of_spelling {k : LiteralKind} {s : Bytes} (h : Spelling k s) :
    literalKind (if k = .text || k = .char then .text else .number) s = k := by
  cases h with
  | number h =>
    have hnumber : (if k = .text || k = .char then LiteralType.text else .number) = .number := by
      rcases h.kind_cases with rfl | rfl <;> rfl
    rw [hnumber, literalKind_of_numeral h]
  | imaginary h => simp [literalKind]
  | char s => rfl
  | text s => rfl
  | raw s => rfl

/-! ### What the scanner takes for literals -/

/-- The digits of numbers with some mark of their base. -/
def digitOf (hex : Bool) : UInt8 → Bool := if hex then isHex else isDecimal

theorem digits_digitRun (hex : Bool) (s : Bytes) : Digits (digitOf hex) (digitRun hex s) := by
  intro b hb
  have hdigit := List.all_eq_true.mp (List.all_takeWhile (l := s)) b hb
  rw [Bool.or_eq_true, beq_iff_eq] at hdigit
  cases hex with
  | true => exact hdigit
  | false => exact hdigit

theorem fraction_fractionRun (hex : Bool) (s : Bytes) :
    Fraction (digitOf hex) (fractionRun hex s) := by
  rw [fractionRun.eq_def]
  split
  · exact .point (digits_digitRun hex _)
  · exact .nil

theorem digitRun_isPrefix (hex : Bool) (s : Bytes) : digitRun hex s <+: s := List.takeWhile_prefix _

theorem fractionRun_isPrefix (hex : Bool) (s : Bytes) : fractionRun hex s <+: s := by
  rw [fractionRun.eq_def]
  split
  · exact List.prefix_cons_inj _ |>.mpr (digitRun_isPrefix hex _)
  · exact List.nil_prefix

/-- What a text goes on with is taken as a whole. -/
theorem take_add_of_isPrefix {k : Nat} {s t : Bytes} (h : t <+: s.drop k) :
    s.take (k + t.length) = s.take k ++ t := by
  rw [List.take_add, ← List.prefix_iff_eq_take.mp h]

theorem take_signLength (s : Bytes) : s.take (signLength s) ∈ [[], [0x2B], [0x2D]] := by
  rw [signLength]
  cases s with
  | nil => decide
  | cons b s =>
    rw [List.head?_cons]
    split
    · rename_i hsign
      rw [Bool.or_eq_true, beq_iff_eq, beq_iff_eq] at hsign
      rcases hsign with h | h <;> cases h <;> simp
    · simp

/-- The exponent behind a letter. -/
theorem exponent_take {letter b : UInt8} (hb : lower b = letter) (s : Bytes) :
    Exponent letter ((b :: s).take
      (1 + signLength s + (digitRun false ((b :: s).drop (1 + signLength s))).length)) := by
  rw [take_add_of_isPrefix (digitRun_isPrefix false _), Nat.add_comm, List.take_succ_cons,
    List.drop_succ_cons]
  exact .mk hb (take_signLength s) (digits_digitRun false _)

/-- Numbers without a mark of their base may have an exponent behind an `e`, and hexadecimal ones
have one behind a `p` if they have a point. -/
theorem exponent_of_exponentLength? {mark : Option UInt8} {pointed : Bool} {s : Bytes} {n : Nat}
    (h : exponentLength? mark pointed s = some n) :
    n = 0 ∧ (mark = some 0x78 → pointed = false) ∨ n ≠ 0 ∧
      (mark = none ∧ Exponent 0x65 (s.take n) ∨ mark = some 0x78 ∧ Exponent 0x70 (s.take n)) := by
  rw [exponentLength?.eq_def] at h
  dsimp only at h
  split at h
  · rename_i hletter
    cases s with
    | nil => cases hletter
    | cons b rest =>
      simp only [List.head?_cons, Option.map_some, Bool.or_eq_true, Bool.and_eq_true, beq_iff_eq,
        Option.some.injEq, bne_iff_ne, List.drop_one, List.tail_cons] at hletter h
      split at h
      · cases h
      split at h
      · cases h
      split at h
      · cases h
      rename_i he hp _
      cases h
      refine .inr ⟨by omega, ?_⟩
      rcases hletter with hb | hb
      · refine .inl ⟨?_, exponent_take hb rest⟩
        simpa [hb] using he
      · refine .inr ⟨?_, exponent_take hb rest⟩
        simpa [hb] using hp
  · split at h
    · cases h
    · rename_i hneeded
      cases h
      refine .inl ⟨rfl, ?_⟩
      rintro rfl
      simpa using hneeded

theorem baseMark_cases (s : Bytes) : baseMark s = none ∨ ∃ b t, s = 0x30 :: b :: t ∧
    baseMark s = some (lower b) ∧ (lower b = 0x78 ∨ lower b = 0x6F ∨ lower b = 0x62) := by
  rw [baseMark.eq_def]
  split
  · rename_i b t
    split
    · rename_i hmark
      simp only [Bool.or_eq_true, beq_iff_eq, or_assoc] at hmark
      exact .inr ⟨b, t, rfl, rfl, hmark⟩
    · exact .inl rfl
  · exact .inl rfl

/-- A number without an `i` behind it, by its parts. -/
theorem numeral_of_parts {front whole fraction s : Bytes} {exponent : Nat} {mark : Option UInt8}
    (hfront : mark = none ∧ front = [] ∨ ∃ b, mark = some (lower b) ∧ front = [0x30, b] ∧
      (lower b = 0x78 ∨ lower b = 0x6F ∨ lower b = 0x62))
    (hwhole : Digits (digitOf (mark == some 0x78)) whole)
    (hfraction : Fraction (digitOf (mark == some 0x78)) fraction)
    (hpoint : ¬(!fraction.isEmpty && (mark == some 0x6F || mark == some 0x62)) = true)
    (hexponent : exponentLength? mark (!fraction.isEmpty) s = some exponent) :
    Numeral (if fraction = [] ∧ exponent = 0 then .int else .float)
      (front ++ (whole ++ (fraction ++ s.take exponent))) := by
  rcases hfront with ⟨rfl, rfl⟩ | ⟨b, rfl, rfl, hb⟩
  · -- a decimal number
    rw [List.nil_append]
    obtain ⟨rfl, _⟩ | ⟨hne, ⟨_, he⟩ | ⟨hnone, _⟩⟩ := exponent_of_exponentLength? hexponent
    · rw [List.take_zero]
      by_cases hf : fraction = []
      · rw [if_pos ⟨hf, rfl⟩, hf, List.append_nil, List.append_nil]
        exact .decimal hwhole
      · rw [if_neg fun h => hf h.1]
        exact .float hwhole hfraction (.inl rfl) (by simpa using hf)
    · rw [if_neg fun h => hne h.2]
      exact .float hwhole hfraction (.inr he) (by simp [he.ne_nil])
    · cases hnone
  · change Numeral _ (0x30 :: b :: (whole ++ (fraction ++ s.take exponent)))
    obtain ⟨rfl, hpointed⟩ | ⟨hne, ⟨hnone, _⟩ | ⟨hmark, he⟩⟩ := exponent_of_exponentLength? hexponent
    · -- an integer with a mark of its base
      have hint (hf : fraction = []) (h : Numeral .int (0x30 :: b :: whole)) :
          Numeral (if fraction = [] ∧ 0 = 0 then .int else .float)
            (0x30 :: b :: (whole ++ (fraction ++ s.take 0))) := by
        rwa [if_pos ⟨hf, rfl⟩, hf, List.take_zero, List.append_nil, List.append_nil]
      rcases hb with hb | hb
      · rw [hb] at hwhole hpointed
        exact hint (by simpa using hpointed rfl) (.hex hb hwhole)
      · have hother : (some (lower b) == some 0x78) = false := by
          rcases hb with hb | hb <;> rw [hb] <;> rfl
        rw [hother] at hwhole
        exact hint (by rcases hb with hb | hb <;> simpa [hb] using hpoint) (.based hb hwhole)
    · cases hnone
    · rw [if_neg fun h => hne h.2]
      rw [hmark] at hwhole hfraction
      exact .hexFloat (Option.some.inj hmark) hwhole hfraction he

/-- What the scanner takes for a number is spelled like one. -/
theorem spelling_of_number? {s : Bytes} {k : LiteralKind} {n : Nat}
    (h : number? s = some (k, n)) : Spelling k (s.take n) := by
  unfold number? at h
  extract_lets mark hex start whole fraction pointed mantissa at h
  have hfront : mark = none ∧ s.take start = [] ∨ ∃ b, mark = some (lower b) ∧
      s.take start = [0x30, b] ∧ (lower b = 0x78 ∨ lower b = 0x6F ∨ lower b = 0x62) := by
    rcases baseMark_cases s with hmark | ⟨b, t, rfl, hmark, hb⟩
    · exact .inl ⟨hmark, by simp [start, mark, hmark]⟩
    · exact .inr ⟨b, hmark, by simp [start, mark, hmark], hb⟩
  have hwhole : Digits (digitOf hex) whole := digits_digitRun hex _
  have hfraction : Fraction (digitOf hex) fraction := fraction_fractionRun hex _
  split at h
  · cases h
  rename_i hpoint
  split at h
  · cases h
  split at h
  · cases h
  rename_i exponent hexponent
  have hnumeral := numeral_of_parts hfront hwhole hfraction hpoint hexponent
  have htake : s.take (mantissa + exponent)
      = s.take start ++ (whole ++ (fraction ++ (s.drop mantissa).take exponent)) := by
    rw [List.take_add, take_add_of_isPrefix (fractionRun_isPrefix hex _),
      take_add_of_isPrefix (digitRun_isPrefix hex _), List.append_assoc, List.append_assoc]
  rw [← htake] at hnumeral
  extract_lets body imaginary length isInt at h
  split at h
  · cases h
  split at h
  · cases h
  obtain ⟨rfl, rfl⟩ := Prod.mk.inj (Option.some.inj h)
  cases himaginary : imaginary with
  | true =>
    have hletter : s[body]? = some 0x69 := by
      rw [← List.head?_drop]
      exact beq_iff_eq.mp himaginary
    have hlast : s.take length = s.take body ++ [0x69] := by
      simp only [length, himaginary, if_true, List.take_add_one, hletter, Option.toList_some]
    rw [if_pos rfl, hlast]
    exact .imaginary hnumeral
  | false =>
    have hlast : length = body := by simp [length, himaginary]
    have hkind : (if isInt = true then LiteralKind.int else .float)
        = if fraction = [] ∧ exponent = 0 then .int else .float := by
      simp [isInt, himaginary, pointed]
    rw [if_neg Bool.false_ne_true, hlast, hkind]
    exact .number hnumeral

end RelaxArith.Host
