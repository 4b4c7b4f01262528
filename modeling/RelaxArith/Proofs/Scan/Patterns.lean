/-
The token patterns, and that tokens are the longest matches of them.

The patterns are declared here as languages, in the way that one writes regular expressions: bytes
of a range, literals, one behind the other, one or the other, optional and repeated.  Nothing in
them says how to match.

What ties the automaton to them is the language of what may still follow in a state (`behind`).
A byte leads from one state to another exactly if it leads from the one language to the other, so
the automaton accepts a text as blank space or as a token exactly if a pattern of that kind has it
(`declared_iff_run`).  A run ends in one state only; hence no text is in patterns of two kinds, and
the order of the patterns is of no importance.

The longest match is then the longest accepted beginning, and scanning hands out nothing else: a
token at a place is the longest match there, and there is a report only where nothing matches.
-/
import RelaxArith.Proofs.Scan.Engine
import Mathlib.Computability.Language

namespace RelaxArith

open Automaton
open scoped Computability

/-! ### Patterns -/

namespace Pattern

/-- One byte of a kind. -/
def byte (p : UInt8 → Bool) : Language UInt8 := {w | ∃ b, p b = true ∧ w = [b]}

/-- One byte of a range. -/
def range (lo hi : UInt8) : Language UInt8 := byte fun b => lo ≤ b && b ≤ hi

/-- A text as it stands. -/
def literal (text : String) : Language UInt8 := {utf8 text}

/-- Once or several times. -/
def atLeastOnce (l : Language UInt8) : Language UInt8 := l * l∗

/-- Once or not at all. -/
def atMostOnce (l : Language UInt8) : Language UInt8 := 1 + l

/-- Letters, and the underscore. -/
def letter : Language UInt8 := range 0x61 0x7A + range 0x41 0x5A + literal "_"

def digit : Language UInt8 := range 0x30 0x39

/-- What a name may go on with. -/
def word : Language UInt8 := range 0x61 0x7A + range 0x41 0x5A + digit + literal "_"

def blanks : Language UInt8 :=
  atLeastOnce (literal " " + literal "\t" + literal "\n" + literal "\r")

def invocation : Language UInt8 := literal "#" * letter * word∗

/-- Names, with names behind dots. -/
def name : Language UInt8 := letter * word∗ * (literal "." * letter * word∗)∗

def fraction : Language UInt8 := literal "." * atLeastOnce digit

def exponent : Language UInt8 :=
  (literal "e" + literal "E") * atMostOnce (literal "+" + literal "-") * atLeastOnce digit

/-- Numbers, with a fraction and an exponent or without. -/
def number : Language UInt8 := atLeastOnce digit * atMostOnce fraction * atMostOnce exponent

/-- Anything between quotes. -/
def text : Language UInt8 := literal "\"" * (byte (· != 0x22))∗ * literal "\""

def operators : List String :=
  ["+=", "-=", "*=", "/=", "%=", "==", "!=", "<=", ">=", "&&", "||",
    "+", "-", "*", "/", "%", "=", "<", ">", "!"]

def punctuation : List String := ["(", ")", "[", "]", ",", ":"]

end Pattern

/-- A pattern: what its matches are, and which texts they are. -/
structure Pattern where
  what : Automaton.Class
  language : Language UInt8

/-- The patterns of blank space and of the tokens. -/
def patterns : List Pattern :=
  [⟨.blank, Pattern.blanks⟩,
    ⟨.token .invocation, Pattern.invocation⟩,
    ⟨.token .name, Pattern.name⟩,
    ⟨.token .number, Pattern.number⟩,
    ⟨.token .text, Pattern.text⟩]
  ++ Pattern.operators.map (fun o => ⟨.token .operator, Pattern.literal o⟩)
  ++ Pattern.punctuation.map (fun o => ⟨.token .punctuation, Pattern.literal o⟩)

/-- A text is in the language of a pattern of some kind. -/
def Declared (what : Automaton.Class) (w : Bytes) : Prop :=
  ∃ p ∈ patterns, p.what = what ∧ w ∈ p.language

/-! ### The first byte of a match -/

namespace Pattern

variable {p q : UInt8 → Bool} {b : UInt8} {w : Bytes} {l m : Language UInt8}

theorem byte_add : byte p + byte q = byte fun b => p b || q b := by
  ext w
  rw [Language.mem_add]
  constructor
  · rintro (⟨b, hb, rfl⟩ | ⟨b, hb, rfl⟩)
    · exact ⟨b, by simp [hb], rfl⟩
    · exact ⟨b, by simp [hb], rfl⟩
  · rintro ⟨b, hb, rfl⟩
    rcases Bool.or_eq_true_iff.mp hb with hb | hb
    · exact .inl ⟨b, hb, rfl⟩
    · exact .inr ⟨b, hb, rfl⟩

theorem literal_eq_byte {text : String} {a : UInt8} (h : utf8 text = [a]) :
    literal text = byte (· == a) := by
  ext w
  constructor
  · intro hw
    exact ⟨a, by simp, (show w = utf8 text from hw).trans h⟩
  · rintro ⟨b, hb, rfl⟩
    obtain rfl : b = a := by simpa using hb
    exact h.symm

theorem nil_mem_byte : [] ∉ byte p := by
  rintro ⟨b, -, hb⟩
  cases hb

theorem cons_mem_byte : b :: w ∈ byte p ↔ p b = true ∧ w = [] := by
  constructor
  · rintro ⟨a, ha, heq⟩
    cases heq
    exact ⟨ha, rfl⟩
  · rintro ⟨hb, rfl⟩
    exact ⟨b, hb, rfl⟩

theorem nil_mem_mul : [] ∈ l * m ↔ [] ∈ l ∧ [] ∈ m := by
  rw [Language.mem_mul]
  constructor
  · rintro ⟨u, hu, v, hv, heq⟩
    obtain ⟨rfl, rfl⟩ := List.append_eq_nil_iff.mp heq
    exact ⟨hu, hv⟩
  · rintro ⟨hl, hm⟩
    exact ⟨[], hl, [], hm, rfl⟩

theorem cons_mem_byte_mul : b :: w ∈ byte p * l ↔ p b = true ∧ w ∈ l := by
  rw [Language.mem_mul]
  constructor
  · rintro ⟨u, ⟨a, ha, rfl⟩, v, hv, heq⟩
    cases heq
    exact ⟨ha, hv⟩
  · rintro ⟨hb, hw⟩
    exact ⟨[b], ⟨b, hb, rfl⟩, w, hw, rfl⟩

theorem mem_star_iff : w ∈ l∗ ↔ w = [] ∨ w ∈ l * l∗ := by
  rw [← Language.mem_one, ← Language.mem_add, Language.one_add_self_mul_kstar_eq_kstar]

theorem mem_star_mul_iff : w ∈ l∗ * m ↔ w ∈ m ∨ w ∈ l * (l∗ * m) := by
  conv_lhs => rw [← Language.one_add_self_mul_kstar_eq_kstar l, add_mul, one_mul, mul_assoc]
  exact Language.mem_add _ _ _

theorem cons_mem_byte_star : b :: w ∈ (byte p)∗ ↔ p b = true ∧ w ∈ (byte p)∗ := by
  rw [mem_star_iff, cons_mem_byte_mul]
  simp

theorem cons_mem_byte_star_mul :
    b :: w ∈ (byte p)∗ * l ↔ (p b = true ∧ w ∈ (byte p)∗ * l) ∨ b :: w ∈ l := by
  rw [mem_star_mul_iff, cons_mem_byte_mul, or_comm]

/-- A repetition of what begins with a byte of a kind. -/
theorem cons_mem_byte_mul_star :
    b :: w ∈ (byte p * l)∗ ↔ p b = true ∧ w ∈ l * (byte p * l)∗ := by
  rw [mem_star_iff, mul_assoc, cons_mem_byte_mul]
  simp

/-! ### The bytes that the automaton goes by -/

theorem letter_eq : letter = byte isLetter := by
  rw [letter, literal_eq_byte (a := 0x5F) (by decide), range, range, byte_add, byte_add]
  rfl

theorem digit_eq : digit = byte isDigit := rfl

theorem word_eq : word = byte isWord := by
  rw [word, literal_eq_byte (a := 0x5F) (by decide), range, range, digit_eq, byte_add, byte_add,
    byte_add]
  congr 1
  funext b
  simp only [isWord, isLetter]
  ac_rfl

theorem blanks_eq : blanks = byte isBlank * (byte isBlank)∗ := by
  rw [blanks, atLeastOnce, literal_eq_byte (a := 0x20) (by decide),
    literal_eq_byte (a := 0x09) (by decide), literal_eq_byte (a := 0x0A) (by decide),
    literal_eq_byte (a := 0x0D) (by decide), byte_add, byte_add, byte_add]
  rfl

theorem exponentMark_eq : literal "e" + literal "E" = byte isExponentMark := by
  rw [literal_eq_byte (a := 0x65) (by decide), literal_eq_byte (a := 0x45) (by decide), byte_add]
  rfl

theorem sign_eq : literal "+" + literal "-" = byte fun b => b == 0x2B || b == 0x2D := by
  rw [literal_eq_byte (a := 0x2B) (by decide), literal_eq_byte (a := 0x2D) (by decide), byte_add]

end Pattern

namespace Automaton

open Pattern

/-- What an accepted text is if the run through it gets to a state, apart from the start. -/
def State.kind? : State → Option Class
  | .start => none
  | .blank => some .blank
  | .hash | .invocation => some (.token .invocation)
  | .name | .dot => some (.token .name)
  | .whole | .point | .fraction | .exponentMark | .exponentSign | .exponent => some (.token .number)
  | .openText | .closedText => some (.token .text)
  | .operator | .longOperator | .ampersand | .bar => some (.token .operator)
  | .punctuation => some (.token .punctuation)

/-- Digits, at least one. -/
def digits : Language UInt8 := byte isDigit * (byte isDigit)∗

/-- A sign or none, and the digits of an exponent. -/
def signedDigits : Language UInt8 := digits + (byte fun b => b == 0x2B || b == 0x2D) * digits

/-- Nothing, or an exponent. -/
def exponentPart : Language UInt8 := 1 + byte isExponentMark * signedDigits

/-- Names behind dots. -/
def qualified : Language UInt8 := (byte (· == 0x2E) * (byte isLetter * (byte isWord)∗))∗

/-- What may follow in a state to make an accepted text. At the start this is not said here, since
it depends on what the text is to be. -/
def State.behind : State → Language UInt8
  | .start => 0
  | .blank => (byte isBlank)∗
  | .hash => byte isLetter * (byte isWord)∗
  | .invocation => (byte isWord)∗
  | .name => (byte isWord)∗ * qualified
  | .dot => byte isLetter * ((byte isWord)∗ * qualified)
  | .whole => (byte isDigit)∗ * (exponentPart + byte (· == 0x2E) * (digits * exponentPart))
  | .point => digits * exponentPart
  | .fraction => (byte isDigit)∗ * exponentPart
  | .exponentMark => signedDigits
  | .exponentSign => digits
  | .exponent => (byte isDigit)∗
  | .openText => (byte (· != 0x22))∗ * byte (· == 0x22)
  | .closedText => 1
  | .operator => 1 + byte (· == 0x3D)
  | .longOperator => 1
  | .ampersand => byte (· == 0x26)
  | .bar => byte (· == 0x7C)
  | .punctuation => 1

theorem nil_mem_behind {q : State} : [] ∈ q.behind ↔ q.class?.isSome = true := by
  cases q <;>
    simp only [State.behind, State.class?, exponentPart, signedDigits, digits, qualified,
      nil_mem_mul, nil_mem_byte, Language.mem_add, Language.mem_one, Language.nil_mem_kstar] <;>
    simp

section Leads

variable {P : State → Prop} {q : State} {o : Option State} {c : Prop} [Decidable c]

theorem leads_ite : (∃ q', (if c then some q else o) = some q' ∧ P q') ↔
    (c ∧ P q) ∨ (¬ c ∧ ∃ q', o = some q' ∧ P q') := by
  by_cases hc : c <;> simp [hc]

theorem leads_none : (∃ q', none = some q' ∧ P q') ↔ False := by
  simp

end Leads

/-- Where a state can be left in several ways, it is by different bytes. -/
theorem dot_apart {b : UInt8} (h : (b == 0x2E) = true) :
    isWord b = false ∧ isDigit b = false ∧ isExponentMark b = false := by
  obtain rfl : b = 0x2E := by simpa using h
  decide

theorem digit_apart {b : UInt8} (h : isDigit b = true) :
    isExponentMark b = false ∧ (b == 0x2B || b == 0x2D) = false := by
  grind [isDigit, isExponentMark]

theorem cons_mem_behind {q : State} (hq : q ≠ .start) {b : UInt8} {w : Bytes} :
    b :: w ∈ q.behind ↔ ∃ q', q.next b = some q' ∧ w ∈ q'.behind := by
  have hdot := @dot_apart b
  have hdigit := @digit_apart b
  cases q
  case start => exact absurd rfl hq
  all_goals
    simp only [State.next, leads_ite, leads_none]
    simp only [State.behind, exponentPart, signedDigits, digits, qualified, Language.mem_add,
      Language.mem_one, cons_mem_byte, cons_mem_byte_mul, cons_mem_byte_star, mul_assoc,
      cons_mem_byte_star_mul, cons_mem_byte_mul_star]
  case name | whole | fraction | exponentMark => grind
  all_goals simp
  case openText => exact or_comm

/-! ### What a text is -/

theorem kind_of_next {q q' : State} {b : UInt8} (hq : q ≠ .start) (h : q.next b = some q') :
    q' ≠ .start ∧ q'.kind? = q.kind? := by
  cases q <;> grind [State.next, State.kind?]

/-- Behind the start, the texts that a run accepts are those that may follow. -/
theorem mem_behind_iff {q : State} (hq : q ≠ .start) {w : Bytes} {c : Class} :
    (q.kind? = some c ∧ w ∈ q.behind) ↔ ∃ q', run q w = some q' ∧ q'.class? = some c := by
  induction w generalizing q with
  | nil =>
    rw [nil_mem_behind]
    simp only [run, Option.some.injEq, exists_eq_left']
    cases q <;> simp [State.kind?, State.class?]
  | cons b w ih =>
    rw [cons_mem_behind hq]
    cases hnext : q.next b with
    | none => simp [run, hnext]
    | some q₁ =>
      obtain ⟨hq₁, hkind⟩ := kind_of_next hq hnext
      have hrest := ih hq₁
      rw [hkind] at hrest
      simp only [run, hnext, Option.bind_some, Option.some.injEq, exists_eq_left']
      exact hrest

/-- The first bytes that lead to a state. -/
def State.opens (q : State) (b : UInt8) : Bool :=
  match q with
  | .blank => isBlank b
  | .hash => b == 0x23
  | .name => isLetter b
  | .whole => isDigit b
  | .openText => b == 0x22
  | .operator => isOperatorByte b
  | .ampersand => b == 0x26
  | .bar => b == 0x7C
  | .punctuation => isPunctuation b
  | _ => false

theorem next_start_iff {b : UInt8} {q : State} :
    State.start.next b = some q ↔ q.opens b = true := by
  constructor
  · intro h
    simp only [State.next] at h
    repeat' split at h
    all_goals cases h
    all_goals assumption
  · intro h
    cases q with
    | blank => exact if_pos h
    | hash | openText | ampersand | bar =>
      obtain rfl := beq_iff_eq.mp h
      rfl
    | name =>
      have hapart : isBlank b = false ∧ (b == 0x23) = false := by
        grind [State.opens, isBlank, isLetter]
      simp [State.next, hapart, show isLetter b = true from h]
    | whole =>
      have hapart : isBlank b = false ∧ (b == 0x23) = false ∧ isLetter b = false := by
        grind [State.opens, isBlank, isLetter, isDigit]
      simp [State.next, hapart, show isDigit b = true from h]
    | operator =>
      simp only [State.opens, isOperatorByte, Bool.or_eq_true, beq_iff_eq, or_assoc] at h
      rcases h with rfl | rfl | rfl | rfl | rfl | rfl | rfl | rfl | rfl <;> rfl
    | punctuation =>
      simp only [State.opens, isPunctuation, Bool.or_eq_true, beq_iff_eq, or_assoc] at h
      rcases h with rfl | rfl | rfl | rfl | rfl | rfl <;> rfl
    | _ => cases h

section First

variable {b : UInt8} {w : Bytes}

theorem cons_mem_blanks : b :: w ∈ blanks ↔ isBlank b = true ∧ w ∈ State.blank.behind := by
  rw [blanks_eq, cons_mem_byte_mul]
  rfl

theorem cons_mem_invocation :
    b :: w ∈ invocation ↔ (b == 0x23) = true ∧ w ∈ State.hash.behind := by
  rw [invocation, literal_eq_byte (a := 0x23) (by decide), letter_eq, word_eq, mul_assoc,
    cons_mem_byte_mul]
  rfl

theorem cons_mem_name : b :: w ∈ name ↔ isLetter b = true ∧ w ∈ State.name.behind := by
  rw [name, literal_eq_byte (a := 0x2E) (by decide), letter_eq, word_eq, mul_assoc, mul_assoc,
    cons_mem_byte_mul]
  rfl

theorem cons_mem_text : b :: w ∈ text ↔ (b == 0x22) = true ∧ w ∈ State.openText.behind := by
  rw [text, literal_eq_byte (a := 0x22) (by decide), mul_assoc, cons_mem_byte_mul]
  rfl

theorem cons_mem_number : b :: w ∈ number ↔ isDigit b = true ∧ w ∈ State.whole.behind := by
  have hexponent : atMostOnce exponent = exponentPart := by
    rw [atMostOnce, exponent, exponentMark_eq, sign_eq, digit_eq, atMostOnce, atLeastOnce,
      mul_assoc, add_mul, one_mul]
    rfl
  rw [number, hexponent, fraction, literal_eq_byte (a := 0x2E) (by decide), digit_eq, atLeastOnce,
    atMostOnce, mul_assoc, mul_assoc, cons_mem_byte_mul, add_mul, one_mul, mul_assoc]
  rfl

theorem mem_literals_iff {texts : List String} :
    (∃ o ∈ texts, w ∈ literal o) ↔ w ∈ texts.map utf8 := by
  rw [List.mem_map]
  constructor
  · rintro ⟨o, ho, hw⟩
    exact ⟨o, ho, (show w = utf8 o from hw).symm⟩
  · rintro ⟨o, ho, hw⟩
    exact ⟨o, ho, hw.symm⟩

theorem cons_mem_operators : (∃ o ∈ operators, b :: w ∈ literal o) ↔
    (isOperatorByte b = true ∧ w ∈ State.operator.behind) ∨
      ((b == 0x26) = true ∧ w ∈ State.ampersand.behind) ∨
      ((b == 0x7C) = true ∧ w ∈ State.bar.behind) := by
  have hbytes : operators.map utf8 = [[0x2B, 0x3D], [0x2D, 0x3D], [0x2A, 0x3D], [0x2F, 0x3D],
      [0x25, 0x3D], [0x3D, 0x3D], [0x21, 0x3D], [0x3C, 0x3D], [0x3E, 0x3D], [0x26, 0x26],
      [0x7C, 0x7C], [0x2B], [0x2D], [0x2A], [0x2F], [0x25], [0x3D], [0x3C], [0x3E], [0x21]] := by
    decide
  have hsingle : ∀ a : UInt8, w ∈ byte (· == a) ↔ w = [a] := by
    intro a
    cases w with
    | nil => simp [nil_mem_byte]
    | cons c w => simp [cons_mem_byte]
  rw [mem_literals_iff, hbytes]
  simp only [State.behind, Language.mem_add, Language.mem_one, hsingle, isOperatorByte,
    List.mem_cons, List.cons.injEq, List.not_mem_nil, or_false, Bool.or_eq_true, beq_iff_eq]
  grind

theorem cons_mem_punctuation : (∃ o ∈ punctuation, b :: w ∈ literal o) ↔
    isPunctuation b = true ∧ w ∈ State.punctuation.behind := by
  have hbytes : punctuation.map utf8 = [[0x28], [0x29], [0x5B], [0x5D], [0x2C], [0x3A]] := by
    decide
  rw [mem_literals_iff, hbytes]
  simp only [State.behind, Language.mem_one, isPunctuation, List.mem_cons, List.cons.injEq,
    List.not_mem_nil, or_false, Bool.or_eq_true, beq_iff_eq]
  grind

end First

theorem nil_mem_literal {text : String} : [] ∈ literal text ↔ utf8 text = [] := eq_comm

/-- No pattern has the empty text. -/
theorem not_declared_nil (what : Class) : ¬ Declared what [] := by
  rintro ⟨p, hp, -, hmem⟩
  simp only [patterns, List.mem_append, List.mem_map, List.mem_cons, List.not_mem_nil,
    or_false] at hp
  rcases hp with ((rfl | rfl | rfl | rfl | rfl) | ⟨o, ho, rfl⟩) | ⟨o, ho, rfl⟩
  · simp [blanks_eq, nil_mem_mul, nil_mem_byte] at hmem
  · simp [invocation, letter_eq, nil_mem_mul, nil_mem_byte] at hmem
  · simp [name, letter_eq, nil_mem_mul, nil_mem_byte] at hmem
  · simp [number, digit_eq, atLeastOnce, nil_mem_mul, nil_mem_byte] at hmem
  · rw [text, nil_mem_mul, nil_mem_literal] at hmem
    exact absurd hmem.2 (by decide)
  · have hfull : ∀ o ∈ operators, utf8 o ≠ [] := by decide
    exact hfull o ho (nil_mem_literal.mp hmem)
  · have hfull : ∀ o ∈ punctuation, utf8 o ≠ [] := by decide
    exact hfull o ho (nil_mem_literal.mp hmem)

theorem declared_operator {w : Bytes} (h : ∃ o ∈ operators, w ∈ literal o) :
    Declared (.token .operator) w := by
  obtain ⟨o, ho, hw⟩ := h
  refine ⟨⟨_, literal o⟩, ?_, rfl, hw⟩
  exact List.mem_append_left _ (List.mem_append_right _ (List.mem_map.mpr ⟨o, ho, rfl⟩))

theorem declared_punctuation {w : Bytes} (h : ∃ o ∈ punctuation, w ∈ literal o) :
    Declared (.token .punctuation) w := by
  obtain ⟨o, ho, hw⟩ := h
  exact ⟨⟨_, literal o⟩, List.mem_append_right _ (List.mem_map.mpr ⟨o, ho, rfl⟩), rfl, hw⟩

/-- The first byte of a match leads to a state, and the rest is what may follow there. -/
theorem declared_cons {what : Class} {b : UInt8} {w : Bytes} : Declared what (b :: w) ↔
    ∃ q : State, q.opens b = true ∧ q.kind? = some what ∧ w ∈ q.behind := by
  constructor
  · rintro ⟨p, hp, rfl, hmem⟩
    simp only [patterns, List.mem_append, List.mem_map, List.mem_cons, List.not_mem_nil,
      or_false] at hp
    rcases hp with ((rfl | rfl | rfl | rfl | rfl) | ⟨o, ho, rfl⟩) | ⟨o, ho, rfl⟩
    · exact ⟨.blank, (cons_mem_blanks.mp hmem).1, rfl, (cons_mem_blanks.mp hmem).2⟩
    · exact ⟨.hash, (cons_mem_invocation.mp hmem).1, rfl, (cons_mem_invocation.mp hmem).2⟩
    · exact ⟨.name, (cons_mem_name.mp hmem).1, rfl, (cons_mem_name.mp hmem).2⟩
    · exact ⟨.whole, (cons_mem_number.mp hmem).1, rfl, (cons_mem_number.mp hmem).2⟩
    · exact ⟨.openText, (cons_mem_text.mp hmem).1, rfl, (cons_mem_text.mp hmem).2⟩
    · rcases cons_mem_operators.mp ⟨o, ho, hmem⟩ with ⟨hb, hw⟩ | ⟨hb, hw⟩ | ⟨hb, hw⟩
      · exact ⟨.operator, hb, rfl, hw⟩
      · exact ⟨.ampersand, hb, rfl, hw⟩
      · exact ⟨.bar, hb, rfl, hw⟩
    · obtain ⟨hb, hw⟩ := cons_mem_punctuation.mp ⟨o, ho, hmem⟩
      exact ⟨.punctuation, hb, rfl, hw⟩
  · rintro ⟨q, hb, hkind, hw⟩
    cases q with
    | blank =>
      cases hkind
      exact ⟨⟨.blank, blanks⟩, by simp [patterns], rfl, cons_mem_blanks.mpr ⟨hb, hw⟩⟩
    | hash =>
      cases hkind
      exact ⟨⟨_, invocation⟩, by simp [patterns], rfl, cons_mem_invocation.mpr ⟨hb, hw⟩⟩
    | name =>
      cases hkind
      exact ⟨⟨_, name⟩, by simp [patterns], rfl, cons_mem_name.mpr ⟨hb, hw⟩⟩
    | whole =>
      cases hkind
      exact ⟨⟨_, number⟩, by simp [patterns], rfl, cons_mem_number.mpr ⟨hb, hw⟩⟩
    | openText =>
      cases hkind
      exact ⟨⟨_, text⟩, by simp [patterns], rfl, cons_mem_text.mpr ⟨hb, hw⟩⟩
    | operator =>
      cases hkind
      exact declared_operator (cons_mem_operators.mpr (.inl ⟨hb, hw⟩))
    | ampersand =>
      cases hkind
      exact declared_operator (cons_mem_operators.mpr (.inr (.inl ⟨hb, hw⟩)))
    | bar =>
      cases hkind
      exact declared_operator (cons_mem_operators.mpr (.inr (.inr ⟨hb, hw⟩)))
    | punctuation =>
      cases hkind
      exact declared_punctuation (cons_mem_punctuation.mpr ⟨hb, hw⟩)
    | _ => cases hb

/-- The automaton accepts what the patterns have. -/
theorem declared_iff_run {what : Class} {w : Bytes} :
    Declared what w ↔ ∃ q, run .start w = some q ∧ q.class? = some what := by
  cases w with
  | nil =>
    refine iff_of_false (not_declared_nil what) ?_
    rintro ⟨q, hrun, hclass⟩
    cases hrun
    cases hclass
  | cons b w =>
    simp only [declared_cons, ← next_start_iff, run]
    constructor
    · rintro ⟨q, hnext, hmem⟩
      have hq : q ≠ .start := by
        rintro rfl
        cases hmem.1
      rw [hnext]
      exact (mem_behind_iff hq).mp hmem
    · rintro ⟨q', hrun, hclass⟩
      obtain ⟨q, hnext, hrun⟩ := Option.bind_eq_some_iff.mp hrun
      have hq : q ≠ .start := by
        rintro rfl
        cases next_start_iff.mp hnext
      exact ⟨q, hnext, (mem_behind_iff hq).mpr ⟨q', hrun, hclass⟩⟩

/-- A text is in patterns of one kind only. -/
theorem declared_unique {what what' : Class} {w : Bytes} (h : Declared what w)
    (h' : Declared what' w) : what = what' := by
  obtain ⟨q, hrun, hclass⟩ := declared_iff_run.mp h
  obtain ⟨q', hrun', hclass'⟩ := declared_iff_run.mp h'
  rw [hrun] at hrun'
  cases hrun'
  rw [hclass] at hclass'
  exact Option.some.inj hclass'

end Automaton

/-! ### The longest match -/

/-- The longest beginning of a text that is in the language of a pattern, and what it is. -/
def LongestMatch (s : Bytes) (what : Automaton.Class) (w : Bytes) : Prop :=
  w ≠ [] ∧ w <+: s ∧ Declared what w ∧
    ∀ what' w', w' <+: s → Declared what' w' → w'.length ≤ w.length

theorem longestMatch_of_longest {s : Bytes} {what : Automaton.Class} {n : Nat}
    (h : longest .start s = some (what, n)) : LongestMatch s what (s.take n) := by
  obtain ⟨hle, hrun⟩ := run_of_longest h
  have hlength : (s.take n).length = n := List.length_take_of_le hle
  refine ⟨?_, List.take_prefix n s, declared_iff_run.mpr hrun, ?_⟩
  · have hpos := longest_start_pos h
    intro hnil
    rw [hnil] at hlength
    rw [← hlength] at hpos
    exact Nat.lt_irrefl 0 hpos
  · rintro what' w' ⟨v, rfl⟩ hdeclared
    obtain ⟨q, hrun', hclass⟩ := declared_iff_run.mp hdeclared
    obtain ⟨c, m, hlong, hle'⟩ := le_longest_of_run (v := v) hrun' hclass
    rw [h] at hlong
    cases hlong
    rwa [hlength]

/-- Behind `2.5` an exponent has begun, but there is none. -/
example : longest .start (utf8 "2.5e+ 1") = some (.token .number, 3) := by decide

theorem not_declared_of_longest {s : Bytes} (h : longest .start s = none)
    (what : Automaton.Class) (w : Bytes) (hw : w <+: s) : ¬ Declared what w := by
  obtain ⟨v, rfl⟩ := hw
  intro hdeclared
  obtain ⟨q, hrun, hclass⟩ := declared_iff_run.mp hdeclared
  obtain ⟨c, n, hlong, -⟩ := le_longest_of_run (v := v) hrun hclass
  rw [h] at hlong
  cases hlong

/-! ### What scanning hands out -/

namespace Engine

/-- What an engine has answered where an event was come across. -/
def Meets (engine : Engine) (s : Bytes) : ScanEvent → Prop
  | .token t => ∃ n, engine.answer s t.span.lo = .found (.token t.category) n ∧
    t.lexeme = (s.drop t.span.lo).take n
  | .error e => ∃ failed, engine.answer s e.span.lo = .unconsumed failed

variable {s : Bytes}

theorem meets_next (engine : Engine) (offset : Nat) {es : List SyntaxError} {t : Token}
    {offset' : Nat} (h : engine.next s offset = (es, t, offset')) :
    (∀ e ∈ es, engine.Meets s (.error e)) ∧
      (t = Token.endAt s.length ∨ engine.Meets s (.token t)) := by
  fun_induction Engine.next engine s offset generalizing es t offset' with
  | case1 offset hlt n hanswer ih => exact ih h
  | case2 offset hlt c n hanswer =>
    cases h
    exact ⟨by simp, .inr ⟨n, hanswer, rfl⟩⟩
  | case3 offset hlt failed hanswer es t offset' hnext ih =>
    cases h
    obtain ⟨hes, ht⟩ := ih hnext
    exact ⟨List.forall_mem_cons.mpr ⟨⟨failed, hanswer⟩, hes⟩, ht⟩
  | case4 offset hge =>
    cases h
    exact ⟨by simp, .inl rfl⟩

theorem meets_take (engine : Engine) (calls offset : Nat) :
    ∀ event ∈ engine.take s calls offset,
      event = .token (Token.endAt s.length) ∨ engine.Meets s event := by
  induction calls generalizing offset with
  | zero => simp [Engine.take]
  | succ calls ih =>
    obtain ⟨es, t, offset', hnext⟩ : ∃ es t offset',
        engine.next s offset = (es, t, offset') := ⟨_, _, _, rfl⟩
    obtain ⟨hes, ht⟩ := engine.meets_next offset hnext
    intro event hmem
    rw [Engine.take, hnext] at hmem
    rcases List.mem_append.mp hmem with hmem | hmem
    · obtain ⟨e, he, rfl⟩ := List.mem_map.mp hmem
      exact .inr (hes e he)
    · rcases List.mem_cons.mp hmem with rfl | hmem
      · exact ht.imp_left (congrArg ScanEvent.token)
      · exact ih offset' event hmem

end Engine

/-- **Tokens are the longest matches of the patterns.** Whatever a text is, a token that its
scanner hands out, if it is not that of the end, is the longest beginning of what the text goes on
with at its place that a pattern has, and its category is what that pattern is for. A report is
made only where no pattern, that of blank space included, has any beginning of what follows. No
text is in patterns for different things, so that the order of the patterns does not matter. -/
theorem tokens_are_longest_matches (s : Bytes) :
    (∀ calls t, .token t ∈ (Scanner.ofText s).take calls → t = Token.endAt s.length ∨
      LongestMatch (s.drop t.span.lo) (.token t.category) t.lexeme) ∧
    (∀ calls e, .error e ∈ (Scanner.ofText s).take calls →
      ∀ p ∈ patterns, ∀ w, w <+: s.drop e.span.lo → w ∉ p.language) ∧
    ∀ p ∈ patterns, ∀ p' ∈ patterns, ∀ w, w ∈ p.language → w ∈ p'.language → p.what = p'.what := by
  have hmeets : ∀ calls, ∀ event ∈ (Scanner.ofText s).take calls,
      event = .token (Token.endAt s.length) ∨ Engine.automaton.Meets s event := by
    intro calls event hmem
    have hsame : (Scanner.ofText s).take calls = Engine.automaton.take s calls 0 :=
      Engine.take_automaton (Nat.zero_le s.length) calls
    rw [hsame] at hmem
    exact Engine.automaton.meets_take calls 0 event hmem
  refine ⟨?_, ?_, ?_⟩
  · intro calls t hmem
    rcases hmeets calls _ hmem with hend | ⟨n, hanswer, hlexeme⟩
    · exact .inl (ScanEvent.token.inj hend)
    · right
      rw [hlexeme]
      exact longestMatch_of_longest (Engine.automaton.longest_of_found hanswer)
  · intro calls e hmem p hp w hw hlang
    rcases hmeets calls _ hmem with hend | ⟨failed, hanswer⟩
    · cases hend
    · obtain ⟨hnone, -⟩ := Engine.longest_of_unconsumed hanswer
      exact not_declared_of_longest hnone p.what w hw ⟨p, hp, rfl, hlang⟩
  · intro p hp p' hp' w hw hw'
    exact declared_unique ⟨p, hp, rfl, hw⟩ ⟨p', hp', rfl, hw'⟩

end RelaxArith
