/-
The automaton of the token patterns.

One state per way to go on: a state says which bytes may follow and whether what was read so far
is a token (or blank space).  Two things are read off a run of the automaton: the longest
accepted beginning of a text, and how far the run gets before no pattern can go on.
-/
import RelaxArith.Token

namespace RelaxArith.Automaton

/-- Letters that a name may begin with. -/
def isLetter (b : UInt8) : Bool :=
  (0x61 ≤ b && b ≤ 0x7A) || (0x41 ≤ b && b ≤ 0x5A) || b == 0x5F

/-- Decimal digits. -/
def isDigit (b : UInt8) : Bool := 0x30 ≤ b && b ≤ 0x39

/-- Bytes that a name may go on with. -/
def isWord (b : UInt8) : Bool := isLetter b || isDigit b

/-- Blanks, tabs and line ends. -/
def isBlank (b : UInt8) : Bool := b == 0x20 || b == 0x09 || b == 0x0A || b == 0x0D

/-- Operators of one byte, each of which also is an operator with an equals sign behind it. -/
def isOperatorByte (b : UInt8) : Bool :=
  b == 0x2B || b == 0x2D || b == 0x2A || b == 0x2F || b == 0x25 || b == 0x3D || b == 0x3C ||
    b == 0x3E || b == 0x21

/-- Punctuation marks. -/
def isPunctuation (b : UInt8) : Bool :=
  b == 0x28 || b == 0x29 || b == 0x5B || b == 0x5D || b == 0x2C || b == 0x3A

/-- The marks of an exponent. -/
def isExponentMark (b : UInt8) : Bool := b == 0x65 || b == 0x45

/-- What has been read so far. -/
inductive State where
  | start
  | blank
  /-- A hash sign. -/
  | hash
  /-- A hash sign and a name. -/
  | invocation
  /-- A name, possibly qualified. -/
  | name
  /-- A name and a dot. -/
  | dot
  /-- The digits before a decimal point. -/
  | whole
  /-- Digits and a decimal point. -/
  | point
  /-- Digits behind a decimal point. -/
  | fraction
  /-- An exponent mark. -/
  | exponentMark
  /-- An exponent mark and a sign. -/
  | exponentSign
  /-- The digits of an exponent. -/
  | exponent
  /-- A text without its closing quote. -/
  | openText
  /-- A text. -/
  | closedText
  /-- An operator that an equals sign may follow. -/
  | operator
  /-- An operator that nothing may follow. -/
  | longOperator
  /-- The first half of the conjunction. -/
  | ampersand
  /-- The first half of the disjunction. -/
  | bar
  | punctuation
deriving DecidableEq, Repr

/-- What an accepted text is: blank space, or a token of some category. -/
inductive Class where
  | blank
  | token (category : Category)
deriving DecidableEq, Repr

/-- What a text that leads to a state is, if it is anything. -/
def State.class? : State → Option Class
  | .blank => some .blank
  | .invocation => some (.token .invocation)
  | .name => some (.token .name)
  | .whole | .fraction | .exponent => some (.token .number)
  | .closedText => some (.token .text)
  | .operator | .longOperator => some (.token .operator)
  | .punctuation => some (.token .punctuation)
  | _ => none

/-- The state after one more byte, if some pattern can go on with it. -/
def State.next (q : State) (b : UInt8) : Option State :=
  match q with
  | .start =>
    if isBlank b then some .blank
    else if b == 0x23 then some .hash
    else if isLetter b then some .name
    else if isDigit b then some .whole
    else if b == 0x22 then some .openText
    else if isOperatorByte b then some .operator
    else if b == 0x26 then some .ampersand
    else if b == 0x7C then some .bar
    else if isPunctuation b then some .punctuation
    else none
  | .blank => if isBlank b then some .blank else none
  | .hash => if isLetter b then some .invocation else none
  | .invocation => if isWord b then some .invocation else none
  | .name => if isWord b then some .name else if b == 0x2E then some .dot else none
  | .dot => if isLetter b then some .name else none
  | .whole =>
    if isDigit b then some .whole
    else if b == 0x2E then some .point
    else if isExponentMark b then some .exponentMark
    else none
  | .point => if isDigit b then some .fraction else none
  | .fraction =>
    if isDigit b then some .fraction
    else if isExponentMark b then some .exponentMark
    else none
  | .exponentMark =>
    if isDigit b then some .exponent
    else if b == 0x2B || b == 0x2D then some .exponentSign
    else none
  | .exponentSign => if isDigit b then some .exponent else none
  | .exponent => if isDigit b then some .exponent else none
  | .openText => if b == 0x22 then some .closedText else some .openText
  | .closedText => none
  | .operator => if b == 0x3D then some .longOperator else none
  | .longOperator => none
  | .ampersand => if b == 0x26 then some .longOperator else none
  | .bar => if b == 0x7C then some .longOperator else none
  | .punctuation => none

/-- The longest accepted beginning of a text: what it is, and its length. -/
def longest (q : State) : Bytes → Option (Class × Nat)
  | [] => q.class?.map fun c => (c, 0)
  | b :: bs =>
    match (q.next b).bind fun q' => longest q' bs with
    | some (c, n) => some (c, n + 1)
    | none => q.class?.map fun c => (c, 0)

/-- The number of bytes up to and including the one that no pattern can go on with, or up to the
end of the text. -/
def reach (q : State) : Bytes → Nat
  | [] => 0
  | b :: bs =>
    match q.next b with
    | some q' => reach q' bs + 1
    | none => 1

end RelaxArith.Automaton
