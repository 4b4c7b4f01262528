/-
What is printed: text without marks of colour, and messages behind a sign.

Colours are never shown.  Marks of colour are names in angle brackets, which an empty mark with a
slash closes; they count only if there is such a mark.  Taking marks away may leave new ones.  Text
passes several stages on its way to the output, and each of them takes marks away once, so marks
that are nested deeper than there are stages come out.

A message begins with a sign that says what it is about; further lines of it are indented by the
width of the sign.  Line ends at the end of a message do not count, except that they make one
empty line.
-/
import RelaxArith.Text

namespace RelaxArith.Shell

namespace Colour

/-- Is a byte part of the name of a colour? -/
def isNameByte (b : UInt8) : Bool :=
  (0x61 ≤ b && b ≤ 0x7A) || (0x41 ≤ b && b ≤ 0x5A) ||
    b == 0x5F || b == 0x3D || b == 0x2C || b == 0x3B

/-- The length of a mark behind its opening bracket. -/
def markLength? (s : Bytes) : Option Nat :=
  let slash := if s.head? == some 0x2F then 1 else 0
  let name := (s.drop slash).takeWhile isNameByte
  if (s.drop (slash + name.length)).head? == some 0x3E then some (slash + name.length + 1)
  else none

/-- The length of a code for terminals behind its escape character. -/
def codeLength? (s : Bytes) : Option Nat :=
  let numbers := (s.drop 1).takeWhile fun b => (0x30 ≤ b && b ≤ 0x39) || b == 0x3B || b == 0x3F
  if s.head? == some 0x5B && !numbers.isEmpty && (s.drop (1 + numbers.length)).head? == some 0x6D
  then some (numbers.length + 2)
  else none

/-- A text without all that begins with a byte and has a length behind it. -/
def without (start : UInt8) (length? : Bytes → Option Nat) (s : Bytes) : Bytes :=
  match s with
  | [] => []
  | b :: bs =>
    if b == start then
      match length? bs with
      | some n => without start length? (bs.drop n)
      | none => b :: without start length? bs
    else b :: without start length? bs
termination_by s.length

/-- Is some mark closed in a text? -/
def isMarked (s : Bytes) : Bool := (Bytes.splitAt? (utf8 "</>") s).isSome

/-- A text without marks, if some mark is closed in it. -/
def unmark (s : Bytes) : Bytes := if isMarked s then without 0x3C markLength? s else s

/-- A text from which marks are taken away so often. -/
def unmarkTimes (n : Nat) (s : Bytes) : Bytes := Nat.repeat unmark n s

/-- A piece of text in a style: without marks, and line by line without codes for terminals. -/
def styled (s : Bytes) : Bytes := without 0x1B codeLength? (unmark s)

/-- How often marks are taken away from printed text. -/
def printStages : Nat := 4

/-- Text as it is printed. -/
def print (s : Bytes) : Bytes := unmarkTimes printStages s

/-- Text as it is printed with a line end behind it. -/
def printLine (s : Bytes) : Bytes := print (unmark (s ++ [0x0A]))

end Colour

/-- What stands in front of a message. -/
structure Sign where
  text : Bytes
deriving DecidableEq, Repr

namespace Sign

/-- Results. -/
def info : Sign := ⟨utf8 "   >>  "⟩

/-- Failures in a session. -/
def error : Sign := ⟨utf8 "   Error  "⟩

/-- Failures with files. -/
def fileError : Sign := ⟨utf8 "  ERROR   "⟩

/-- Files that have been dealt with. -/
def success : Sign := ⟨utf8 " SUCCESS  "⟩

/-- A text without line ends at its end. -/
def dropBreaks (s : Bytes) : Bytes := (s.reverse.dropWhile (· == 0x0A)).reverse

/-- A message behind the sign. -/
def compose (s : Sign) (message : Bytes) : Bytes :=
  let margin := List.replicate s.text.length 0x20
  let message := Colour.unmark message
  let lines := (Bytes.splitOnByte 0x0A (dropBreaks message)).map Colour.styled
  let empty : Bytes := if message.getLast? == some 0x0A then [0x0A] else []
  s.text ++ Bytes.join (0x0A :: margin) lines ++ empty

/-- A message as it is printed. -/
def print (s : Sign) (message : Bytes) : Bytes := Colour.printLine (s.compose message)

/-- A report as it is printed: a message that was put together before, and ends its line. -/
def report (s : Sign) (message : Bytes) : Bytes :=
  Colour.print (s.compose (Colour.unmark (message ++ [0x0A])))

end Sign
end RelaxArith.Shell
