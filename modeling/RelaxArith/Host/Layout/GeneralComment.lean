/-
General comments of several lines.

When such a comment is indented anew, the white space that its lines begin with in common goes,
so that what is inside keeps its shape.  A column of stars at the left margin of the comment is
part of that shape.
-/
import RelaxArith.Text

namespace RelaxArith.Host.GeneralComment

/-- Is a byte a blank or a control character? -/
def isSpace (b : UInt8) : Bool := b ≤ 0x20

/-- Has a line nothing but white space? -/
def isBlank (s : Bytes) : Bool := s.all isSpace

/-- The longest common beginning of two lines that has only white space and stars. -/
def commonMargin : Bytes → Bytes → Bytes
  | a :: as, b :: bs => if a = b && (isSpace a || a == 0x2A) then a :: commonMargin as bs else []
  | _, _ => []

/-- A text without a given end. -/
def dropEnd (tail s : Bytes) : Bytes :=
  if Bytes.endsWith s tail then s.take (s.length - tail.length) else s

/-- The margin that inner lines have in common; if all of them are blank, that of the last line. -/
def sharedMargin (inner : List Bytes) (last : Bytes) : Bytes :=
  match inner.filter fun l => !isBlank l with
  | [] => commonMargin last last
  | l :: ls => ls.foldl commonMargin (commonMargin l l)

/-- A margin without the blanks that keep text to the right of an opening mark that has nothing
behind it: up to three, or a tab. -/
def withoutIndent (margin : Bytes) : Bytes :=
  let rest := margin.reverse
  let blanks := min 3 (rest.takeWhile (· == 0x20)).length
  let cut := if blanks = 0 && rest.head? == some 0x09 then 1 else blanks
  margin.take (margin.length - cut)

/-- The white space by which text on the first line is to the right of the opening mark. -/
def firstIndent (first : Bytes) : Bytes :=
  let space := (first.drop 2).takeWhile isSpace
  if space.head? == some 0x09 then space else utf8 "  " ++ space

/-- The white space that goes, and whether there is a column of stars, given the first line, the
ones inside and the last. -/
def margin (first : Bytes) (inner : List Bytes) (last : Bytes) : Bytes × Bool :=
  let shared := sharedMargin inner last
  if shared.contains 0x2A then
    (dropEnd (utf8 " ") (shared.takeWhile (· != 0x2A)), true)
  else if isBlank (first.drop 2) then (withoutIndent shared, false)
  else (dropEnd (firstIndent first) shared, false)

/-- Is the closing mark all that a line has? -/
def isClosing (line : Bytes) : Bool := isBlank (line.take (line.length - 2))

/-- The lines of a comment as they are written. `outdented` says whether the comment begins in
the first column but is going to be indented. -/
def lines (outdented : Bool) (text : Bytes) : List Bytes :=
  match Bytes.splitOnByte 0x0A text with
  | [] => []
  | [l] => [l]
  | first :: rest =>
    let rest := if outdented then rest.map (utf8 "   " ++ ·) else rest
    let last := rest.getLastD []
    let inner := rest.dropLast.map fun l => if isBlank l then [] else l
    let (margin, stars) := margin first inner last
    let closing := isClosing last
    let cut := if closing then margin else commonMargin margin last
    let dropMargin (l : Bytes) : Bytes := l.drop cut.length
    let last :=
      if closing then utf8 (if stars then " */" else "*/") else dropMargin last
    first :: inner.map dropMargin ++ [last]

end RelaxArith.Host.GeneralComment
