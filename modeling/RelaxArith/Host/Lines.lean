/-
Lines of a source, and comments in groups.

The table of lines holds the offset at which each line starts.  Taking a line end out of the
table joins two lines without touching the text: that is how a gap left by a deleted line is
closed.

A comment may say that what follows it stands in some other file.  Only positions that are shown
to someone obey: neither the grouping of comments nor the layout of text does.
-/
import RelaxArith.Host.Lexeme
import RelaxArith.Text.Path

namespace RelaxArith.Host

/-- From an offset on, the source is said to stand in some file, on some line and in some column.
Column zero is an unknown one. -/
structure LineMark where
  offset : Nat
  file : Bytes
  line : Int
  column : Int
deriving DecidableEq, Repr, Inhabited

/-- The offsets at which lines start, in order, and what is said about lines. -/
structure Lines where
  starts : List Nat
  /-- The name of the file. -/
  file : Bytes := []
  /-- What comments say about lines, in order. -/
  marks : List LineMark := []
deriving DecidableEq, Repr, Inhabited

/-- A place as it is shown. Lines before the first are no places, and column zero is an unknown
one. -/
structure Position where
  file : Bytes
  line : Int
  column : Int
deriving DecidableEq, Repr, Inhabited

/-- A position in words: the file, and the line and the column as far as they are known. -/
def Position.text (p : Position) : Bytes :=
  let column := if p.column = 0 then [] else utf8 ":" ++ Bytes.integer p.column
  if 0 < p.line then
    (if p.file.isEmpty then [] else p.file ++ utf8 ":") ++ Bytes.integer p.line ++ column
  else if p.file.isEmpty then utf8 "-"
  else p.file

namespace Lines

/-- The offsets behind line ends that are not the very end, counted from an offset on. -/
def startsFrom (offset : Nat) : Bytes → List Nat
  | [] => []
  | b :: bs =>
    if b = 0x0A && !bs.isEmpty then (offset + 1) :: startsFrom (offset + 1) bs
    else startsFrom (offset + 1) bs

/-- The lines of a source. -/
def ofSource (s : Bytes) : Lines := { starts := 0 :: startsFrom 0 s }

/-- The number of lines. -/
def count (l : Lines) : Nat := l.starts.length

/-- How many of some ascending starts are before a position, and the last of these, counted on
from others before them. -/
def startsBefore (pos : Nat) : List Nat → (count last : Nat) → Nat × Nat
  | [], count, last => (count, last)
  | s :: ss, count, last =>
    if s < pos then startsBefore pos ss (count + 1) s else (count, last)

/-- The line of a position; no position is on line zero. -/
def line (l : Lines) (pos : Nat) : Nat :=
  if pos = 0 then 0 else (startsBefore pos l.starts 0 0).1

/-- The column of a position, counted in bytes from one. -/
def column (l : Lines) (pos : Nat) : Nat :=
  if pos = 0 then 0 else pos - (startsBefore pos l.starts 0 0).2

/-- The position at which a line starts. -/
def startOf (l : Lines) (line : Nat) : Nat := (l.starts.getD (line - 1) 0) + 1

/-- Joins a line with the one behind it. -/
def merge (l : Lines) (line : Nat) : Lines := { l with starts := l.starts.eraseIdx line }

/-- Why a line cannot be joined with the one behind it. -/
inductive MergeFault where
  /-- It is before the first one. -/
  | below (line : Int)
  /-- None is behind it. -/
  | beyond (line : Int) (count : Nat)
deriving DecidableEq, Repr

/-- The wording of a fault. -/
def MergeFault.message : MergeFault → Bytes
  | .below line => utf8 "invalid line number " ++ Bytes.integer line ++ utf8 " (should be >= 1)"
  | .beyond line count =>
    utf8 "invalid line number " ++ Bytes.integer line ++ utf8 " (should be < " ++
      Bytes.decimal count ++ utf8 ")"

/-- Joins a line that may not exist with the one behind it. -/
def merge? (l : Lines) (line : Int) : Except MergeFault Lines :=
  if line < 1 then .error (.below line)
  else if l.count ≤ line.toNat then .error (.beyond line l.count)
  else .ok (l.merge line.toNat)

/-- A position as it is shown: the last mark before it counts. A column is known behind a mark
that tells one; on later lines it is the true one. -/
def position (l : Lines) (pos : Nat) : Position :=
  if pos = 0 then ⟨[], 0, 0⟩
  else
    match (l.marks.takeWhile fun m => m.offset < pos).getLast? with
    | none => ⟨l.file, l.line pos, l.column pos⟩
    | some m =>
      let distance := l.line pos - l.line (m.offset + 1)
      let column : Int :=
        if m.column = 0 then 0
        else if distance = 0 then m.column + (pos - 1 - m.offset : Nat)
        else l.column pos
      ⟨m.file, m.line + distance, column⟩

/-! ### Comments about lines -/

/-- The part of a text behind its last colon, and the part before it. -/
def behindColon? (s : Bytes) : Option (Bytes × Bytes) := Bytes.splitLast? 0x3A s

/-- One more than the largest number of 64 bits. -/
def wordLimit : Nat := 0x10000000000000000

/-- The number that digits spell, if it is one of 64 bits; the upper half of these counts as
negative. -/
def number? (s : Bytes) : Option Int :=
  if s.isEmpty || !s.all Lex.isDecimal then none
  else ((Lex.digitsValue? 10 s).filter (· < wordLimit)).map fun n => Int.bmod n wordLimit

/-- The largest number of a line or a column. -/
def mostLines : Int := 0x40000000

/-- Is a number taken for one of a line or a column? -/
def isCount (n : Int) : Bool := n != 0 && n ≤ mostLines

/-- What a comment says about lines. -/
inductive Remark where
  /-- Nothing. -/
  | none
  /-- Something that cannot be right. -/
  | wrong
  /-- The file, as written, the line and perhaps the column of what follows. -/
  | place (file : Bytes) (line : Int) (column : Option Int)
deriving DecidableEq, Repr

/-- Reads `file:line` or `file:line:column`. -/
def Remark.ofText (s : Bytes) : Remark :=
  match behindColon? s with
  | .none => .none
  | .some (before, last) =>
    match number? last with
    | .none => .wrong
    | .some n =>
      match (behindColon? before).bind fun (file, line) => (number? line).map fun m => (file, m) with
      | .some (file, m) => if isCount n && isCount m then .place file m (some n) else .wrong
      | .none => if isCount n then .place before n .none else .wrong

/-- What a comment, as it stands in the source at some position, says about lines. One that ends
with its line has to begin it, too; a carriage return at its end is not part of it. -/
def Remark.ofComment (l : Lines) (pos : Nat) (raw : Bytes) : Remark :=
  match Bytes.dropPrefix? (utf8 "//line ") raw with
  | some text =>
    let text := if text.getLast? == some 0x0D then text.dropLast else text
    if l.column pos = 1 then Remark.ofText text else .none
  | .none =>
    match Bytes.dropPrefix? (utf8 "/*line ") raw with
    | some text => Remark.ofText (text.take (text.length - 2))
    | .none => .none

/-- The file that a remark means: one without a name is the file before if a column is told; a
relative one is in the folder of the source. -/
def fileOf (l : Lines) (file : Bytes) (column : Option Int) (pos : Nat) : Bytes :=
  if file.isEmpty then if column.isSome then (l.position pos).file else []
  else
    let file := Path.clean file
    if Path.isRooted file then file else Path.within (Path.folder l.file) file

/-- Adds what the comments of a source of some size say about lines, unless one of them is
wrong. A mark behind the end says nothing. -/
def withRemarks (size : Nat) : List Item → Lines → Option Lines
  | [], l => some l
  | .lexeme _ :: items, l => withRemarks size items l
  | .comment c raw :: items, l =>
    match Remark.ofComment l c.pos raw with
    | .wrong => none
    | .none => withRemarks size items l
    | .place file line column =>
      let behind := if raw[1]? == some 0x2F then c.pos + raw.length else c.pos - 1 + raw.length
      let mark : LineMark := ⟨behind, l.fileOf file column (c.pos + 7), line, column.getD 0⟩
      withRemarks size items (if behind < size then { l with marks := l.marks ++ [mark] } else l)

end Lines

/-- Comments on adjacent lines with nothing between them. -/
abbrev CommentGroup := List Comment

namespace CommentGroup

/-- The position of the first comment of a group. -/
def pos (g : CommentGroup) : Nat := (g.head?.map Comment.pos).getD 0

/-- The position behind the last comment of a group. -/
def stop (g : CommentGroup) : Nat := (g.getLast?.map fun c => c.pos + c.text.length).getD 0

end CommentGroup

/-- A source as the grammar sees it: the lexemes, the comments in groups, and for the position of
a lexeme the group that documents it and the group that stands behind the lexeme before it. -/
structure Material where
  lines : Lines
  lexemes : List Lexeme := []
  comments : List CommentGroup := []
  docs : List (Nat × Nat) := []
  trailing : List (Nat × Nat) := []
deriving Inhabited

namespace Material

/-- A group of comments that is being collected: its last line, and whether it stands on the line
of the lexeme before it. -/
structure Gathering where
  group : CommentGroup
  last : Nat
  onLine : Bool
deriving Inhabited

/-- The line of a position. -/
def line (m : Material) (pos : Nat) : Nat := m.lines.line pos

/-- Does a lexeme end the line of a group of comments that stands behind another lexeme? -/
def endsLine (m : Material) (g : Gathering) (l : Lexeme) : Bool :=
  l.kind = .finish || l.text == utf8 ";" || m.line l.pos != g.last

/-- Closes a group before a lexeme. `behind` is an earlier group on the line of the last one. -/
def closeBefore (m : Material) (g : Gathering) (behind : Option Nat) (l : Lexeme) : Material :=
  let index := m.comments.length
  let trailing := if g.onLine && m.endsLine g l then some index else behind
  let docs := if !g.onLine && g.last + 1 = m.line l.pos then some index else none
  { m with
    comments := g.group :: m.comments
    trailing := (trailing.map fun i => (l.pos, i)).toList ++ m.trailing
    docs := (docs.map fun i => (l.pos, i)).toList ++ m.docs }

/-- Reads items from left to right. `previous` is the line of the last lexeme, and `behind` the
group of comments on that line, if it is complete. -/
def gather : List Item → (previous : Nat) → (behind : Option Nat) → Option Gathering → Material →
    Material
  | [], _, _, group, m =>
    let last := (group.map Gathering.group).toList
    { m with lexemes := m.lexemes.reverse, comments := (last ++ m.comments).reverse }
  | .comment c _ :: rest, previous, behind, group, m =>
    let first := m.line c.pos
    let breaks := if c.text[1]? == some 0x2A then (c.text.filter (· == 0x0A)).length else 0
    match group with
    | some g =>
      -- a comment behind a lexeme on its line only goes on with one on the same line
      let reach := if g.onLine then g.last else g.last + 1
      if first ≤ reach then
        let g := { g with group := g.group ++ [c], last := first + breaks }
        gather rest previous behind (some g) m
      else
        let behind := if g.onLine then some m.comments.length else behind
        gather rest previous behind (some ⟨[c], first + breaks, false⟩)
          { m with comments := g.group :: m.comments }
    | none => gather rest previous behind (some ⟨[c], first + breaks, first == previous⟩) m
  | .lexeme l :: rest, _, behind, group, m =>
    let m := match group with
      | some g => m.closeBefore g behind l
      | none => m
    gather rest (m.line l.pos) none none { m with lexemes := l :: m.lexemes }

/-- The lexemes and comments of a source in a file of some name. -/
def ofSource (file s : Bytes) : Option Material := do
  let items ← Lex.items s
  let lines ← Lines.withRemarks s.length items { Lines.ofSource s with file := file }
  pure (gather items 0 none none { lines := lines })

/-- The index of the group that documents the lexeme at a position. -/
def doc? (m : Material) (pos : Nat) : Option Nat := m.docs.lookup pos

/-- The index of the group behind the lexeme before the one at a position. -/
def trailing? (m : Material) (pos : Nat) : Option Nat := m.trailing.lookup pos

end Material
end RelaxArith.Host
