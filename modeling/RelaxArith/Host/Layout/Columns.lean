/-
Columns of text.

Laid out text is written with marks for the places at which cells end: a tab ends a cell of
indentation, a vertical tab one that is aligned with the cells above and below it, a line end a
line and a form feed a line and the section.  Cells of adjacent lines that stand in the same
column share the width of the widest; a column of nothing but empty cells vanishes.  A section
also ends behind a line of a single cell, because nothing in it can be aligned with what follows.

Escape bytes enclose text whose tabs and line ends are its own.  They are taken out at the end,
together with blank space before line ends.
-/
import RelaxArith.Text

namespace RelaxArith.Host.Columns

/-- The byte around text that is taken as it is; no well-formed UTF-8 has it. -/
def escape : UInt8 := 0xFF

/-- A cell: its text, and whether it was ended by a tab, so that it is kept even if empty. -/
structure Cell where
  text : Bytes
  hard : Bool
deriving DecidableEq, Repr, Inhabited

namespace Cell

/-- The number of characters of a cell, apart from escapes. -/
def width (c : Cell) : Nat :=
  (c.text.filter fun b => b != escape && !(0x80 ≤ b && b < 0xC0)).length

end Cell

/-- A line: its cells, and the unfinished one at its end. -/
abbrev Line := List Cell

/-! ### Cutting text into sections -/

/-- A section of lines; `open?` says whether it ended inside of a line. -/
structure Section where
  lines : List Line
  isLast : Bool
deriving Repr

/-- Reads text byte by byte. `cell` holds the bytes of the current cell and `line` the cells of
the current line, both last first; `lines` holds the lines of the section, the last first. -/
def sections (escaped : Bool) (cell : Bytes) (line : Line) (lines : List Line) :
    Bytes → List Section
  | [] =>
    let line := if cell.isEmpty then line else ⟨cell.reverse, false⟩ :: line
    [⟨(line.reverse :: lines).reverse, true⟩]
  | b :: bs =>
    if b == escape then sections (!escaped) (b :: cell) line lines bs
    else if escaped then sections escaped (b :: cell) line lines bs
    else if b == 0x09 || b == 0x0B then
      sections escaped [] (⟨cell.reverse, b == 0x09⟩ :: line) lines bs
    else if b == 0x0A || b == 0x0C then
      let lines := ((⟨cell.reverse, false⟩ :: line).reverse) :: lines
      if b == 0x0C || line.isEmpty then
        ⟨lines.reverse, false⟩ :: sections escaped [] [] [] bs
      else sections escaped [] [] lines bs
    else sections escaped (b :: cell) line lines bs

/-! ### Widths -/

/-- The least number of blanks between columns. -/
def padding : Nat := 1

/-- The width of a tab. -/
def tabWidth : Nat := 8

/-- The width of a column, given its cells. -/
def columnWidth (cells : List Cell) : Nat :=
  if cells.all fun c => c.width = 0 && !c.hard then 0
  else cells.foldl (fun w c => max w (c.width + padding)) 0

/-- Blanks behind a cell; leading empty cells are filled with tabs. -/
def fill (leading : Bool) (cell column : Nat) : Bytes :=
  if leading then
    let column := (column + tabWidth - 1) / tabWidth * tabWidth
    List.replicate ((column - cell + tabWidth - 1) / tabWidth) 0x09
  else List.replicate (column - cell) 0x20

/-- A line in columns of known widths. -/
def renderLine (leading : Bool) : List Nat → Line → Bytes
  | _, [] => []
  | [], c :: cs => c.text ++ renderLine leading [] cs
  | w :: ws, c :: cs =>
    let leading := leading && c.text.isEmpty
    c.text ++ fill leading c.width w ++ renderLine leading ws cs

/-- Does a line have a cell in a column that is not its last? -/
def reaches (column : Nat) (line : Line) : Bool := column + 1 < line.length

/-- The lines of a section, given the widths of the columns to the left. `depth` bounds the
number of columns. -/
def renderLines : (depth : Nat) → (widths : List Nat) → List Line → List Bytes
  | 0, widths, lines => lines.map (renderLine true widths)
  | depth + 1, widths, lines =>
    let column := widths.length
    (lines.splitBy fun a b => reaches column a == reaches column b).flatMap fun block =>
      if (block.head?.map (reaches column)).getD false then
        let width := columnWidth (block.filterMap fun cells => cells[column]?)
        renderLines depth (widths ++ [width]) block
      else block.map (renderLine true widths)

/-- A section as text. -/
def Section.render (s : Section) : Bytes :=
  let depth := (s.lines.map List.length).foldl max 0
  let lines := renderLines depth [] s.lines
  Bytes.join [0x0A] lines ++ (if s.isLast then [] else [0x0A])

/-- Text with its cells aligned. -/
def align (s : Bytes) : Bytes := (sections false [] [] [] s).flatMap Section.render

/-! ### Blank space at line ends -/

/-- Takes out escapes and blank space before line ends. `space` is the blank space just read, the
last first. -/
def trimLines (escaped : Bool) (space : Bytes) : Bytes → Bytes
  | [] => []
  | b :: bs =>
    if escaped then
      if b == escape then trimLines false [] bs else b :: trimLines true [] bs
    else if b == escape then space.reverse ++ trimLines true [] bs
    else if b == 0x09 || b == 0x0B then trimLines false (0x09 :: space) bs
    else if b == 0x20 then trimLines false (0x20 :: space) bs
    else if b == 0x0A || b == 0x0C then 0x0A :: trimLines false [] bs
    else space.reverse ++ b :: trimLines false [] bs

end RelaxArith.Host.Columns
