/-
The page on which Go source is laid out.

Words are written one after the other.  White space is held back until the next word, because
comments may have to go in between: all comments that stand before the position of the next word
in the source are written first, and the pending white space is shared out around them.

A page keeps three places: where the next word stands in the source (`pos`), where the output is
(`out`), and where the last written word ended (`last`).  Line breaks of the source are respected
by comparing lines of the source with `pos`.
-/
import RelaxArith.Host.Layout.BuildLines
import RelaxArith.Host.Layout.Columns
import RelaxArith.Host.Layout.DocComment
import RelaxArith.Host.Layout.GeneralComment
import RelaxArith.Host.Lines

namespace RelaxArith.Host

/-- A place in a text: an offset, and a line and a column counted from one. Line zero is no
place. -/
structure Spot where
  offset : Nat
  line : Nat
  column : Nat
deriving DecidableEq, Repr, Inhabited

/-- The place of a position of the source. -/
def Lines.spot (l : Lines) (pos : Nat) : Spot :=
  if pos = 0 then ⟨0, 0, 0⟩ else ⟨pos - 1, l.line pos, l.column pos⟩

/-- White space between words. -/
inductive Space where
  /-- Pending white space that has been taken back. -/
  | nothing
  | blank
  /-- The end of a cell. -/
  | cell
  | newline
  /-- A line end that also ends the section of aligned lines. -/
  | formfeed
  | indent
  | unindent
deriving DecidableEq, Repr, Inhabited

/-- What was written last, or is about to be. -/
inductive Word where
  | space
  | name
  | literal (kind : LiteralKind)
  | symbol (text : Bytes)
  | finish
deriving DecidableEq, Repr, Inhabited

/-- The state of a page. -/
structure Page where
  /-- The lines of the source. -/
  lines : Lines
  /-- Is the page only there to measure how long something is? -/
  raw : Bool
  /-- Has such a page more than one line, so that there is nothing left to measure? -/
  overfull : Bool := false
  /-- What has been written, the last byte first. -/
  output : Bytes := []
  depth : Nat := 0
  /-- How many composite values are open. -/
  level : Nat := 0
  /-- Are blanks behind general comments left out? -/
  noExtraBlank : Bool := false
  /-- Are line ends behind general comments left out? -/
  noExtraBreak : Bool := false
  /-- Does the alignment end with the current line? -/
  endAlignment : Bool := false
  /-- Would a line end now count as a semicolon? -/
  impliedSemicolon : Bool := false
  lastWord : Word := .space
  /-- The opening bracket written last, if nothing but white space came behind it. -/
  opened : Word := .space
  pending : List Space := []
  pos : Spot := ⟨0, 1, 1⟩
  out : Spot := ⟨0, 1, 1⟩
  last : Spot := ⟨0, 0, 0⟩
  /-- Is the line of the next word asked for? -/
  awaiting : Bool := false
  /-- The lines that were asked for, the last first. -/
  marked : List Nat := []
  /-- The comments that are left. -/
  comments : List CommentGroup := []
  /-- Where lines with build conditions of the newer form begin in the output, the last first. -/
  buildLines : List Nat := []
  /-- Where those of the older form begin. -/
  oldBuildLines : List Nat := []

namespace Page

/-- The most line ends in a row. -/
def mostBreaks : Nat := 2

/-- Farther than any place of a source. -/
def far : Nat := 0x40000000

/-- The most pieces of white space that are held back. -/
def mostPending : Nat := 16

/-! ### Writing -/

/-- Writes the indentation of a line. -/
def writeIndent (p : Page) : Page :=
  { p with
    output := List.replicate p.depth 0x09 ++ p.output
    pos := { p.pos with offset := p.pos.offset + p.depth, column := p.pos.column + p.depth }
    out := { p.out with column := p.out.column + p.depth } }

/-- Writes the indentation if a line begins. -/
def beginLine (p : Page) : Page := if p.out.column = 1 then p.writeIndent else p

/-- Writes a byte of white space several times. -/
def writeByte (b : UInt8) (n : Nat) (p : Page) : Page :=
  let isBreak := b == 0x0A || b == 0x0C
  let ch : UInt8 :=
    if p.endAlignment then
      if isBreak then 0x0C else if b == 0x09 || b == 0x0B then 0x20 else b
    else b
  let p := { p with endAlignment := p.endAlignment && !isBreak }
  let p := p.beginLine
  let p := { p with output := List.replicate n ch ++ p.output }
  let pos := { p.pos with offset := p.pos.offset + n }
  if isBreak then
    { p with overfull := p.raw
             pos := { pos with line := pos.line + n, column := 1 }
             out := { p.out with line := p.out.line + n, column := 1 } }
  else
    { p with pos := { pos with column := pos.column + n }
             out := { p.out with column := p.out.column + n } }

/-- Writes text that stands at a place of the source. -/
def writeText (spot : Spot) (s : Bytes) (literal : Bool) (p : Page) : Page :=
  let p := p.beginLine
  let p := if spot.line = 0 then p else { p with pos := spot }
  let isBreak (b : UInt8) : Bool := b == 0x0A || b == 0x0C
  let breaks := (s.filter isBreak).length
  let tail := (s.reverse.takeWhile fun b => !isBreak b).length
  let move (place : Spot) : Spot :=
    { offset := place.offset + s.length
      line := place.line + breaks
      column := if breaks = 0 then place.column + s.length else tail + 1 }
  let mark : Bytes := if literal then [Columns.escape] else []
  let pos := move p.pos
  { p with
    output := mark ++ s.reverse ++ mark ++ p.output
    overfull := p.overfull || (p.raw && 0 < breaks)
    endAlignment := p.endAlignment || 0 < breaks
    pos := pos
    out := { move p.out with offset := p.out.offset }
    last := pos }

/-- Writes white space. A line end just before an `unindent` comes behind it, so that labels
stand further left. -/
def writeSpaces (ws : List Space) (p : Page) : Page :=
  match ws with
  | [] => p
  | .nothing :: rest => writeSpaces rest p
  | .indent :: rest => writeSpaces rest { p with depth := p.depth + 1 }
  | .unindent :: rest => writeSpaces rest { p with depth := p.depth - 1 }
  | .newline :: .unindent :: rest => writeSpaces (.formfeed :: rest) { p with depth := p.depth - 1 }
  | .formfeed :: .unindent :: rest =>
    writeSpaces (.formfeed :: rest) { p with depth := p.depth - 1 }
  | .newline :: rest => writeSpaces rest (p.writeByte 0x0A 1)
  | .formfeed :: rest => writeSpaces rest (p.writeByte 0x0C 1)
  | .blank :: rest => writeSpaces rest (p.writeByte 0x20 1)
  | .cell :: rest => writeSpaces rest (p.writeByte 0x0B 1)
termination_by ws.length

/-- Writes the first pieces of the pending white space. -/
def writePending (n : Nat) (p : Page) : Page :=
  writeSpaces (p.pending.take n) { p with pending := p.pending.drop n }

/-! ### Comments -/

/-- Is a comment one that ends with its line? -/
def isLineComment (c : Comment) : Bool := c.text[1]? == some 0x2F

/-- Does a group of comments break the line? -/
def breaksLine (lines : Lines) (g : CommentGroup) : Bool :=
  let first := lines.line (CommentGroup.pos g)
  g.any fun c => lines.line c.pos != first || isLineComment c || c.text.contains 0x0A

/-- Is there a comment before a place of the source, which can be written without turning the end
of its line into a semicolon? -/
def commentBefore (next : Spot) (p : Page) : Bool :=
  match p.comments with
  | [] => false
  | g :: _ =>
    (p.lines.spot (CommentGroup.pos g)).offset < next.offset &&
      (!p.impliedSemicolon || !breaksLine p.lines g)

/-- The length of the comments before a place of the source. -/
def commentsSize (next : Spot) (p : Page) : Nat :=
  let before := p.comments.takeWhile fun g => { p with comments := [g] }.commentBefore next
  before.flatten.foldl (fun n c => n + c.text.length) 0

/-- Takes back blanks, and perhaps the ends of cells. -/
def takeBack (cells : Bool) (s : Space) : Space :=
  if s = .blank || (cells && s = .cell) then .nothing else s

/-- Pending white space in front of a comment on the line of the last word. -/
def spaceOnLine (first : Bool) (spot next : Spot) (p : Page) : Page :=
  let before := p.pending.takeWhile fun s => s = .blank || s = .cell || s = .indent
  let separated := first && before.contains .cell
  let p :=
    if first then
      let n := if before.length < p.pending.length then before.length else 0
      let pending := before.map (takeBack false) ++ p.pending.drop before.length
      { p with pending := pending }.writePending n
    else p
  if separated then p
  else p.writeByte (if spot.line = next.line then 0x20 else 0x09) 1

/-- How many pieces of pending white space go in front of a comment on a line of its own; `aligned`
says whether it takes part in the indentation of what follows. -/
def passed (aligned : Bool) : List Space → Nat
  | .blank :: ws | .cell :: ws | .indent :: ws => passed aligned ws + 1
  | .unindent :: .unindent :: ws => passed aligned (.unindent :: ws) + 1
  | .unindent :: ws => if aligned then passed aligned ws + 1 else 0
  | _ => 0

/-- Pending white space and line ends in front of a comment on a line of its own. -/
def spaceBelow (previous : Option Comment) (spot next : Spot) (word : Word) (p : Page) : Page :=
  let aligned := word != .symbol (utf8 "\x7d") && spot.column = next.column
  let n := passed aligned p.pending
  let before := (p.pending.take n).map (takeBack true)
  let (after, broke) :=
    match p.pending.drop n with
    | .newline :: rest | .formfeed :: rest => (Space.nothing :: rest, true)
    | rest => (rest, false)
  let dropped := broke && previous.isNone
  let p := { p with pending := before ++ after }
  let p := p.writePending (if after.isEmpty then 0 else n)
  let breaks := if spot.line = 0 || p.last.line = 0 then 0 else spot.line - p.last.line
  let breaks := if p.depth = 0 && dropped then breaks + 1 else breaks
  let breaks :=
    if breaks = 0 && (previous.map isLineComment).getD false then 1 else breaks
  if breaks = 0 then p else p.writeByte 0x0C (min breaks mostBreaks)

/-- White space in front of a comment. -/
def writeBeforeComment (previous : Option Comment) (spot next : Spot) (word : Word) (p : Page) :
    Page :=
  if p.output.isEmpty then p
  else if spot.line = p.last.line && !((previous.map isLineComment).getD false) then
    p.spaceOnLine previous.isNone spot next
  else p.spaceBelow previous spot next word

/-- Writes the lines of a general comment behind the first. -/
def writeCommentLines : List Bytes → Page → Page
  | [], p => p
  | l :: ls, p =>
    let p := p.writeByte 0x0C 1
    let p := if l.isEmpty then p else p.writeText p.pos (Bytes.trimEnd l) true
    writeCommentLines ls p

/-- Notes where a build condition is going to stand. -/
def noteBuildLine (text : Bytes) (p : Page) : Page :=
  if (BuildLines.newText? text).isSome then
    { p with buildLines := p.output.length :: p.buildLines }
  else if (BuildLines.oldText? text).isSome then
    { p with oldBuildLines := p.output.length :: p.oldBuildLines }
  else p

/-- Writes a comment. -/
def writeComment (c : Comment) (p : Page) : Page :=
  let spot := p.lines.spot c.pos
  if isLineComment c then
    let p := p.noteBuildLine c.text
    -- a directive about lines has to stay at the beginning of its line
    if c.text.startsWith (utf8 "//line ") && spot.column ≤ 1 then
      let p' := { p with depth := 0 }.writeText spot (Bytes.trimEnd c.text) true
      { p' with depth := p.depth }
    else p.writeText spot (Bytes.trimEnd c.text) true
  else
    match GeneralComment.lines (spot.column = 1 && 0 < p.depth) c.text with
    | [] => p
    | l :: ls => writeCommentLines ls (p.writeText spot (Bytes.trimEnd l) true)

/-- Writes the comments of a group; with the last of them. -/
def writeGroup (next : Spot) (word : Word) :
    Option Comment → List Comment → Page → Option Comment × Page
  | previous, [], p => (previous, p)
  | previous, c :: cs, p =>
    let p := p.writeBeforeComment previous (p.lines.spot c.pos) next word
    writeGroup next word (some c) cs (p.writeComment c)

/-- Does a group of comments stand at the left margin right above a place of the source? Imports
and what begins with a name have no documentation to put into normal form. -/
def documents (next : Spot) (g : CommentGroup) (p : Page) : Bool :=
  p.lastWord != .symbol (utf8 "import") && p.lastWord != .name &&
    (p.lines.spot (CommentGroup.pos g)).column = 1 &&
    p.lines.spot (CommentGroup.stop g + 1) = next

/-- White space behind comments, with one line end at least if it is asked for. Says whether a
line end was written, and whether the end of a section was taken back. -/
def afterComments (need : Bool) : List Space → List Space × Bool × Bool × Bool
  | [] => ([], need, false, false)
  | w :: ws =>
    match w with
    | .blank | .cell =>
      let (ws, need, wrote, dropped) := afterComments need ws
      (.nothing :: ws, need, wrote, dropped)
    | .newline | .formfeed =>
      if need then
        let (ws, need, _, dropped) := afterComments false ws
        (w :: ws, need, true, dropped)
      else
        let (ws, need, wrote, dropped) := afterComments false ws
        (.nothing :: ws, need, wrote, dropped || w = .formfeed)
    | w =>
      let (ws, need, wrote, dropped) := afterComments need ws
      (w :: ws, need, wrote, dropped)

/-- Writes the white space behind comments. -/
def writeAfterComments (need : Bool) (p : Page) : Page × Bool × Bool :=
  let (ws, need, wrote, dropped) := afterComments need p.pending
  let p := writeSpaces ws { p with pending := [] }
  if need then (p.writeByte 0x0A 1, true, dropped) else (p, wrote, dropped)

/-- Does the white space held back have a line end? -/
def pendingBreak (p : Page) : Bool := p.pending.any fun s => s = .newline || s = .formfeed

/-- Writes all groups of comments before a place of the source; with the last comment. A group
that documents what follows is put into normal form; an empty one disappears. -/
def writeGroups (next : Spot) (word : Word) :
    Option Comment → List CommentGroup → Page → Option Comment × Page
  | previous, [], p => (previous, p)
  | previous, g :: gs, p =>
    if p.commentBefore next then
      if p.documents next g then
        let list := DocComment.format g
        if list.isEmpty then
          let p := p.writeBeforeComment previous (p.lines.spot (CommentGroup.pos g)) next word
          writeGroups next word none gs { p with pos := next, last := next, comments := gs }
        else
          let (_, p) := writeGroup next word previous list p
          let stop := p.lines.spot (CommentGroup.stop g)
          writeGroups next word g.getLast? gs { p with pos := stop, last := stop, comments := gs }
      else
        let (previous, p) := writeGroup next word previous g p
        writeGroups next word previous gs { p with comments := gs }
    else (previous, p)

/-- Writes the comments before a place of the source together with the pending white space. Says
whether a line end was written, and whether the end of a section was taken back. -/
def writeComments (next : Spot) (word : Word) (p : Page) : Page × Bool × Bool :=
  match writeGroups next word none p.comments p with
  | (none, p) => p.writeAfterComments false
  | (some c, p) =>
    let same := !p.noExtraBlank && !isLineComment c && p.lines.line c.pos = next.line &&
      word != .symbol (utf8 ",") &&
      (word != .symbol (utf8 ")") || p.opened = .symbol (utf8 "(")) &&
      (word != .symbol (utf8 "]") || p.opened = .symbol (utf8 "["))
    let breakHere := p.pendingBreak && !p.noExtraBreak && p.level = 0
    let p := if same && !breakHere then p.writeByte 0x20 1 else p
    let need := (same && breakHere) || isLineComment c || word = .finish ||
      (word = .symbol (utf8 "\x7d") && !p.noExtraBreak)
    p.writeAfterComments need

/-- Writes what is held back before a word at a place of the source. -/
def flush (next : Spot) (word : Word) (p : Page) : Page × Bool × Bool :=
  if p.commentBefore next then p.writeComments next word
  else (p.writePending p.pending.length, false, false)

/-! ### Words and white space -/

/-- Notes an opening bracket that was written last. -/
def noteOpened (p : Page) : Page :=
  match p.lastWord with
  | .space => p
  | .symbol s =>
    { p with opened := if s == utf8 "(" || s == utf8 "[" then .symbol s else .space }
  | _ => { p with opened := .space }

/-- Holds white space back. -/
def addSpace (s : Space) (p : Page) : Page :=
  let p := p.noteOpened
  if s = .nothing then p
  else
    let p := if p.pending.length = mostPending then p.writePending mostPending else p
    { p with
      pending := p.pending ++ [s]
      impliedSemicolon := p.impliedSemicolon && s != .newline && s != .formfeed
      lastWord := .space }

/-- Would two words written without a blank be read as another one? -/
def mayCombine (previous : Word) (next : UInt8) : Bool :=
  match previous with
  | .literal .int => next == 0x2E
  | .symbol s =>
    (s == utf8 "+" && next == 0x2B) || (s == utf8 "-" && next == 0x2D) ||
    (s == utf8 "/" && next == 0x2A) || (s == utf8 "<" && (next == 0x2D || next == 0x3C)) ||
    (s == utf8 "&" && (next == 0x26 || next == 0x5E))
  | _ => false

/-- Symbols and keywords behind which a line end counts as a semicolon. -/
def endsStatement (s : Bytes) : Bool :=
  ["break", "continue", "fallthrough", "return", "++", "--", ")", "]", "\x7d"].any fun w =>
    s == utf8 w

/-- Writes a word with all that has to come before it. -/
def addWord (word : Word) (text : Bytes) (p : Page) : Page :=
  let p := p.noteOpened
  let (literal, ending, p) :=
    match word with
    | .symbol s =>
      let p := if mayCombine p.lastWord (s.headD 0) then { p with pending := [.blank] } else p
      (false, endsStatement s, p)
    | .literal _ => (true, true, p)
    | _ => (false, true, p)
  let p := { p with lastWord := word }
  let next := p.pos
  let (p, wrote, dropped) := p.flush next word
  -- line ends of the source, unless they would count as semicolons
  let breaks := min (next.line - p.pos.line) mostBreaks
  let breaks := if wrote && breaks = mostBreaks then mostBreaks - 1 else breaks
  let extra := !p.impliedSemicolon && 0 < breaks
  let p := if extra then p.writeByte (if dropped then 0x0C else 0x0A) breaks else p
  let p :=
    if p.awaiting then { p with awaiting := false, marked := p.out.line :: p.marked } else p
  let p := p.writeText next text literal
  { p with impliedSemicolon := ending && !extra }

/-- The finished text of a page. -/
def finish (p : Page) : Bytes :=
  let p := { p with impliedSemicolon := false }
  let (p, _, _) := p.flush ⟨far, far, 0⟩ .finish
  let text := BuildLines.gather p.buildLines.reverse p.oldBuildLines.reverse p.output.reverse
  Columns.trimLines false [] (if p.raw then text else Columns.align text)

end Page
end RelaxArith.Host
