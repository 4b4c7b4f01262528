/-
Editing lines.

Keys work on a line with a cursor; the key `enter` hands the line over.  The text that was cut or
deleted last can be inserted again.  Earlier lines can be called back and changed: until the next
line is handed over, each remembers its changed form.

Where there is no screen, all that shows is a bell for a key that finds nothing to do.
-/
import RelaxArith.Shell.Key

namespace RelaxArith.Shell

/-! ### A line with a cursor -/

/-- A line: the characters before the cursor, the nearest first, and those behind it. -/
structure EditLine where
  left : List Char := []
  right : List Char := []
  /-- How far the cursor is behind the end, where nothing can be inserted or deleted. -/
  beyond : Nat := 0
deriving DecidableEq, Repr, Inhabited

namespace EditLine

/-- The text of a line. -/
def text (l : EditLine) : List Char := l.left.reverse ++ l.right

/-- A line with the cursor at its end. -/
def ofText (cs : List Char) : EditLine := { left := cs.reverse }

/-- Is a line empty? -/
def isEmpty (l : EditLine) : Bool := l.left.isEmpty && l.right.isEmpty

/-- Does a character separate words? -/
def isBreak (c : Char) : Bool := !c.isAlphanum

/-- Inserts text. -/
def insert (cs : List Char) (l : EditLine) : EditLine := { l with left := cs.reverse ++ l.left }

/-- Moves the cursor to the start. -/
def toStart (l : EditLine) : EditLine := { right := l.text }

/-- Moves the cursor to the end. -/
def toEnd (l : EditLine) : EditLine := ofText l.text

/-- Moves the cursor by one character to the left. -/
def backward (l : EditLine) : EditLine :=
  match l.beyond, l.left with
  | n + 1, _ => { l with beyond := n }
  | 0, c :: cs => { left := cs, right := c :: l.right }
  | 0, [] => l

/-- Moves the cursor by one character to the right. Only from behind the end it gets further. -/
def forward (l : EditLine) : EditLine :=
  match l.right with
  | c :: cs => { l with left := c :: l.left, right := cs }
  | [] => if l.beyond = 0 then l else { l with beyond := l.beyond + 1 }

/-- Cuts the characters before the cursor, the nearest first, behind the start of the nearest word
that does not begin the line. -/
def nearestWord? : List Char → Option (List Char × List Char)
  | c :: d :: cs =>
    if !isBreak c && isBreak d then some ([c], d :: cs)
    else (nearestWord? (d :: cs)).map fun (word, rest) => (c :: word, rest)
  | _ => none

/-- Cuts the characters behind the cursor before the next word that does not begin at it. -/
def nextWord? : List Char → Option (List Char × List Char)
  | c :: d :: cs =>
    if isBreak c && !isBreak d then some ([c], d :: cs)
    else (nextWord? (d :: cs)).map fun (gap, rest) => (c :: gap, rest)
  | _ => none

/-- Moves the cursor to the start of a word on the left. -/
def wordBackward (l : EditLine) : EditLine :=
  match nearestWord? l.left with
  | some (word, rest) => { left := rest, right := word.reverse ++ l.right }
  | none => l.toStart

/-- Moves the cursor to the start of a word on the right, or to the end. -/
def wordForward (l : EditLine) : EditLine :=
  match nextWord? l.right with
  | some (gap, rest) => { left := gap.reverse ++ l.left, right := rest }
  | none => l.toEnd

/-- Exchanges the characters around the cursor, at the end the last two, and goes on. -/
def transpose (l : EditLine) : EditLine :=
  match l.left, l.right with
  | [], a :: b :: cs => { left := [a, b], right := cs }
  | a :: as, b :: cs => { left := a :: b :: as, right := cs }
  | b :: a :: as, [] => { left := a :: b :: as }
  | [], [a] => { left := [a] }
  | [_], [] => { l with beyond := l.beyond + 1 }
  | [], [] => l

end EditLine

/-! ### Earlier lines -/

/-- An earlier line: its text, and its changed form, which counts for as long as no other line has
been handed over. -/
structure EarlierLine where
  text : List Char := []
  changed : EditLine := {}
  version : Nat := 0
deriving DecidableEq, Repr, Inhabited

/-- The lines so far: the current one, those before it and those behind it, in either case the
nearest first. The version counts the lines handed over. -/
structure History where
  older : List EarlierLine := []
  current : Option EarlierLine := none
  newer : List EarlierLine := []
  version : Nat := 0
deriving DecidableEq, Repr, Inhabited

namespace History

/-- The most lines that are kept. -/
def limit : Nat := 500

/-- A line as it is called back. -/
def shown (h : History) (l : EarlierLine) : List Char :=
  if l.version = h.version then l.changed.text else l.text

/-- Calls back the line before the current one. -/
def previous? (h : History) : Option (History × List Char) :=
  match h.current, h.older with
  | some c, l :: ls =>
    some ({ h with older := ls, current := some l, newer := c :: h.newer }, h.shown l)
  | _, _ => none

/-- Calls back the line behind the current one. -/
def next? (h : History) : Option (History × List Char) :=
  match h.current, h.newer with
  | some c, l :: ls =>
    some ({ h with older := c :: h.older, current := some l, newer := ls }, h.shown l)
  | _, _ => none

/-- Notes the changed form of the current line. -/
def note (l : EditLine) (h : History) : History :=
  match h.current with
  | none => { h with current := some { text := l.text } }
  | some c => { h with current := some { c with changed := l, version := h.version } }

/-- All lines, the last one first. -/
def fromLast (h : History) : List EarlierLine := h.newer.reverse ++ h.current.toList ++ h.older

/-- Adds a line that was handed over. The last line of the history is the one that is being
edited; it stays, empty, if what was handed over is empty or the same as the line before. -/
def add (line : List Char) (h : History) : History :=
  let version := h.version + 1
  let push (older : List EarlierLine) : History :=
    { older := older.take (limit - 1), current := some {}, version := version }
  match h.fromLast with
  | [] => push [{ text := line }]
  | last :: older =>
    let repeated := (older.head?.map fun l => l.text == line).getD false
    if repeated || line.isEmpty then
      { older := older, current := some { last with text := [], changed := {} }, version := version }
    else push ({ last with text := line, version := h.version } :: older)

end History

/-! ### The editor -/

/-- An editor: the line, the text cut or deleted last, and the earlier lines. -/
structure Editor where
  line : EditLine := {}
  cut : List Char := []
  history : History := {}
deriving DecidableEq, Repr, Inhabited

/-- What shows of a key. -/
inductive Effect where
  | nothing
  | bell
  | corner
  | entered (line : List Char)
  /-- No more keys are read. -/
  | finished
  /-- Editing breaks off with a fault. -/
  | broken
deriving DecidableEq, Repr

namespace Editor

/-- Goes on with another line. -/
def put (e : Editor) (line : EditLine) : Editor × Effect :=
  ({ e with line := line, history := e.history.note line }, .nothing)

/-- Stays as it is and rings. -/
def ring (e : Editor) : Editor × Effect := ((e.put e.line).1, .bell)

/-- Goes on with another line, unless the cursor is behind the end. -/
def change (e : Editor) (line : EditLine) : Editor × Effect :=
  if e.line.beyond = 0 then e.put line else (e, .broken)

/-- Goes on with another line and keeps text that was cut from it. -/
def take (e : Editor) (cut : List Char) (line : EditLine) : Editor × Effect :=
  { e with cut := cut }.change line

/-- Hands the line over. -/
def enter (e : Editor) : Editor × Effect :=
  let line := e.line.text
  ({ e with line := {}, history := (e.history.add line).note {} }, .entered line)

/-- Calls a line back. -/
def callBack (e : Editor) (found : Option (History × List Char)) : Editor × Effect :=
  match found with
  | some (h, text) => { e with history := h }.put (.ofText text)
  | none => e.ring

/-- Deletes the character behind the cursor. -/
def delete (e : Editor) : Editor × Effect :=
  if e.line.isEmpty then (e, .finished)
  else
    match e.line.right with
    | c :: cs => e.take [c] { e.line with right := cs }
    | [] => if e.line.beyond = 0 then e.ring else (e, .broken)

/-- Cuts up to the next word. -/
def deleteWord (e : Editor) : Editor × Effect :=
  let gap := e.line.right.takeWhile EditLine.isBreak
  match EditLine.nextWord? (e.line.right.drop gap.length) with
  | some (word, rest) =>
    let cut := gap ++ word
    e.take cut.dropLast { e.line with right := cut.getLast?.toList ++ rest }
  | none =>
    if e.line.right.isEmpty && e.line.beyond = 0 then e.put e.line
    else e.take e.line.right { e.line with right := [] }

/-- Cuts a word on the left. Without a word that begins behind the start, the whole line goes. -/
def cutWord (e : Editor) : Editor × Effect :=
  match EditLine.nearestWord? e.line.left with
  | some (word, rest) => e.take word.reverse { e.line with left := rest }
  | none => if e.line.left.isEmpty then e.put e.line else e.change {}

/-- Follows a key. -/
def step (e : Editor) (k : Key) : Editor × Effect :=
  match k with
  | .character c => e.change (e.line.insert [c])
  | .enter => e.enter
  | .finish => if e.line.isEmpty then (e, .finished) else e.enter
  | .interrupt => (e, .finished)
  | .lineStart => e.put e.line.toStart
  | .lineEnd => e.put e.line.toEnd
  | .backward => e.put e.line.backward
  | .forward => e.put e.line.forward
  | .wordBackward => e.change e.line.wordBackward
  | .wordForward => e.put e.line.wordForward
  | .backspace =>
    if e.line.isEmpty then e.ring else e.change { e.line with left := e.line.left.drop 1 }
  | .delete => e.delete
  | .deleteWord => e.deleteWord
  | .cutStart =>
    if e.line.left.isEmpty then e.put e.line
    else e.take e.line.left.reverse { e.line with left := [] }
  | .cutEnd => e.take e.line.right { e.line with right := [] }
  | .cutWord => e.cutWord
  | .yank => if e.cut.isEmpty then e.put e.line else e.change (e.line.insert e.cut)
  | .transpose => e.put e.line.transpose
  | .previous => e.callBack e.history.previous?
  | .next => e.callBack e.history.next?
  | .search => (e, .broken)
  | .corner => ((e.put e.line).1, .corner)
  | .nothing => e.put e.line

/-- Follows keys as long as they are read; with all that shows. -/
def run : Editor → List Key → Editor × List Effect
  | e, [] => (e, [])
  | e, k :: ks =>
    match e.step k with
    | (e, .nothing) => run e ks
    | (e, .finished) => (e, [.finished])
    | (e, .broken) => (e, [.broken])
    | (e, effect) =>
      let (e, effects) := run e ks
      (e, effect :: effects)

end Editor
end RelaxArith.Shell
