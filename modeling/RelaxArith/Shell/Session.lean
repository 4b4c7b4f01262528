/-
Sessions.

A line is a command, which begins with a colon, or an expression or invocation to be relaxed.
The session remembers the last tree that came out of one; commands that are given nothing to work
on take that.  A file of lines can be loaded; its lines are evaluated like any other, except that
a request to quit has no effect.

Loading is bounded by a depth.  No file can be loaded from within itself for ever, so a depth of
the number of files is enough whenever loading comes to an end at all.
-/
import RelaxArith.Expansion
import RelaxArith.Expr.Parenthesized
import RelaxArith.Expr.Traversal
import RelaxArith.Outline
import RelaxArith.Shell.Directory
import RelaxArith.Shell.Message

namespace RelaxArith.Shell

/-- The trees of a session: they carry nothing foreign. -/
abbrev SessionTree := Expr Empty

/-- What a session remembers. -/
structure Session where
  relaxer : Relaxer
  last : SessionTree := .absent none

/-- Why a line fails. -/
inductive SessionError where
  | malformed (e : SyntaxError)
  | expansion (e : ExpansionError)
  | noExpression
  | unknownCommand (name : Bytes)
deriving DecidableEq, Repr

/-- The wording of an error. -/
def SessionError.message : SessionError → Bytes
  | .malformed e => e.message
  | .expansion e => e.message
  | .noExpression => utf8 "no expression given"
  | .unknownCommand name => utf8 "unknown command " ++ name

/-- What becomes of a line: the session behind it, what is printed, whether to quit, and the
error if it failed. -/
structure Outcome where
  session : Session
  output : Bytes
  quit : Bool := false
  failure : Option SessionError := none

/-- The commands. -/
inductive Command where
  | quit
  | help
  | load (file : Bytes)
  | tree (input : Bytes)
  | list (input : Bytes)
  | operators (input : Bytes)
  | unknown (name : Bytes)
deriving DecidableEq, Repr

/-! ### Commands -/

/-- A command and its argument, divided by the first blank. -/
def splitCommand (line : Bytes) : Bytes × Bytes :=
  let name := line.takeWhile (· != 0x20)
  (name, Bytes.trim (line.drop (name.length + 1)))

/-- The command that a line spells. -/
def Command.ofLine (line : Bytes) : Command :=
  let (name, arg) := splitCommand line
  if name == utf8 ":quit" || name == utf8 ":q" then .quit
  else if name == utf8 ":help" || name == utf8 ":h" then .help
  else if name == utf8 ":load" then .load arg
  else if name == utf8 ":tree" then .tree arg
  else if name == utf8 ":sexpr" then .list arg
  else if name == utf8 ":ops" then .operators arg
  else .unknown name

/-- The file that a line asks to load. -/
def loadedFile? (line : Bytes) : Option Bytes :=
  if Bytes.startsWith line (utf8 ":") then
    match Command.ofLine line with
    | .load file => some file
    | _ => none
  else none

/-- The help text. -/
def helpText : Bytes := utf8 <|
  "Enter an expression or an invocation like '#relaxed(a + b)'.\n" ++
  "Commands:\n" ++
  "  :tree  [expr]   display rewritten tree\n" ++
  "  :sexpr [expr]   display rewritten tree as s-expression\n" ++
  "  :ops   [expr]   list operators remaining after rewriting\n" ++
  "  :load  file     read input lines from a file\n" ++
  "  :help           this text\n" ++
  "  :quit           leave T.RELAX\n" ++
  "Without an expression, commands work on the last result.\n"

/-! ### What is shown of a tree -/

/-- The formatted text of a tree. -/
def shownText (e : SessionTree) : Bytes :=
  match e.format with
  | .ok text => text
  | .error f => f.message

/-- The drawing of a tree. -/
def drawing (e : SessionTree) : Bytes :=
  match e.outline 0 with
  | .ok items =>
    let styled (i : OutlineItem) : OutlineItem := { i with label := Colour.styled i.label }
    LabelTree.draw [] (LabelTree.forest 0 (items.map styled))
  | .error f => f.message

/-- The operators of a tree in brackets. -/
def operatorList (e : SessionTree) : Bytes :=
  utf8 "operators: [" ++ Bytes.join (utf8 " ") e.operators ++ utf8 "]"

namespace Session

/-- Is there nothing to work on yet? -/
def isFresh (s : Session) : Bool :=
  match s.last with
  | .absent none => true
  | _ => false

/-- The tree that comes out of an expression or an invocation. -/
def relaxed (s : Session) (input : Bytes) : Except SessionError SessionTree :=
  if Bytes.startsWith input (utf8 "#") then
    match parseInvocation input with
    | .error e => .error (.malformed e)
    | .ok inv =>
      match s.relaxer.expand inv with
      | .error e => .error (.expansion e)
      | .ok e => .ok e
  else
    match parse input with
    | .error e => .error (.malformed e)
    | .ok e => .ok (s.relaxer.relax e)

/-- The tree to work on: what comes out of an input, or the last one if there is no input. -/
def take (s : Session) (input : Bytes) : Except SessionError SessionTree :=
  let input := Bytes.trim input
  if input.isEmpty then if s.isFresh then .error .noExpression else .ok s.last
  else s.relaxed input

/-- Takes a tree, remembers it and shows something of it. -/
def present (s : Session) (input : Bytes) (view : SessionTree → Bytes) : Outcome :=
  match s.take input with
  | .error e => { session := s, output := Sign.error.print e.message, failure := some e }
  | .ok e => { session := { s with last := e }, output := view e }

/-- The longest line that is read from a file, and one more. -/
def lineLimit : Nat := 65536

/-- The lines of a file that are evaluated: neither blank nor comments. A line that is too long
ends the file. -/
def linesOf (content : Bytes) : List Bytes :=
  let lines := (Bytes.splitOnByte 0x0A content).takeWhile fun l => l.length < lineLimit
  (lines.map Bytes.trim).filter fun l => !l.isEmpty && !Bytes.startsWith l (utf8 "//")

/-- Evaluates lines one after the other, whatever becomes of them. -/
def evalLines (eval : Session → Bytes → Outcome) : Session → List Bytes → Session × Bytes
  | s, [] => (s, [])
  | s, line :: lines =>
    let o := eval s line
    let (s, output) := evalLines eval o.session lines
    (s, o.output ++ output)

/-- Loads a file, given how its lines are evaluated. A file that is not there has no lines. -/
def load (eval : Session → Bytes → Outcome) (dir : Directory) (s : Session) (file : Bytes) :
    Session × Bytes :=
  match dir.find file with
  | .file content => evalLines eval s (linesOf content)
  | _ => (s, [])

/-- Executes a command, given how the lines of a loaded file are evaluated. -/
def execute (eval : Session → Bytes → Outcome) (dir : Directory) (s : Session) : Command → Outcome
  | .quit => { session := s, output := [], quit := true }
  | .help => { session := s, output := helpText }
  | .load file =>
    let (s, output) := load eval dir s file
    { session := s, output := output }
  | .tree input =>
    s.present input fun e => Colour.printLine (shownText e) ++ Colour.printLine (drawing e)
  | .list input => s.present input fun e => Sign.info.print e.listForm
  | .operators input => s.present input fun e => Sign.info.print (operatorList e)
  | .unknown name =>
    let e := SessionError.unknownCommand name
    { session := s, output := Sign.error.print e.message, failure := some e }

/-- Evaluates a line; files are loaded from within files to a depth. -/
def evalWithin (dir : Directory) : (depth : Nat) → Session → Bytes → Outcome
  | depth, s, line =>
    if Bytes.startsWith line (utf8 ":") then
      match depth with
      | 0 => execute (fun s _ => { session := s, output := [] }) dir s (Command.ofLine line)
      | depth + 1 => execute (evalWithin dir depth) dir s (Command.ofLine line)
    else s.present line fun e => Sign.info.print (shownText e)

/-- Evaluates a line in a directory. -/
def eval (dir : Directory) (s : Session) (line : Bytes) : Outcome :=
  evalWithin dir (dir.files.length + 1) s line

/-- The outcomes of lines given one after the other. -/
def run (dir : Directory) : Session → List Bytes → List Outcome
  | _, [] => []
  | s, line :: lines =>
    let o := s.eval dir line
    o :: run dir o.session lines

end Session
end RelaxArith.Shell
