/-
The console: the program around a session.

With an expression or a command among its arguments the program evaluates just that.  Otherwise
it loads a file, if one is named, and then reads lines until the input ends or a line asks to
quit.  What is read are keys, with which lines can be edited before they are handed over.
-/
import RelaxArith.Shell.Flags
import RelaxArith.Shell.LineEditor
import RelaxArith.Shell.Session

namespace RelaxArith.Shell

/-- What a program leaves behind: its exit status, what it printed, and the directory. -/
structure Run where
  status : Nat
  output : Bytes
  directory : Directory
deriving DecidableEq, Repr

namespace Console

/-- The flags of the console. -/
def flags : List (Bytes × FlagKind) :=
  [(utf8 "trace", .text), (utf8 "init", .text), (utf8 "sum", .text), (utf8 "product", .text),
   (utf8 "nested", .switch)]

/-- A session with functions of some names; empty names stand for the usual ones. -/
def sessionOf (c : CommandLine) : Session :=
  { relaxer := Relaxer.ofNames (c.text "sum" []) (c.text "product" []) (c.switch "nested" true) }

/-- The first thing the console prints. -/
def welcome : Bytes := Sign.info.print (utf8 "Welcome to T.RELAX")

/-- What is left of the arguments, as one line. -/
def oneLine (c : CommandLine) : Bytes := Bytes.trim (Bytes.join (utf8 " ") c.rest)

/-- The keys of input. A byte that is no UTF-8 counts as the replacement character. -/
def keysOf (input : Bytes) : List Key := Key.ofCharacters (Bytes.characters input)

/-- The keys of a whole input. The first `finish` may hand over the last line. -/
def allKeysOf (input : Bytes) : List Key := keysOf input ++ [.finish, .finish]

/-- The status of a program that a fault breaks off. -/
def faultStatus : Nat := 2

/-- Answers what keys do: with what is printed, the session behind it, and the status if the
program ends. Blank lines are passed over. -/
def answer (dir : Directory) (s : Session) : Effect → Bytes × Session × Option Nat
  | .nothing => ([], s, none)
  | .bell => ([0x07], s, none)
  | .corner => (utf8 "\x1b[H", s, none)
  | .finished => ([], s, some 0)
  | .broken => ([], s, some faultStatus)
  | .entered line =>
    let line := Bytes.trim (Bytes.ofCharacters line)
    if line.isEmpty then ([], s, none)
    else
      let o := s.eval dir line
      (o.output, o.session, if o.quit then some 0 else none)

/-- Answers one thing after the other until the program ends. -/
def converse (dir : Directory) : Session → List Effect → Bytes × Nat
  | _, [] => ([], 0)
  | s, e :: es =>
    match answer dir s e with
    | (output, _, some status) => (output, status)
    | (output, s, none) =>
      let (rest, status) := converse dir s es
      (output ++ rest, status)

/-- Loads the file named at the start. -/
def start (dir : Directory) (s : Session) (file : Bytes) : Session × Bytes :=
  Session.load (Session.eval dir) dir s file

/-- The whole program. -/
def run (args : List Bytes) (input : Bytes) (dir : Directory) : Run :=
  match CommandLine.parse flags args with
  | .error e => ⟨e.status, [], dir⟩
  | .ok c =>
    let s := sessionOf c
    let line := oneLine c
    if line.isEmpty then
      let (s, output) := start dir s (c.text "init" [])
      let (answers, status) := converse dir s (Editor.run {} (allKeysOf input)).2
      ⟨status, welcome ++ output ++ answers, dir⟩
    else
      let o := s.eval dir line
      ⟨if o.failure.isSome then 2 else 0, welcome ++ o.output, dir⟩

end Console
end RelaxArith.Shell
