/-
The source tool: the program that relaxes Go files.

Files are dealt with one after the other, in the order of the arguments.  What becomes of a file
is printed, or written back if that is asked for and some marker call was replaced.  A file that
fails is reported and left as it is.  A fault breaks off the whole program.
-/
import RelaxArith.Host.Source
import RelaxArith.Shell.Console

namespace RelaxArith.Shell

/-- Why a file is not dealt with. -/
inductive FileError where
  | missing (file : Bytes)
  | notFolder (file : Bytes)
  | folder (file : Bytes)
  | source (file : Bytes) (e : Host.SourceError)
deriving DecidableEq, Repr

/-- The wording of an error. -/
def FileError.message : FileError → Bytes
  | .missing file => utf8 "stat " ++ file ++ utf8 ": no such file or directory"
  | .notFolder file => utf8 "stat " ++ file ++ utf8 ": not a directory"
  | .folder file => utf8 "reading source: read " ++ file ++ utf8 ": is a directory"
  | .source file e => e.message file

/-- Does an error break off the program? -/
def FileError.isFault : FileError → Bool
  | .source _ e => e.isFault
  | _ => false

namespace SourceTool

/-- The flags of the tool. -/
def flags : List (Bytes × FlagKind) :=
  [(utf8 "w", .switch), (utf8 "marker", .text), (utf8 "sum", .text), (utf8 "product", .text),
   (utf8 "nested", .switch), (utf8 "trace", .text)]

/-- The marker that the flags ask for. -/
def markerOf (c : CommandLine) : Host.Marker :=
  Host.Marker.ofNames (c.text "marker" []) (c.text "sum" []) (c.text "product" [])
    (c.switch "nested" true)

/-- The relaxed text of a file, and the number of marker calls replaced. -/
def relaxFile (m : Host.Marker) (dir : Directory) (file : Bytes) :
    Except FileError (Bytes × Nat) :=
  match dir.find file with
  | .nothing => .error (.missing file)
  | .notFolder => .error (.notFolder file)
  | .folder => .error (.folder file)
  | .file content =>
    match Host.relaxSource m file content with
    | .error f => .error (.source file f.error)
    | .ok result => .ok result

/-- The report on a file that was written back. -/
def report (file : Bytes) (count : Nat) : Bytes :=
  Sign.success.report (file ++ utf8 ": " ++ Bytes.decimal count ++ utf8 " expression(s) rewritten")

/-- Deals with a file: the status behind it, what is printed, and the directory. -/
def process (m : Host.Marker) (writeBack : Bool) (dir : Directory) (file : Bytes) : Run :=
  match relaxFile m dir file with
  | .error e =>
    if e.isFault then ⟨Console.faultStatus, [], dir⟩ else ⟨1, Sign.fileError.print e.message, dir⟩
  | .ok (text, n) =>
    if writeBack then ⟨0, report file n, if n = 0 then dir else dir.write file text⟩
    else ⟨0, text, dir⟩

/-- Deals with files one after the other, until a fault. The status is the worst one. -/
def processAll (m : Host.Marker) (writeBack : Bool) : Directory → List Bytes → Run
  | dir, [] => ⟨0, [], dir⟩
  | dir, file :: files =>
    let first := process m writeBack dir file
    if first.status = Console.faultStatus then first
    else
      let rest := processAll m writeBack first.directory files
      ⟨max first.status rest.status, first.output ++ rest.output, rest.directory⟩

/-- The whole program. -/
def run (args : List Bytes) (dir : Directory) : Run :=
  match CommandLine.parse flags args with
  | .error e => ⟨e.status, [], dir⟩
  | .ok c =>
    if c.rest.isEmpty then ⟨2, [], dir⟩
    else processAll (markerOf c) (c.switch "w" false) dir c.rest

end SourceTool
end RelaxArith.Shell
