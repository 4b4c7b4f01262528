/-
The command line.

The first argument chooses the program: `console` for a session, `source` for Go files.  All that
happens here is reading and writing; files are read into a `Directory` before they are needed.
-/
import RelaxArith.Shell.SourceTool

namespace RelaxArith.Shell

/-- Text as bytes of a file. -/
def toBlob (s : Bytes) : ByteArray := ByteArray.mk s.toArray

/-- Prints text. -/
def printBytes (s : Bytes) : IO Unit := do
  let out ← IO.getStdout
  out.write (toBlob s)
  out.flush

/-- Adds a file to a directory, if it can be read. -/
def readInto (dir : Directory) (name : Bytes) : IO Directory := do
  match String.fromUTF8? (toBlob name) with
  | none => return dir
  | some path =>
    try
      let blob ← IO.FS.readBinFile path
      return { dir with files := dir.files ++ [(name, blob.data.toList)] }
    catch
      | .inappropriateType .. => return { dir with folders := dir.folders ++ [name] }
      | _ => return dir

/-- Reads the files that lines ask to load, and those that these ask for. -/
partial def gather (dir : Directory) (lines : List Bytes) : IO Directory := do
  let mut dir := dir
  for file in lines.filterMap loadedFile? do
    if dir.find file = .nothing then
      dir ← readInto dir file
      match dir.find file with
      | .file content => dir ← gather dir (Session.linesOf content)
      | _ => pure ()
  return dir

/-- The lines among what keys do. -/
def enteredLines (effects : List Effect) : List Bytes :=
  effects.filterMap fun
    | .entered line => some (Bytes.trim (Bytes.ofCharacters line))
    | _ => none

/-- Answers what keys do; with the session behind it, and the status if the program ends. -/
def react (dir : Directory) (s : Session) (effects : List Effect) :
    IO (Directory × Session × Option Nat) := do
  let dir ← gather dir (enteredLines effects)
  let mut s := s
  for e in effects do
    let (output, next, status) := Console.answer dir s e
    printBytes output
    s := next
    if status.isSome then return (dir, s, status)
  return (dir, s, none)

/-- Talks until the input ends or a line asks to quit. Input is taken in whole lines; `left` is
what has been read of the next one. -/
partial def talk (input : IO.FS.Stream) (dir : Directory) (s : Session) (e : Editor)
    (left : Bytes) : IO Nat := do
  let blob ← input.read 4096
  if blob.isEmpty then
    let (_, _, status) ← react dir s (e.run (Console.allKeysOf left)).2
    return status.getD 0
  let read := left ++ blob.data.toList
  match Bytes.splitLast? 0x0A read with
  | none => talk input dir s e read
  | some (lines, left) =>
    let (e, effects) := e.run (Console.keysOf (lines ++ [0x0A]))
    match ← react dir s effects with
    | (_, _, some status) => return status
    | (dir, s, none) => talk input dir s e left

/-- Runs the console. -/
def runConsole (args : List Bytes) : IO UInt32 := do
  match CommandLine.parse Console.flags args with
  | .error e => return e.status.toUInt32
  | .ok c =>
    let line := Console.oneLine c
    if line.isEmpty then
      let init := c.text "init" []
      let dir ← gather {} [utf8 ":load " ++ init]
      let (s, output) := Console.start dir (Console.sessionOf c) init
      printBytes (Console.welcome ++ output)
      return (← talk (← IO.getStdin) dir s {} []).toUInt32
    else
      let r := Console.run args [] (← gather {} [line])
      printBytes r.output
      return r.status.toUInt32

/-- Runs the source tool. -/
def runSourceTool (args : List Bytes) : IO UInt32 := do
  let names := match CommandLine.parse SourceTool.flags args with
    | .ok c => c.rest.eraseDups
    | .error _ => []
  let before ← names.foldlM readInto {}
  let r := SourceTool.run args before
  printBytes r.output
  for file in r.directory.files do
    if !before.files.contains file then
      match String.fromUTF8? (toBlob file.1) with
      | some path => IO.FS.writeBinFile path (toBlob file.2)
      | none => pure ()
  return r.status.toUInt32

end RelaxArith.Shell

open RelaxArith RelaxArith.Shell in
/-- Runs the program that the first argument names. -/
def main (args : List String) : IO UInt32 := do
  match args with
  | "console" :: rest => runConsole (rest.map utf8)
  | "source" :: rest => runSourceTool (rest.map utf8)
  | _ =>
    IO.eprintln "usage: relax-arith (console | source) [flags] [arguments]"
    return 2
