/-
The directory in which a program runs.

Paths are relative to it.  What stands before a slash has to be a folder, so a path is walked
component by component, and stops at a file or at nothing.  The names of folders are only there to
tell a folder from something that does not exist.
-/
import RelaxArith.Text.Path

namespace RelaxArith.Shell

/-- Files by name, and names of folders. -/
structure Directory where
  files : List (Bytes × Bytes) := []
  folders : List Bytes := []
deriving DecidableEq, Repr, Inhabited

/-- What a path leads to. -/
inductive Entry where
  | file (content : Bytes)
  | folder
  | nothing
  /-- A file is used as if it were a folder. -/
  | notFolder
deriving DecidableEq, Repr

namespace Directory

/-- What a route leads to. Files are in folders, and the directory is in others. -/
def entry (d : Directory) (r : Route) : Entry :=
  match d.files.find? fun f => Path.route f.1 = r with
  | some (_, content) => .file content
  | none =>
    if r.isStart || d.files.any (fun f => (Path.route f.1).isBelow r) ||
        d.folders.any (fun f => Path.route f = r) then .folder
    else .nothing

/-- What components lead to from a route on. -/
def walk (d : Directory) : List Bytes → Route → Entry
  | [], r => d.entry r
  | c :: cs, r =>
    match d.entry r with
    | .folder => d.walk cs (r.push c)
    | .file _ => .notFolder
    | e => e

/-- What a path leads to. -/
def find (d : Directory) (path : Bytes) : Entry :=
  if path.isEmpty then .nothing else d.walk (Path.components path) (Path.start path)

/-- The directory with another content in a file. -/
def write (d : Directory) (path content : Bytes) : Directory :=
  { d with files := d.files.map fun f =>
      if Path.route f.1 = Path.route path then (f.1, content) else f }

end Directory
end RelaxArith.Shell
