/-
Relaxing the source of a Go file.

The source is parsed and its names are resolved, its marker calls are expanded, the import of the
marker's package goes if nothing uses it any more, and the program is laid out anew.  Lists of
imports are sorted; for that the laid out text is parsed once more, and names that are no names
show then.
-/
import RelaxArith.Host.Imports
import RelaxArith.Host.Layout.Statements
import RelaxArith.Host.Marker
import RelaxArith.Host.Scope

namespace RelaxArith.Host

/-- A marker by its name and those of the relaxed functions; empty names stand for the usual
ones. -/
def Marker.ofNames (name sum product : Bytes) (nested : Bool) : Marker :=
  ⟨Relaxer.nameOr name Marker.defaultName, Relaxer.ofNames sum product nested⟩

/-- The usual marker with the usual functions. -/
def Marker.standard : Marker := Marker.ofNames [] [] [] true

/-- Why a source is not relaxed. -/
inductive SourceError where
  | unparsable
  /-- A marker call at some place cannot be replaced. -/
  | marker (place : Bytes) (e : MarkerError)
  /-- The result cannot be read again. -/
  | unreadable
  /-- Lines cannot be joined where an import is deleted. -/
  | lines (f : Lines.MergeFault)
deriving DecidableEq, Repr

/-- The wording of an error in a file of some name. -/
def SourceError.message (file : Bytes) : SourceError → Bytes
  | .unparsable => utf8 "cannot parse " ++ file
  | .marker place e => place ++ utf8 ": " ++ e.message
  | .unreadable => utf8 "cannot format " ++ file
  | .lines f => f.message

/-- Does an error break off all work, instead of being reported? -/
def SourceError.isFault : SourceError → Bool
  | .marker _ (.notCall _) | .lines _ => true
  | _ => false

/-- An error, and how many marker calls had been replaced before. -/
structure SourceFailure where
  error : SourceError
  count : Nat
deriving DecidableEq, Repr

namespace Program

/-- The program with those names marked that refer to something declared in it. -/
def resolve (p : Program) : Program := { p with file := Scope.markFile p.file }

/-- Deletes the import of the marker's package if calls were replaced and nothing uses it any
more. -/
def tidy (m : Marker) (count : Nat) (p : Program) : Except Lines.MergeFault Program :=
  if count = 0 then .ok p else p.deleteUnusedImport m.name

/-- Expands the marker calls of a program whose names are resolved, and deletes the import that they
leave unused. Where a call cannot be replaced that import is deleted as well, before the error is
reported. -/
def expand (m : Marker) (p : Program) : Except SourceFailure (Program × Nat) :=
  match m.expand 0 p.file with
  | .error s =>
    let error := SourceError.marker (p.lines.position s.pos).text s.error
    if error.isFault then .error ⟨error, s.count⟩
    else
      match tidy m s.count { p with file := m.leave p.file } with
      | .error f => .error ⟨.lines f, s.count⟩
      | .ok _ => .error ⟨error, s.count⟩
  | .ok (file, n) =>
    match tidy m n { p with file := file } with
    | .error f => .error ⟨.lines f, n⟩
    | .ok p => .ok (p, n)

/-- The text of a program with its lists of imports sorted. -/
def format? (p : Program) : Option Bytes :=
  if p.hasImportList then (Program.parse? [] p.render).map fun q => q.sortImports.render
  else some p.render

end Program

/-- The relaxed text of a source, and the number of marker calls replaced. -/
def relaxSource (m : Marker) (file source : Bytes) : Except SourceFailure (Bytes × Nat) :=
  match Program.parse? file source with
  | none => .error ⟨.unparsable, 0⟩
  | some p =>
    match p.resolve.expand m with
    | .error f => .error f
    | .ok (p, n) =>
      match p.format? with
      | none => .error ⟨.unreadable, n⟩
      | some text => .ok (text, n)

end RelaxArith.Host
