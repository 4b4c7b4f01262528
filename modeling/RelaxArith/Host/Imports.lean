/-
The imports of a Go file: which of them are used, how one is deleted, how a list of them is
sorted.

Deleting a line of a list would leave a gap; it is closed by joining lines in the table of lines,
unless there was a gap before.  Sorting keeps the lines where they are and gives each import the
place of another.
-/
import RelaxArith.Host.Layout.DocComment
import RelaxArith.Host.Statements

namespace RelaxArith.Host

/-- An import as written: its name, if it has one, and its path. -/
structure ImportSpec where
  name : Option Bytes
  path : Bytes
deriving DecidableEq, Repr

namespace ImportSpec

/-- The import that a node declares. -/
def ofNode? : Node → Option ImportSpec
  | .other (.importSpec ..) [.missing, .literal _ raw _ _] => some ⟨none, Lex.textValue raw⟩
  | .other (.importSpec ..) [.ident n _ _, .literal _ raw _ _] => some ⟨some n, Lex.textValue raw⟩
  | _ => none

/-- The last element of a path. -/
def lastElement (path : Bytes) : Bytes :=
  match Bytes.splitLast? 0x2F path with
  | some (_, last) => last
  | none => path

/-- The name under which the import is known in the file. -/
def localName (s : ImportSpec) : Bytes := s.name.getD (lastElement s.path)

end ImportSpec

namespace Node

mutual

/-- Is there a selection from an unresolved name? -/
def selectsFrom (name : Bytes) : Node → Bool
  | missing => false
  | ident .. => false
  | literal .. => false
  | selector x _ _ => (match x with
      | ident n _ resolved => n == name && !resolved
      | _ => false) || x.selectsFrom name
  | binary _ x y _ => x.selectsFrom name || y.selectsFrom name
  | unary _ x _ => x.selectsFrom name
  | paren x _ _ => x.selectsFrom name
  | call fn args _ _ _ => fn.selectsFrom name || anySelectsFrom name args
  | other _ parts => anySelectsFrom name parts

/-- Is there a selection from an unresolved name in one of several nodes? -/
def anySelectsFrom (name : Bytes) : List Node → Bool
  | [] => false
  | n :: ns => n.selectsFrom name || anySelectsFrom name ns

end

/-- The declarations of a file. -/
def declarations : Node → List Node
  | other (.file _) (_ :: decls) => decls
  | _ => []

/-- A file with other declarations. -/
def withDeclarations (decls : List Node) : Node → Node
  | other (.file p) (name :: _) => other (.file p) (name :: decls)
  | n => n

/-- The specifications of a declaration of imports. -/
def importNodes : Node → List Node
  | other (.group keyword _ _ _ _) specs => if keyword == utf8 "import" then specs else []
  | _ => []

/-- The imports of a file in order. -/
def imports (file : Node) : List ImportSpec :=
  (file.declarations.flatMap importNodes).filterMap ImportSpec.ofNode?

/-- Is the first import of a path used? Where the name does not tell, it is taken to be. -/
def usesImport (file : Node) (path : Bytes) : Bool :=
  match file.imports.find? fun s => s.path == path with
  | none => false
  | some s =>
    if s.name == some (utf8 "_") || s.name == some (utf8 ".") then true
    else file.selectsFrom s.localName

end Node

/-! ### Deleting -/

/-- What deleting works on: lines, and comments with those that are to go. -/
structure Deletion where
  lines : Lines
  comments : List CommentGroup
  gone : List Nat

namespace Deletion

/-- The position of a specification's path. -/
def pathPos : Node → Nat
  | .other _ [_, path] => path.pos
  | _ => 0

/-- The group of comments that documents a specification. -/
def doc? : Node → Option Nat
  | .other (.importSpec _ doc _) _ => doc
  | _ => none

/-- The group of comments behind a specification. -/
def trailing? : Node → Option Nat
  | .other (.importSpec _ _ trailing) _ => trailing
  | _ => none

/-- The line of a position as it is shown. -/
def shownLine (d : Deletion) (pos : Nat) : Int := (d.lines.position pos).line

/-- The index of the first comment in front of a node on its line. -/
def before? (d : Deletion) (n : Node) : Option Nat :=
  d.comments.findIdx? fun g =>
    CommentGroup.stop g < n.pos && d.shownLine (CommentGroup.stop g) = d.shownLine n.pos

/-- Joins the line of a keyword with those behind it until a position is on the next line, but at
most so often. Lines go by what is shown, which may be none of those that can be joined. -/
def bringUp (keyword pos : Nat) : (most : Nat) → Deletion → Except Lines.MergeFault Deletion
  | 0, d => .ok d
  | most + 1, d =>
    let line := d.shownLine keyword
    if line + 1 < d.shownLine pos then
      match d.lines.merge? line with
      | .error f => .error f
      | .ok lines => bringUp keyword pos most { d with lines := lines }
    else .ok d

/-- Comments that go with a deleted specification, and where the one that remains alone moves. -/
def tidy (d : Deletion) (keyword : Nat) (deleted remaining : Node) :
    Except Lines.MergeFault Deletion := do
  let gone := (doc? deleted).toList ++ (trailing? deleted).toList ++ (d.before? deleted).toList
  let d := { d with gone := d.gone ++ gone }
  let d ←
    match (doc? remaining).bind fun i => d.comments[i]? with
    | some g => bringUp keyword (CommentGroup.pos g) d.lines.count d
    | none => pure d
  match d.before? remaining with
  | some _ => bringUp keyword remaining.pos d.lines.count d
  | none => pure d

/-- Closes the gap of a deleted specification behind another one. -/
def closeGap (d : Deletion) (rparen : Nat) (previous deleted : Node) : Deletion :=
  let line := d.lines.line (pathPos deleted)
  let last := d.lines.line (pathPos previous)
  if last + 1 < line || rparen = 0 || line = d.lines.count then d
  else { d with lines := d.lines.merge line }

/-- Deletes specifications from a list. `kept` holds those before, the last first. -/
def fromSpecs (path : Bytes) (keyword rparen : Nat) :
    List Node → List Node → Deletion → Except Lines.MergeFault (List Node × Deletion)
  | kept, [], d => .ok (kept.reverse, d)
  | kept, s :: rest, d => do
    if ImportSpec.ofNode? s = some ⟨none, path⟩ then
      let d ←
        match kept ++ rest with
        | [remaining] => d.tidy keyword s remaining
        | _ => pure d
      let d :=
        match kept with
        | previous :: _ => d.closeGap rparen previous s
        | [] => d
      fromSpecs path keyword rparen kept rest d
    else fromSpecs path keyword rparen (s :: kept) rest d

/-- Deletes specifications from declarations; a declaration without any disappears. -/
def fromDeclarations (path : Bytes) :
    List Node → Deletion → Except Lines.MergeFault (List Node × Deletion)
  | [], d => .ok ([], d)
  | decl :: rest, d => do
    match decl with
    | .other (.group keyword pos lparen rparen doc) specs =>
      if keyword == utf8 "import" then
        let (specs', d) ← fromSpecs path pos rparen [] specs d
        let (rest, d) ← fromDeclarations path rest d
        if specs'.isEmpty && !specs.isEmpty then return (rest, d)
        return (.other (.group keyword pos lparen rparen doc) specs' :: rest, d)
      else
        let (rest, d) ← fromDeclarations path rest d
        return (decl :: rest, d)
    | _ =>
      let (rest, d) ← fromDeclarations path rest d
      return (decl :: rest, d)

end Deletion

namespace Program

/-- Deletes the imports of a path that have no name of their own. -/
def deleteImport (p : Program) (path : Bytes) : Except Lines.MergeFault Program := do
  let (decls, d) ←
    Deletion.fromDeclarations path p.file.declarations ⟨p.lines, p.comments, []⟩
  return {
    file := p.file.withDeclarations decls
    lines := d.lines
    comments := (d.comments.zipIdx.filter fun c => !d.gone.contains c.2).map Prod.fst }

/-- Deletes the import of a marker's package, if nothing uses it any more. -/
def deleteUnusedImport (p : Program) (marker : Bytes) : Except Lines.MergeFault Program :=
  match Bytes.splitLast? 0x2E marker with
  | none => .ok p
  | some (package, _) =>
    match p.file.imports.find? fun s => s.localName == package && !p.file.usesImport s.path with
    | some s => p.deleteImport s.path
    | none => .ok p

/-! ### Sorting -/

/-- A specification moved to another place. -/
def moveSpec (start stop : Nat) : Node → Node
  | .other (.importSpec _ doc trailing) [n, path] =>
    let n := match n with
      | .ident name _ res => Node.ident name start res
      | n => n
    let path := match path with
      | .literal k raw _ width => Node.literal k raw start width
      | x => x
    .other (.importSpec stop doc trailing) [n, path]
  | n => n

/-- The keys by which imports are sorted: path, name, and the text of the comment behind. -/
def sortKeys (comments : List CommentGroup) (s : Node) : List Bytes :=
  let comment := (Deletion.trailing? s).bind fun i => comments[i]?
  match ImportSpec.ofNode? s with
  | some i => [i.path, i.name.getD [], DocComment.plainText (comment.getD [])]
  | none => []

/-- The order of lists of keys: the first keys that differ decide. -/
def keysLe : List Bytes → List Bytes → Bool
  | a :: as, b :: bs => if a == b then keysLe as bs else Bytes.le a b
  | _, _ => true

/-- May a specification be left out because the next one imports the same? Not if there is a
comment behind it. -/
def collapses (s next : Node) : Bool :=
  ImportSpec.ofNode? s = ImportSpec.ofNode? next && (Deletion.trailing? s).isNone

/-- Leaves one of several adjacent specifications of the same import; joins the lines of the
others. -/
def dedup (lines : Lines) : List Node → List Node × Lines
  | [] => ([], lines)
  | [s] => ([s], lines)
  | s :: t :: rest =>
    if collapses s t then dedup (lines.merge (lines.line s.pos)) (t :: rest)
    else
      let (kept, lines) := dedup lines (t :: rest)
      (s :: kept, lines)

/-- The comments inside a run of specifications, each with the index of the specification it
belongs to and whether it stands in front of it. -/
def ownersOf (lines : Lines) (places : List (Nat × Nat)) :
    List (CommentGroup × Nat) → (owner : Nat) → List (Nat × Nat × Bool)
  | [], _ => []
  | (g, i) :: rest, owner =>
    let g' := CommentGroup.pos g
    let further := ((places.drop (owner + 1)).takeWhile fun q => q.1 ≤ g').length
    let owner := owner + further
    let start := (places.getD owner (0, 0)).1
    let (owner, left) :=
      if owner = 0 && g' < start then (owner, true)
      else if owner + 1 < places.length && lines.line start + 1 = lines.line g' then
        (owner + 1, true)
      else (owner, false)
    (i, owner, left) :: ownersOf lines places rest owner

/-- Sorts one run of specifications on adjacent lines, with the comments between them. -/
def sortRun (p : Program) (specs : List Node) : List Node × Program :=
  if specs.length ≤ 1 then (specs, p)
  else
    let places := specs.map fun s => (s.pos, s.stop)
    let first := (places.head?.map Prod.fst).getD 0
    let last := (places.getLast?.map Prod.snd).getD 0
    let lastLine := p.lines.line last
    let low := p.lines.startOf (p.lines.line first)
    let high := if lastLine = p.lines.count then last else p.lines.startOf (lastLine + 1)
    let inside := p.comments.zipIdx.filter fun (g, _) =>
      low ≤ CommentGroup.pos g && CommentGroup.stop g < high
    let owners := ownersOf p.lines places inside 0
    let keyed := specs.map fun s => (sortKeys p.comments s, s)
    let (kept, lines) := dedup p.lines ((keyed.mergeSort fun a b => keysLe a.1 b.1).map Prod.snd)
    let moved := kept.zipIdx.map fun (s, i) =>
      let (start, stop) := places.getD i (0, 0)
      (s, moveSpec start stop s)
    let newPlace (owner : Nat) : Option (Nat × Nat) := do
      let s ← specs[owner]?
      let i ← kept.findIdx? fun t => t.pos == s.pos
      places[i]?
    let comments := p.comments.zipIdx.map fun (g, i) =>
      match owners.find? fun o => o.1 == i with
      | some (_, owner, left) =>
        match newPlace owner with
        | some (start, stop) => g.map fun c => { c with pos := if left then start - 1 else stop }
        | none => g
      | none => g
    let comments := comments.mergeSort fun a b => CommentGroup.pos a ≤ CommentGroup.pos b
    (moved.map Prod.snd, { p with lines := lines, comments := comments })

/-- Cuts specifications into runs on adjacent lines. -/
def runs (lines : Lines) : List Node → List (List Node)
  | [] => []
  | [s] => [[s]]
  | s :: t :: rest =>
    match runs lines (t :: rest) with
    | run :: more =>
      if 1 + lines.line s.stop < lines.line t.pos then [s] :: run :: more
      else (s :: run) :: more
    | [] => [[s]]

/-- Sorts runs one after the other. -/
def sortRuns : List (List Node) → Program → List Node × Program
  | [], p => ([], p)
  | run :: rest, p =>
    let (specs, p) := p.sortRun run
    let (more, p) := sortRuns rest p
    (specs ++ more, p)

/-- Closes the gap between the last specification and the closing parenthesis. -/
def closeEnd (rparen : Nat) (specs : List Node) (lines : Lines) : Lines :=
  match specs.getLast? with
  | none => lines
  | some s =>
    let last := lines.line s.pos
    let close := lines.line rparen
    (List.range (close - (last + 1))).foldl (fun l i => l.merge (close - 1 - i)) lines

/-- Sorts the lists of imports among declarations. -/
def sortDeclarations : List Node → Program → List Node × Program
  | [], p => ([], p)
  | decl :: rest, p =>
    match decl with
    | .other (.group keyword pos lparen rparen doc) specs =>
      if keyword == utf8 "import" then
        if lparen = 0 then
          let (rest, p) := sortDeclarations rest p
          (decl :: rest, p)
        else
          let (specs, p) := sortRuns (runs p.lines specs) p
          let p := { p with lines := closeEnd rparen specs p.lines }
          let (rest, p) := sortDeclarations rest p
          (.other (.group keyword pos lparen rparen doc) specs :: rest, p)
      else (decl :: rest, p)
    | _ => (decl :: rest, p)

/-- The program with its lists of imports sorted. -/
def sortImports (p : Program) : Program :=
  let (decls, p) := sortDeclarations p.file.declarations p
  { p with file := p.file.withDeclarations decls }

/-- Are there imports in parentheses, which may have to be sorted? -/
def hasImportList (p : Program) : Bool :=
  p.file.declarations.any fun
    | .other (.group keyword _ lparen _ _) _ => keyword == utf8 "import" && lparen != 0
    | _ => false

end Program
end RelaxArith.Host
