/-
Tables that are shared.

A table is a place where rules are kept, and several names and relaxers may refer to one place:
a rule added through one of them is seen by all.  A workspace holds the places, the tables by
name (a name may also stand for no table at all) and the relaxers by name.
-/
import RelaxArith.Relax

namespace RelaxArith

/-- A relaxer that refers to its table. -/
structure SharedRelaxer where
  sum : Bytes
  product : Bytes
  nested : Bool
  place : Nat
deriving DecidableEq, Repr

/-- Places of tables, tables by name, relaxers by name. -/
structure Workspace where
  places : List Table := []
  tables : List (Bytes × Option Nat) := []
  relaxers : List (Bytes × SharedRelaxer) := []

/-- What can be done with tables and relaxers. -/
inductive WorkspaceStep where
  /-- A new place with the standard table. -/
  | standard (name : Bytes)
  /-- A new place with an empty table. -/
  | empty (name : Bytes)
  /-- The name stands for no table. -/
  | none (name : Bytes)
  | add (name op : Bytes) (rule : Option Rule)
  | delete (name op : Bytes)
  /-- A new place with a copy of a table. -/
  | copy (name target : Bytes)
  | operators (name : Bytes)
  /-- A new relaxer, with the table of some name unless that is empty or stands for none. -/
  | relaxer (name : Bytes) (options : Options) (table : Bytes)
  /-- Another name for the table of a relaxer. -/
  | tableOf (relaxer target : Bytes)
  | functions (relaxer : Bytes)

/-- What a step says. -/
inductive WorkspaceAnswer where
  | operators (ops : List Bytes)
  | done
  | functions (sum product : Bytes)
  | tableFault (f : TableFault)
  | fault (f : Fault)
deriving DecidableEq, Repr

namespace Workspace

/-- The place that a name of a table refers to. -/
def place? (w : Workspace) (name : Bytes) : Option Nat := (w.tables.lookup name).join

/-- The table at a place. -/
def tableAt (w : Workspace) (place : Nat) : Table := w.places.getD place .empty

/-- Lets a name refer to a place, or to none. -/
def bind (w : Workspace) (name : Bytes) (place : Option Nat) : Workspace :=
  { w with tables := (name, place) :: w.tables.filter fun e => e.1 != name }

/-- A new place that holds a table. -/
def allocate (w : Workspace) (t : Table) : Workspace × Nat :=
  ({ w with places := w.places ++ [t] }, w.places.length)

/-- Changes the table at a place. -/
def update (w : Workspace) (place : Nat) (t : Table) : Workspace :=
  { w with places := w.places.set place t }

/-- The operators of the table of a name; no table has no operators. -/
def operatorsOf (w : Workspace) (name : Bytes) : List Bytes :=
  match w.place? name with
  | some p => (w.tableAt p).operators
  | none => []

/-- The relaxer of a name, with the rules that its table holds now. -/
def relaxer? (w : Workspace) (name : Bytes) : Option Relaxer :=
  (w.relaxers.lookup name).map fun r => ⟨r.sum, r.product, w.tableAt r.place, r.nested⟩

/-- Lets a name refer to a new place with a table. -/
def define (w : Workspace) (name : Bytes) (t : Table) : Workspace :=
  let (w, p) := w.allocate t
  w.bind name (some p)

/-- Carries out a step. A step that cannot be carried out changes nothing. -/
def step (w : Workspace) : WorkspaceStep → WorkspaceAnswer × Workspace
  | .standard name =>
    let w := w.define name .standard
    (.operators (w.operatorsOf name), w)
  | .empty name =>
    let w := w.define name .empty
    (.operators (w.operatorsOf name), w)
  | .none name =>
    let w := w.bind name none
    (.operators (w.operatorsOf name), w)
  | .add _ op none => (.tableFault (.missingRule op), w)
  | .add name op (some rule) =>
    match w.place? name with
    | none => (.tableFault .missingTable, w)
    | some p =>
      let w := w.update p ((w.tableAt p).add op rule)
      (.operators (w.operatorsOf name), w)
  | .delete name op =>
    match w.place? name with
    | none => (.operators [], w)
    | some p =>
      let w := w.update p ((w.tableAt p).delete op)
      (.operators (w.operatorsOf name), w)
  | .copy name target =>
    let w :=
      match w.place? name with
      | none => w.bind target none
      | some p => w.define target (w.tableAt p)
    (.operators (w.operatorsOf target), w)
  | .operators name => (.operators (w.operatorsOf name), w)
  | .relaxer name options table =>
    match options.relaxer with
    | .error f => (.tableFault f, w)
    | .ok rx =>
      let (w, p) :=
        match if table.isEmpty then none else w.place? table with
        | some p => (w, p)
        | none => w.allocate rx.table
      let shared : SharedRelaxer := ⟨rx.sum, rx.product, rx.nested, p⟩
      (.done, { w with relaxers := (name, shared) :: w.relaxers.filter fun e => e.1 != name })
  | .tableOf relaxer target =>
    match w.relaxers.lookup relaxer with
    | none => (.fault .missingNode, w)
    | some r =>
      let w := w.bind target (some r.place)
      (.operators (w.operatorsOf target), w)
  | .functions relaxer =>
    match w.relaxers.lookup relaxer with
    | none => (.fault .missingNode, w)
    | some r => (.functions r.sum r.product, w)

/-! ### Relaxing by name -/

mutual

/-- Does it take a relaxer to relax a tree? Leaves, and groupings of leaves and calls with them,
come out the same without one. -/
def needsRelaxer {π : Type} : Expr π → Bool
  | .absent _ => false
  | .ident .. => false
  | .literal .. => false
  | .binary .. => true
  | .prefixed .. => true
  | .group es _ => anyNeedsRelaxer es
  | .call _ args _ => argNeedsRelaxer args
  | .assign .. => true
  | .foreign .. => false

/-- Does it take one for one of several trees? -/
def anyNeedsRelaxer {π : Type} : List (Expr π) → Bool
  | [] => false
  | e :: es => needsRelaxer e || anyNeedsRelaxer es

/-- Does it take one for the value of an argument? -/
def argNeedsRelaxer {π : Type} : List (Bytes × Expr π) → Bool
  | [] => false
  | (_, e) :: args => needsRelaxer e || argNeedsRelaxer args

end

/-- Relaxes a tree with the relaxer of a name. If there is none, only trees that do not need one
can be relaxed. -/
def relax? {π : Type} (w : Workspace) (name : Bytes) (e : Expr π) : Except Fault (Expr π) :=
  match w.relaxer? name with
  | some rx => .ok (rx.relax e)
  | none => if needsRelaxer e then .error .missingNode else .ok (Relaxer.standard.relax e)

end Workspace
end RelaxArith
