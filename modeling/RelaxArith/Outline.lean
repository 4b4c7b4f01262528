/-
Outlines of trees.

An outline lists the nodes of a tree in pre-order, each with a label and its level.  Since levels
never rise by more than one, an item belongs to the closest item before it whose level is one
less; that is how the drawing of an outline is made.
-/
import RelaxArith.Expr.Forms

namespace RelaxArith

/-- An item of an outline. -/
structure OutlineItem where
  level : Nat
  label : Bytes
deriving DecidableEq, Repr

namespace Expr

variable {π : Type}

/-- The label of a node. Most stubs have none. -/
def label? : Expr π → Except Fault Bytes
  | absent none => .ok (utf8 "nil")
  | absent (some .grouping) => .ok Kind.grouping.name
  | absent (some .assignment) => .ok Kind.assignment.name
  | absent (some _) => .error .missingNode
  | binary op _ _ _ => .ok (utf8 "binary " ++ op)
  | prefixed op _ _ => .ok (utf8 "prefix " ++ op)
  | group _ _ => .ok Kind.grouping.name
  | assign _ _ _ => .ok Kind.assignment.name
  | call _ args _ =>
    let labels := (args.filter fun a => !a.1.isEmpty).map fun a => a.1 ++ utf8 ":"
    .ok (if labels.isEmpty then utf8 "call" else utf8 "call " ++ Bytes.join (utf8 " ") labels)
  | ident name _ => .ok (Kind.identifier.name ++ utf8 " " ++ name)
  | literal _ raw _ => .ok (Kind.literal.name ++ utf8 " " ++ raw)
  | foreign text _ _ => .ok (Kind.foreign.name ++ utf8 " " ++ text)

mutual

/-- The outline of a tree from a level on. -/
def outline (level : Nat) : Expr π → Except Fault (List OutlineItem)
  | absent k => (absent k : Expr π).label?.map fun l => [⟨level, l⟩]
  | ident n s => (ident n s : Expr π).label?.map fun l => [⟨level, l⟩]
  | literal t r s => (literal t r s : Expr π).label?.map fun l => [⟨level, l⟩]
  | foreign t p s => (foreign t p s).label?.map fun l => [⟨level, l⟩]
  | binary op l r s => do
    let label ← (binary op l r s).label?
    let left ← l.outline (level + 1)
    let right ← r.outline (level + 1)
    pure (⟨level, label⟩ :: left ++ right)
  | prefixed op x s => do
    let label ← (prefixed op x s).label?
    let inner ← x.outline (level + 1)
    pure (⟨level, label⟩ :: inner)
  | group es s => do
    let label ← (group es s).label?
    let inner ← outlineAll (level + 1) es
    pure (⟨level, label⟩ :: inner)
  | call f args s => do
    let label ← (call f args s).label?
    let callee ← f.outline (level + 1)
    let inner ← outlineArgs (level + 1) args
    pure (⟨level, label⟩ :: callee ++ inner)
  | assign t v s => do
    let label ← (assign t v s).label?
    let target ← t.outline (level + 1)
    let value ← v.outline (level + 1)
    pure (⟨level, label⟩ :: target ++ value)

/-- The outlines of several trees. -/
def outlineAll (level : Nat) : List (Expr π) → Except Fault (List OutlineItem)
  | [] => .ok []
  | e :: es => do
    let first ← e.outline level
    let rest ← outlineAll level es
    pure (first ++ rest)

/-- The outlines of the values of arguments. -/
def outlineArgs (level : Nat) : List (Bytes × Expr π) → Except Fault (List OutlineItem)
  | [] => .ok []
  | (_, e) :: args => do
    let first ← e.outline level
    let rest ← outlineArgs level args
    pure (first ++ rest)

end

end Expr

/-- Trees of labels. -/
inductive LabelTree where
  | node (label : Bytes) (children : List LabelTree)
deriving Inhabited, Repr

namespace LabelTree

/-- The trees that the items of an outline spell from a level on: the items behind one that are
on deeper levels belong to it. -/
def forest (level : Nat) (items : List OutlineItem) : List LabelTree :=
  match items with
  | [] => []
  | item :: rest =>
    .node item.label (forest (level + 1) (rest.takeWhile fun i => level < i.level)) ::
      forest level (rest.dropWhile fun i => level < i.level)
termination_by items.length
decreasing_by
  · have h := (List.takeWhile_prefix (l := rest) fun i => decide (level < i.level)).length_le
    simp only [List.length_cons]
    omega
  · have h := (List.dropWhile_suffix (l := rest) fun i => decide (level < i.level)).length_le
    simp only [List.length_cons]
    omega

/-- The drawing of trees behind a margin, in front of other text. The last of siblings has a
corner, and nothing below it. -/
def drawOnto (margin : Bytes) : List LabelTree → Bytes → Bytes
  | [], behind => behind
  | .node label children :: rest, behind =>
    let corner := if rest.isEmpty then "└" else "├"
    let stem := if children.isEmpty then "──" else "─┬"
    let below := if rest.isEmpty then "  " else "│ "
    let others := drawOnto margin rest behind
    margin ++ (utf8 corner ++ (utf8 stem ++ (label ++
      0x0A :: drawOnto (margin ++ utf8 below) children others)))

/-- The drawing of trees behind a margin. -/
def draw (margin : Bytes) (trees : List LabelTree) : Bytes := drawOnto margin trees []

end LabelTree
end RelaxArith
