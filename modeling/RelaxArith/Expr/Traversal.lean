/-
Walking over a tree, and what is counted and collected on the way.

The walk visits nodes before their children, from left to right.  It keeps the nodes still to be
visited on a stack of its own, so its depth is not bounded by that of the tree.  The visitor has
a state and says at each node whether to go on to the children.
-/
import RelaxArith.Expr

namespace RelaxArith.Expr

variable {π : Type} {σ : Type}

/-- Visits the trees on a stack, each before its children. -/
def walkStack (visit : Expr π → σ → Bool × σ) (stack : List (Expr π)) (s : σ) : σ :=
  match stack with
  | [] => s
  | e :: rest =>
    match visit e s with
    | (true, s) => walkStack visit ((e.children.filter fun c => !c.isAbsent) ++ rest) s
    | (false, s) => walkStack visit rest s
termination_by sizeAll stack
decreasing_by
  · have h := sizeAll_children_lt e
    have h' := sizeAll_filter_le (fun c => !c.isAbsent) e.children
    simp only [sizeAll_append, sizeAll]
    omega
  · have h : 0 < e.size := by cases e <;> simp [size]
    simp only [sizeAll]
    omega

/-- Visits a tree in pre-order. A missing tree has no nodes to visit. -/
def walk (visit : Expr π → σ → Bool × σ) (e : Expr π) (s : σ) : σ :=
  if e.isAbsent then s else walkStack visit [e] s

/-- The number of nodes of a tree. -/
def count (e : Expr π) : Nat := e.walk (fun _ n => (true, n + 1)) 0

/-- Adds a text to a sorted list of texts, unless it is there already. -/
def insertSorted (s : Bytes) : List Bytes → List Bytes
  | [] => [s]
  | t :: ts =>
    if s = t then t :: ts
    else if Bytes.le s t then s :: t :: ts
    else t :: insertSorted s ts

/-- The operator symbol of a node, if it is an operation. -/
def operator? : Expr π → Option Bytes
  | binary op .. => some op
  | prefixed op .. => some op
  | _ => none

/-- The operator symbols that occur in a tree, sorted and without repetition. -/
def operators (e : Expr π) : List Bytes :=
  e.walk (fun node ops => (true, (node.operator?.elim ops fun op => insertSorted op ops))) []

mutual

/-- The height of a tree: a leaf has height one, a missing tree none. -/
def depth : Expr π → Nat
  | absent _ => 0
  | ident .. => 1
  | literal .. => 1
  | binary _ l r _ => max l.depth r.depth + 1
  | prefixed _ x _ => x.depth + 1
  | group es _ => depthAll es + 1
  | call f args _ => max f.depth (depthArgs args) + 1
  | assign t v _ => max t.depth v.depth + 1
  | foreign .. => 1

/-- The greatest height of several trees. -/
def depthAll : List (Expr π) → Nat
  | [] => 0
  | e :: es => max e.depth (depthAll es)

/-- The greatest height of the arguments of a call. -/
def depthArgs : List (Bytes × Expr π) → Nat
  | [] => 0
  | (_, e) :: args => max e.depth (depthArgs args)

end

end RelaxArith.Expr
