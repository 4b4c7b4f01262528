/-
Syntax trees of Go, seen from outside.

The arguments of a call and the parts of any other construct are lists of trees, so the induction
that comes with the type speaks of two kinds of things at once; here it is restated for trees alone.
Then what theorems say about a tree as a whole: what stands in it, whether it could be the tree of a
Go program, and which functions are called in it by name, anywhere or inside the callees of calls.
-/
import Mathlib.Logic.Relation
import RelaxArith.Host.Exchange

namespace RelaxArith.Host.Node

section Induction

variable {motive : Node → Prop}
  (missing : motive .missing)
  (ident : ∀ name p res, motive (.ident name p res))
  (literal : ∀ k raw p w, motive (.literal k raw p w))
  (selector : ∀ x sel p, motive x → motive (.selector x sel p))
  (binary : ∀ op x y p, motive x → motive y → motive (.binary op x y p))
  (unary : ∀ op x p, motive x → motive (.unary op x p))
  (paren : ∀ x p q, motive x → motive (.paren x p q))
  (call : ∀ fn args p e q, motive fn → (∀ x ∈ args, motive x) → motive (.call fn args p e q))
  (other : ∀ form parts, (∀ x ∈ parts, motive x) → motive (.other form parts))

include missing ident literal selector binary unary paren call other

/-- What passes from the parts of a tree to the tree holds of every tree. -/
@[elab_as_elim, induction_eliminator]
theorem induct (x : Node) : motive x :=
  @Node.rec motive (fun xs => ∀ x ∈ xs, motive x)
    missing ident literal (fun x sel p hx => selector x sel p hx)
    (fun op x y p hx hy => binary op x y p hx hy) (fun op x p hx => unary op x p hx)
    (fun x p q hx => paren x p q hx)
    (fun fn args p e q hfn hargs => call fn args p e q hfn hargs)
    (fun form parts hparts => other form parts hparts)
    (fun x hx => by simp at hx)
    (fun x xs hx hxs y hy => by
      rcases List.mem_cons.mp hy with rfl | hy
      · exact hx
      · exact hxs y hy) x

end Induction

/-! ### What stands in a tree -/

/-- What a tree is made of. -/
def parts : Node → List Node
  | .missing | .ident .. | .literal .. => []
  | .selector x _ _ | .unary _ x _ | .paren x _ _ => [x]
  | .binary _ x y _ => [x, y]
  | .call fn args _ _ _ => fn :: args
  | .other _ parts => parts

/-- Something stands in a tree, at any depth. -/
def Inside (x y : Node) : Prop := Relation.ReflTransGen (fun x y => x ∈ y.parts) x y

/-- What stands in a tree is the tree itself or stands in a part of it. -/
theorem inside_iff {x y : Node} : x.Inside y ↔ x = y ∨ ∃ z ∈ y.parts, x.Inside z := by
  constructor
  · intro h
    rcases Relation.ReflTransGen.cases_tail h with heq | ⟨z, hz, hmem⟩
    · exact .inl heq.symm
    · exact .inr ⟨z, hmem, hz⟩
  · rintro (rfl | ⟨z, hmem, hz⟩)
    · exact .refl
    · exact .tail hz hmem

/-! ### Trees of Go programs -/

/-- A tree that Go's grammar can give: operators are those of Go's expressions, and only constructs
without a constructor of their own have parts that may be missing. -/
inductive Proper : Node → Prop
  | ident (name : Bytes) (p : Nat) (res : Bool) : Proper (.ident name p res)
  | literal (k : LiteralKind) (raw : Bytes) (p w : Nat) : Proper (.literal k raw p w)
  | selector {x : Node} {sel : Bytes} {p : Nat} (hx : Proper x) : Proper (.selector x sel p)
  | binary {op : Bytes} {x y : Node} {p : Nat} (hop : op ∈ binaryOperators) (hx : Proper x)
      (hy : Proper y) : Proper (.binary op x y p)
  | unary {op : Bytes} {x : Node} {p : Nat} (hop : op ∈ unaryOperators) (hx : Proper x) :
      Proper (.unary op x p)
  | paren {x : Node} {p q : Nat} (hx : Proper x) : Proper (.paren x p q)
  | call {fn : Node} {args : List Node} {p e q : Nat} (hfn : Proper fn)
      (hargs : ∀ x ∈ args, Proper x) : Proper (.call fn args p e q)
  | other {form : Form} {parts : List Node} (hparts : ∀ x ∈ parts, x ≠ .missing → Proper x) :
      Proper (.other form parts)

/-! ### Called functions -/

mutual

/-- The names of the functions that are called by a name in a tree, one for each call. -/
def calledNames : Node → List Bytes
  | missing => []
  | ident .. => []
  | literal .. => []
  | selector x _ _ => x.calledNames
  | binary _ x y _ => x.calledNames ++ y.calledNames
  | unary _ x _ => x.calledNames
  | paren x _ _ => x.calledNames
  | call fn args _ _ _ => fn.qualifiedName?.toList ++ fn.calledNames ++ calledNamesAll args
  | other _ parts => calledNamesAll parts

/-- The names of the functions that are called in several trees. -/
def calledNamesAll : List Node → List Bytes
  | [] => []
  | x :: xs => x.calledNames ++ calledNamesAll xs

end

mutual

/-- The names of the functions that are called inside callees. -/
def calleeNames : Node → List Bytes
  | missing => []
  | ident .. => []
  | literal .. => []
  | selector x _ _ => x.calleeNames
  | binary _ x y _ => x.calleeNames ++ y.calleeNames
  | unary _ x _ => x.calleeNames
  | paren x _ _ => x.calleeNames
  | call fn args _ _ _ => fn.calledNames ++ calleeNamesAll args
  | other _ parts => calleeNamesAll parts

/-- The names of the functions that are called inside callees of several trees. -/
def calleeNamesAll : List Node → List Bytes
  | [] => []
  | x :: xs => x.calleeNames ++ calleeNamesAll xs

end

theorem not_mem_calledNamesAll {name : Bytes} {xs : List Node}
    (h : ∀ x ∈ xs, name ∉ x.calledNames) : name ∉ calledNamesAll xs := by
  induction xs with
  | nil => exact List.not_mem_nil
  | cons x xs ih =>
    rw [List.forall_mem_cons] at h
    rw [calledNamesAll, List.mem_append, not_or]
    exact ⟨h.1, ih h.2⟩

end RelaxArith.Host.Node
