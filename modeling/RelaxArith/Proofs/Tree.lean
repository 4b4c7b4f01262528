/-
Induction over trees.

The elements of a grouping and the arguments of a call are lists of trees, so the induction that
comes with the type of trees speaks of three kinds of things at once.  This file restates it for
trees alone: in the cases of a grouping and of a call the statement is known of every tree in the
list.  `All` says that something holds of every node of a tree, callees included; `Inside` says which
these nodes are.
-/
import Mathlib.Logic.Relation
import RelaxArith.Expr

namespace RelaxArith.Expr

variable {π : Type}

section Induction

variable {motive : Expr π → Prop}
  (absent : ∀ k, motive (.absent k))
  (ident : ∀ n s, motive (.ident n s))
  (literal : ∀ t r s, motive (.literal t r s))
  (binary : ∀ op l r s, motive l → motive r → motive (.binary op l r s))
  (prefixed : ∀ op x s, motive x → motive (.prefixed op x s))
  (group : ∀ es s, (∀ e ∈ es, motive e) → motive (.group es s))
  (call : ∀ f args s, motive f → (∀ a ∈ args, motive a.2) → motive (.call f args s))
  (assign : ∀ t v s, motive t → motive v → motive (.assign t v s))
  (foreign : ∀ t p s, motive (.foreign t p s))

include absent ident literal binary prefixed group call assign foreign

/-- What passes from the parts of a tree to the tree holds of every tree. -/
@[elab_as_elim, induction_eliminator]
theorem induct (e : Expr π) : motive e :=
  @Expr.rec π motive (fun es => ∀ e ∈ es, motive e) (fun args => ∀ a ∈ args, motive a.2)
    (fun a => motive a.2)
    absent ident literal (fun op l r s hl hr => binary op l r s hl hr)
    (fun op x s hx => prefixed op x s hx) (fun es s hes => group es s hes)
    (fun f args s hf hargs => call f args s hf hargs) (fun t v s ht hv => assign t v s ht hv)
    foreign
    (fun e he => by simp at he)
    (fun e es he hes x hx => by
      rcases List.mem_cons.mp hx with rfl | hx
      · exact he
      · exact hes x hx)
    (fun a ha => by simp at ha)
    (fun a args ha hargs x hx => by
      rcases List.mem_cons.mp hx with rfl | hx
      · exact ha
      · exact hargs x hx)
    (fun _ _ he => he) e

end Induction

/-! ### What holds of every node -/

mutual

/-- Something holds of a node and of everything below it. -/
def All (p : Expr π → Prop) : Expr π → Prop
  | absent k => p (absent k)
  | ident n s => p (ident n s)
  | literal t r s => p (literal t r s)
  | binary op l r s => p (binary op l r s) ∧ l.All p ∧ r.All p
  | prefixed op x s => p (prefixed op x s) ∧ x.All p
  | group es s => p (group es s) ∧ AllOf p es
  | call f args s => p (call f args s) ∧ f.All p ∧ AllArgs p args
  | assign t v s => p (assign t v s) ∧ t.All p ∧ v.All p
  | foreign t q s => p (foreign t q s)

/-- Something holds everywhere in several trees. -/
def AllOf (p : Expr π → Prop) : List (Expr π) → Prop
  | [] => True
  | e :: es => e.All p ∧ AllOf p es

/-- Something holds everywhere in the arguments of a call. -/
def AllArgs (p : Expr π → Prop) : List (Bytes × Expr π) → Prop
  | [] => True
  | (_, e) :: args => e.All p ∧ AllArgs p args

end

theorem allOf_iff {p : Expr π → Prop} {es : List (Expr π)} :
    AllOf p es ↔ ∀ e ∈ es, e.All p := by
  induction es with
  | nil => simp [AllOf]
  | cons e es ih => simp [AllOf, ih]

theorem allArgs_iff {p : Expr π → Prop} {args : List (Bytes × Expr π)} :
    AllArgs p args ↔ ∀ a ∈ args, a.2.All p := by
  induction args with
  | nil => simp [AllArgs]
  | cons a args ih =>
    obtain ⟨label, e⟩ := a
    rw [AllArgs, ih, List.forall_mem_cons]

theorem All.node {p : Expr π → Prop} {e : Expr π} (h : e.All p) : p e := by
  cases e with
  | absent | ident | literal | foreign => exact h
  | binary | prefixed | group | call | assign => exact h.1

/-- What holds of every node may be weakened. -/
theorem All.imp {p q : Expr π → Prop} (hpq : ∀ e, p e → q e) {e : Expr π} (h : e.All p) :
    e.All q := by
  induction e with
  | absent | ident | literal | foreign => exact hpq _ h
  | binary op l r s hl hr => exact ⟨hpq _ h.1, hl h.2.1, hr h.2.2⟩
  | prefixed op x s hx => exact ⟨hpq _ h.1, hx h.2⟩
  | group es s hes =>
    have hall := allOf_iff.mp h.2
    exact ⟨hpq _ h.1, allOf_iff.mpr fun e he => hes e he (hall e he)⟩
  | call f args s hf hargs =>
    have hall := allArgs_iff.mp h.2.2
    exact ⟨hpq _ h.1, hf h.2.1, allArgs_iff.mpr fun a ha => hargs a ha (hall a ha)⟩
  | assign t v s ht hv => exact ⟨hpq _ h.1, ht h.2.1, hv h.2.2⟩

/-! ### What stands in a tree -/

/-- Something stands in a tree, at any depth, callees included. -/
def Inside (x e : Expr π) : Prop := Relation.ReflTransGen (fun x y => x ∈ y.children) x e

/-- What stands in a tree is the tree or stands in one of its children. -/
theorem inside_iff {x e : Expr π} : x.Inside e ↔ x = e ∨ ∃ c ∈ e.children, x.Inside c := by
  rw [Inside, Relation.ReflTransGen.cases_tail_iff, eq_comm]
  exact or_congr_right (exists_congr fun c => And.comm)

theorem Inside.of_child {x c e : Expr π} (hc : c ∈ e.children) (h : x.Inside c) : x.Inside e :=
  Relation.ReflTransGen.tail h hc

/-- What passes from the children of a node to the node holds of every tree. -/
theorem induct_children {motive : Expr π → Prop}
    (h : ∀ e, (∀ c ∈ e.children, motive c) → motive e) (e : Expr π) : motive e := by
  have hnil : ∀ c ∈ ([] : List (Expr π)), motive c := fun _ hc => absurd hc List.not_mem_nil
  induction e with
  | absent | ident | literal | foreign => exact h _ hnil
  | binary op l r s hl hr | assign l r s hl hr =>
    refine h _ ?_
    simp only [children, List.forall_mem_cons]
    exact ⟨hl, hr, hnil⟩
  | prefixed op x s hx => exact h _ (List.forall_mem_singleton.mpr hx)
  | group es s hes => exact h _ hes
  | call f args s hf hargs => exact h _ (List.forall_mem_cons.mpr ⟨hf, List.forall_mem_map.mpr hargs⟩)

/-- Something holds of every node if it holds of the node and of every node of its children. -/
theorem all_iff_children {p : Expr π → Prop} {e : Expr π} :
    e.All p ↔ p e ∧ ∀ c ∈ e.children, c.All p := by
  cases e with
  | absent | ident | literal | foreign => simp [All, children]
  | binary | prefixed | assign => simp [All, children]
  | group es s => rw [All, allOf_iff, children]
  | call f args s => rw [All, allArgs_iff, children, List.forall_mem_cons, List.forall_mem_map]

/-- Something holds of every node exactly if it holds of whatever stands in the tree. -/
theorem all_iff_inside {p : Expr π → Prop} {e : Expr π} :
    e.All p ↔ ∀ x : Expr π, x.Inside e → p x := by
  induction e using induct_children with
  | h e ih =>
    constructor
    · intro h x hx
      rcases inside_iff.mp hx with rfl | ⟨c, hc, hxc⟩
      · exact h.node
      · exact (ih c hc).mp ((all_iff_children.mp h).2 c hc) x hxc
    · intro h
      refine all_iff_children.mpr ⟨h e .refl, fun c hc => (ih c hc).mpr ?_⟩
      exact fun x hx => h x (hx.of_child hc)

end RelaxArith.Expr
