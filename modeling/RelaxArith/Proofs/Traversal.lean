/-
Walking over a tree is visiting it recursively.

The walk keeps a stack of the nodes still to be visited.  What it is meant to do is a recursion: call
the visitor with the node and then, if the visitor says so, visit what is present of the children from
left to right.  The visitor has a state, so what it says at a node may depend on everything that it
was called with before; walk and recursion agree on the calls, on their order and on the state in the
end, whatever the visitor does.

The invariant of the loop is that visiting the trees on the stack one after the other is what is left
to be done.  Counting nodes and collecting operators never skip anything, so both come down to the
list of the nodes that are present.
-/
import RelaxArith.Expr.Traversal
import RelaxArith.Proofs.Tree

namespace RelaxArith

variable {π σ : Type}

namespace Expr

/-! ### The recursive visit -/

theorem size_pos (e : Expr π) : 0 < e.size := by
  have h := sizeAll_children_lt e
  omega

theorem size_lt_of_mem_children {c e : Expr π} (h : c ∈ e.children) : c.size < e.size := by
  have hall : ∀ es : List (Expr π), c ∈ es → c.size ≤ sizeAll es := by
    intro es hc
    induction es with
    | nil => cases hc
    | cons x es ih =>
      rw [sizeAll]
      rcases List.mem_cons.mp hc with rfl | hc
      · exact Nat.le_add_right _ _
      · exact Nat.le_add_left_of_le (ih hc)
  exact Nat.lt_of_le_of_lt (hall e.children h) (sizeAll_children_lt e)

mutual

/-- Visits a tree: the node first and then, unless the visitor says no, its children from left to
right. The answer lists the nodes that the visitor was called with, in the order of the calls, and
has the state at the end. A missing tree has no nodes to visit. -/
def visits (visit : Expr π → σ → Bool × σ) (e : Expr π) (s : σ) : List (Expr π) × σ :=
  if e.isAbsent then ([], s)
  else
    match visit e s with
    | (true, s) =>
      let below := visitsAll visit e.children s
      (e :: below.1, below.2)
    | (false, s) => ([e], s)
termination_by (e.size, 0)
decreasing_by exact Prod.Lex.left _ _ (sizeAll_children_lt e)

/-- Visits several trees, one after the other. -/
def visitsAll (visit : Expr π → σ → Bool × σ) (es : List (Expr π)) (s : σ) : List (Expr π) × σ :=
  match es with
  | [] => ([], s)
  | e :: es =>
    let first := visits visit e s
    let rest := visitsAll visit es first.2
    (first.1 ++ rest.1, rest.2)
termination_by (sizeAll es, 1)
decreasing_by
  · simp only [sizeAll]
    rcases Nat.eq_zero_or_pos (sizeAll es) with h | h
    · rw [h]
      exact Prod.Lex.right _ Nat.zero_lt_one
    · exact Prod.Lex.left _ _ (Nat.lt_add_of_pos_right h)
  · simp only [sizeAll]
    exact Prod.Lex.left _ _ (Nat.lt_add_of_pos_left e.size_pos)

end

section Visits

variable (visit : Expr π → σ → Bool × σ)

@[simp]
theorem visitsAll_nil (s : σ) : visitsAll visit [] s = ([], s) := by
  rw [visitsAll]

@[simp]
theorem visitsAll_cons (e : Expr π) (es : List (Expr π)) (s : σ) :
    visitsAll visit (e :: es) s =
      ((visits visit e s).1 ++ (visitsAll visit es (visits visit e s).2).1,
        (visitsAll visit es (visits visit e s).2).2) := by
  rw [visitsAll]

theorem visits_of_isAbsent {e : Expr π} (he : e.isAbsent = true) (s : σ) :
    visits visit e s = ([], s) := by
  rw [visits, if_pos he]

variable {visit}

theorem visits_of_skip {e : Expr π} {s s' : σ} (he : e.isAbsent = false)
    (hs : visit e s = (false, s')) : visits visit e s = ([e], s') := by
  rw [visits, he, hs]
  rfl

theorem visits_of_enter {e : Expr π} {s s' : σ} (he : e.isAbsent = false)
    (hs : visit e s = (true, s')) :
    visits visit e s =
      (e :: (visitsAll visit e.children s').1, (visitsAll visit e.children s').2) := by
  rw [visits, he, hs]
  rfl

theorem visitsAll_append (es fs : List (Expr π)) (s : σ) :
    visitsAll visit (es ++ fs) s =
      ((visitsAll visit es s).1 ++ (visitsAll visit fs (visitsAll visit es s).2).1,
        (visitsAll visit fs (visitsAll visit es s).2).2) := by
  induction es generalizing s with
  | nil => simp
  | cons e es ih => simp [ih]

/-- Missing trees may be left out. -/
theorem visitsAll_filter (es : List (Expr π)) (s : σ) :
    visitsAll visit (es.filter fun e => !e.isAbsent) s = visitsAll visit es s := by
  induction es generalizing s with
  | nil => rfl
  | cons e es ih =>
    by_cases he : e.isAbsent = true
    · rw [List.filter_cons_of_neg (by simp [he]), ih, visitsAll_cons, visits_of_isAbsent visit he]
      rfl
    · rw [List.filter_cons_of_pos (by simp [he]), visitsAll_cons, visitsAll_cons, ih]

end Visits

/-! ### The stack -/

/-- Walking on with a stack visits what is on it, the top first. -/
theorem walkStack_eq {visit : Expr π → σ → Bool × σ} {stack : List (Expr π)} (s : σ)
    (hstack : ∀ e ∈ stack, e.isAbsent = false) :
    walkStack visit stack s = (visitsAll visit stack s).2 := by
  induction stack, s using walkStack.induct visit with
  | case1 s => rw [walkStack, visitsAll_nil]
  | case2 s e rest s' hs ih =>
    obtain ⟨he, hrest⟩ := List.forall_mem_cons.mp hstack
    have hpushed : ∀ x ∈ (e.children.filter fun c => !c.isAbsent) ++ rest, x.isAbsent = false := by
      intro x hx
      rcases List.mem_append.mp hx with hx | hx
      · simpa using (List.mem_filter.mp hx).2
      · exact hrest x hx
    rw [walkStack, hs]
    show walkStack visit _ s' = _
    rw [ih hpushed, visitsAll_append, visitsAll_filter, visitsAll_cons, visits_of_enter he hs]
  | case3 s e rest s' hs ih =>
    obtain ⟨he, hrest⟩ := List.forall_mem_cons.mp hstack
    rw [walkStack, hs]
    show walkStack visit rest s' = _
    rw [ih hrest, visitsAll_cons, visits_of_skip he hs]

theorem walk_eq (visit : Expr π → σ → Bool × σ) (e : Expr π) (s : σ) :
    e.walk visit s = (e.visits visit s).2 := by
  unfold walk
  by_cases he : e.isAbsent = true
  · rw [if_pos he, visits_of_isAbsent visit he]
  · have hstack : ∀ x ∈ [e], x.isAbsent = false :=
      List.forall_mem_singleton.mpr (Bool.eq_false_iff.mpr he)
    rw [if_neg he, walkStack_eq s hstack]
    simp

/-! ### The calls of the visitor -/

/-- A visitor that also notes what it is called with. -/
def noting (visit : Expr π → σ → Bool × σ) (e : Expr π) (s : List (Expr π) × σ) :
    Bool × (List (Expr π) × σ) :=
  let answer := visit e s.2
  (answer.1, s.1 ++ [e], answer.2)

theorem visitsAll_noting {visit : Expr π → σ → Bool × σ} {es : List (Expr π)}
    (h : ∀ e ∈ es, ∀ called s, visits (noting visit) e (called, s) =
      ((visits visit e s).1, called ++ (visits visit e s).1, (visits visit e s).2))
    (called : List (Expr π)) (s : σ) :
    visitsAll (noting visit) es (called, s) =
      ((visitsAll visit es s).1, called ++ (visitsAll visit es s).1, (visitsAll visit es s).2) := by
  induction es generalizing called s with
  | nil => simp
  | cons e es ih =>
    obtain ⟨he, hes⟩ := List.forall_mem_cons.mp h
    simp only [visitsAll_cons, he called s, ih hes, List.append_assoc]

/-- What a visitor notes are the calls that the visit lists. -/
theorem visits_noting (visit : Expr π → σ → Bool × σ) (e : Expr π) (called : List (Expr π)) (s : σ) :
    visits (noting visit) e (called, s) =
      ((visits visit e s).1, called ++ (visits visit e s).1, (visits visit e s).2) := by
  induction e using induct_children generalizing called s with
  | h e ih =>
    by_cases he : e.isAbsent = true
    · rw [visits_of_isAbsent _ he, visits_of_isAbsent _ he, List.append_nil]
    · have hpresent := Bool.eq_false_iff.mpr he
      rcases hs : visit e s with ⟨enter, s'⟩
      have hnoted : noting visit e (called, s) = (enter, called ++ [e], s') := by
        simp [noting, hs]
      cases enter with
      | false => rw [visits_of_skip hpresent hnoted, visits_of_skip hpresent hs]
      | true =>
        rw [visits_of_enter hpresent hnoted, visits_of_enter hpresent hs,
          visitsAll_noting fun c hc => ih c hc]
        simp

/-! ### Visitors that skip nothing -/

mutual

/-- The nodes of a tree that are present, each in front of the nodes below it. -/
def nodes : Expr π → List (Expr π)
  | absent _ => []
  | ident n s => [ident n s]
  | literal t r s => [literal t r s]
  | binary op l r s => binary op l r s :: (l.nodes ++ r.nodes)
  | prefixed op x s => prefixed op x s :: x.nodes
  | group es s => group es s :: nodesAll es
  | call f args s => call f args s :: (f.nodes ++ nodesArgs args)
  | assign t v s => assign t v s :: (t.nodes ++ v.nodes)
  | foreign t p s => [foreign t p s]

/-- The nodes of several trees. -/
def nodesAll : List (Expr π) → List (Expr π)
  | [] => []
  | e :: es => e.nodes ++ nodesAll es

/-- The nodes of the values of arguments. -/
def nodesArgs : List (Bytes × Expr π) → List (Expr π)
  | [] => []
  | (_, e) :: args => e.nodes ++ nodesArgs args

end

theorem nodesAll_eq_flatMap (es : List (Expr π)) : nodesAll es = es.flatMap nodes := by
  induction es with
  | nil => rfl
  | cons e es ih => rw [nodesAll, ih, List.flatMap_cons]

theorem nodesArgs_eq_flatMap (args : List (Bytes × Expr π)) :
    nodesArgs args = (args.map Prod.snd).flatMap nodes := by
  induction args with
  | nil => rfl
  | cons a args ih => rw [nodesArgs, ih, List.map_cons, List.flatMap_cons]

theorem children_of_isAbsent {e : Expr π} (he : e.isAbsent = true) : e.children = [] := by
  cases e with
  | absent k => rfl
  | ident | literal | binary | prefixed | group | call | assign | foreign => cases he

theorem nodes_of_isAbsent {e : Expr π} (he : e.isAbsent = true) : e.nodes = [] := by
  cases e with
  | absent k => rfl
  | ident | literal | binary | prefixed | group | call | assign | foreign => cases he

theorem nodes_of_present {e : Expr π} (he : e.isAbsent = false) :
    e.nodes = e :: e.children.flatMap nodes := by
  cases e with
  | absent k => cases he
  | ident | literal | foreign => rfl
  | binary | prefixed | assign => simp [nodes, children]
  | group es s => rw [nodes, nodesAll_eq_flatMap, children]
  | call f args s => rw [nodes, nodesArgs_eq_flatMap, children, List.flatMap_cons]

/-- The nodes listed are what stands in the tree and is present. -/
theorem mem_nodes_iff {x e : Expr π} : x ∈ e.nodes ↔ x.Inside e ∧ x.isAbsent = false := by
  induction e using induct_children with
  | h e ih =>
    rw [inside_iff]
    by_cases he : e.isAbsent = true
    · rw [nodes_of_isAbsent he, children_of_isAbsent he]
      constructor
      · intro hx
        cases hx
      · rintro ⟨rfl | ⟨c, hc, _⟩, hx⟩
        · rw [he] at hx
          cases hx
        · cases hc
    · have hpresent := Bool.eq_false_iff.mpr he
      rw [nodes_of_present hpresent, List.mem_cons, List.mem_flatMap]
      constructor
      · rintro (rfl | ⟨c, hc, hx⟩)
        · exact ⟨.inl rfl, hpresent⟩
        · obtain ⟨hinside, hx⟩ := (ih c hc).mp hx
          exact ⟨.inr ⟨c, hc, hinside⟩, hx⟩
      · rintro ⟨rfl | ⟨c, hc, hinside⟩, hx⟩
        · exact .inl rfl
        · exact .inr ⟨c, hc, (ih c hc).mpr ⟨hinside, hx⟩⟩

theorem visitsAll_always {f : σ → Expr π → σ} {es : List (Expr π)}
    (h : ∀ e ∈ es, ∀ s, visits (fun x s => (true, f s x)) e s = (e.nodes, e.nodes.foldl f s))
    (s : σ) :
    visitsAll (fun x s => (true, f s x)) es s =
      (es.flatMap nodes, (es.flatMap nodes).foldl f s) := by
  induction es generalizing s with
  | nil => simp
  | cons e es ih =>
    obtain ⟨he, hes⟩ := List.forall_mem_cons.mp h
    simp [he, ih hes]

/-- A visitor that never says no is called with every node. -/
theorem visits_always (f : σ → Expr π → σ) (e : Expr π) (s : σ) :
    visits (fun x s => (true, f s x)) e s = (e.nodes, e.nodes.foldl f s) := by
  induction e using induct_children generalizing s with
  | h e ih =>
    by_cases he : e.isAbsent = true
    · rw [visits_of_isAbsent _ he, nodes_of_isAbsent he, List.foldl_nil]
    · have hpresent := Bool.eq_false_iff.mpr he
      rw [visits_of_enter hpresent rfl, visitsAll_always ih, nodes_of_present hpresent,
        List.foldl_cons]

theorem walk_always (f : σ → Expr π → σ) (e : Expr π) (s : σ) :
    e.walk (fun x s => (true, f s x)) s = e.nodes.foldl f s := by
  rw [walk_eq, visits_always]

/-- The nodes are what is collected on a walk that skips nothing. -/
theorem walk_collecting (e : Expr π) :
    e.walk (fun x called => (true, called ++ [x])) [] = e.nodes := by
  rw [walk_always fun called x => called ++ [x], List.foldl_append_eq_append, List.nil_append,
    ← List.flatMap_def, List.flatMap_singleton']

theorem count_eq (e : Expr π) : e.count = e.nodes.length := by
  rw [count, walk_always (fun n _ => n + 1), List.foldl_add_const, Nat.zero_add, Nat.one_mul]

end Expr

/-! ### Sorted lists of texts -/

theorem Bytes.lt_of_le {a b : Bytes} (h : Bytes.le a b = true) (hne : a ≠ b) : a < b := by
  induction a generalizing b with
  | nil =>
    cases b with
    | nil => exact absurd rfl hne
    | cons y b => exact List.nil_lt_cons y b
  | cons x a ih =>
    cases b with
    | nil => cases h
    | cons y b =>
      rw [Bytes.le] at h
      rw [List.cons_lt_cons_iff]
      by_cases hxy : x < y
      · exact .inl hxy
      · rw [if_neg hxy] at h
        by_cases hyx : y < x
        · rw [if_pos hyx] at h
          cases h
        · rw [if_neg hyx] at h
          have heq : x = y := UInt8.le_antisymm (UInt8.not_lt.mp hyx) (UInt8.not_lt.mp hxy)
          exact .inr ⟨heq, ih h fun hab => hne (by rw [heq, hab])⟩

theorem Bytes.lt_of_not_le {a b : Bytes} (h : Bytes.le a b = false) : b < a := by
  induction a generalizing b with
  | nil => cases h
  | cons x a ih =>
    cases b with
    | nil => exact List.nil_lt_cons x a
    | cons y b =>
      rw [Bytes.le] at h
      rw [List.cons_lt_cons_iff]
      by_cases hxy : x < y
      · rw [if_pos hxy] at h
        cases h
      · rw [if_neg hxy] at h
        by_cases hyx : y < x
        · exact .inl hyx
        · rw [if_neg hyx] at h
          exact .inr ⟨UInt8.le_antisymm (UInt8.not_lt.mp hxy) (UInt8.not_lt.mp hyx), ih h⟩

namespace Expr

theorem mem_insertSorted {s t : Bytes} {ts : List Bytes} :
    t ∈ insertSorted s ts ↔ t = s ∨ t ∈ ts := by
  induction ts with
  | nil => simp [insertSorted]
  | cons u ts ih =>
    rw [insertSorted]
    by_cases hsu : s = u
    · rw [if_pos hsu, hsu, List.mem_cons, or_self_left]
    · rw [if_neg hsu]
      by_cases hle : Bytes.le s u = true
      · rw [if_pos hle, List.mem_cons]
      · rw [if_neg hle, List.mem_cons, ih, List.mem_cons]
        exact or_left_comm

/-- Adding a text keeps a list strictly increasing. -/
theorem pairwise_insertSorted {s : Bytes} {ts : List Bytes} (h : ts.Pairwise (· < ·)) :
    (insertSorted s ts).Pairwise (· < ·) := by
  induction ts with
  | nil => exact List.pairwise_singleton _ s
  | cons u ts ih =>
    obtain ⟨hu, hts⟩ := List.pairwise_cons.mp h
    rw [insertSorted]
    by_cases hsu : s = u
    · rw [if_pos hsu]
      exact h
    · rw [if_neg hsu]
      by_cases hle : Bytes.le s u = true
      · have hlt : s < u := Bytes.lt_of_le hle hsu
        rw [if_pos hle]
        refine List.pairwise_cons.mpr ⟨List.forall_mem_cons.mpr ⟨hlt, ?_⟩, h⟩
        intro t ht
        exact List.lt_trans hlt (hu t ht)
      · rw [if_neg hle]
        refine List.pairwise_cons.mpr ⟨?_, ih hts⟩
        intro t ht
        rcases mem_insertSorted.mp ht with rfl | ht
        · exact Bytes.lt_of_not_le (Bool.eq_false_iff.mpr hle)
        · exact hu t ht

/-- Adds the operator of a node, if it has one, to a sorted list. -/
def addOperator (ops : List Bytes) (x : Expr π) : List Bytes :=
  x.operator?.elim ops fun op => insertSorted op ops

theorem mem_addOperator {op : Bytes} {ops : List Bytes} {x : Expr π} :
    op ∈ addOperator ops x ↔ op ∈ ops ∨ x.operator? = some op := by
  unfold addOperator
  cases x.operator? with
  | none => simp
  | some o =>
    show op ∈ insertSorted o ops ↔ _
    rw [mem_insertSorted, Option.some.injEq, or_comm, eq_comm]

theorem pairwise_addOperator {ops : List Bytes} (h : ops.Pairwise (· < ·)) (x : Expr π) :
    (addOperator ops x).Pairwise (· < ·) := by
  unfold addOperator
  cases x.operator? with
  | none => exact h
  | some o => exact pairwise_insertSorted h

theorem operators_eq (e : Expr π) : e.operators = e.nodes.foldl addOperator [] :=
  walk_always addOperator e []

theorem pairwise_foldl_addOperator {ops : List Bytes} (h : ops.Pairwise (· < ·))
    (xs : List (Expr π)) : (xs.foldl addOperator ops).Pairwise (· < ·) := by
  induction xs generalizing ops with
  | nil => exact h
  | cons x xs ih => exact ih (pairwise_addOperator h x)

theorem mem_foldl_addOperator {op : Bytes} {ops : List Bytes} {xs : List (Expr π)} :
    op ∈ xs.foldl addOperator ops ↔ op ∈ ops ∨ ∃ x ∈ xs, x.operator? = some op := by
  induction xs generalizing ops with
  | nil => simp
  | cons x xs ih => simp [ih, mem_addOperator, or_assoc]

theorem operator?_eq_some_iff {x : Expr π} {op : Bytes} :
    x.operator? = some op ↔ (∃ l r s, x = binary op l r s) ∨ ∃ y s, x = prefixed op y s := by
  cases x with
  | absent | ident | literal | group | call | assign | foreign => simp [operator?]
  | binary | prefixed => simp [operator?, eq_comm]

theorem mem_operators_iff {e : Expr π} {op : Bytes} :
    op ∈ e.operators ↔ ∃ x : Expr π, x.Inside e ∧ x.operator? = some op := by
  rw [operators_eq, mem_foldl_addOperator]
  constructor
  · rintro (h | ⟨x, hx, hop⟩)
    · cases h
    · exact ⟨x, (mem_nodes_iff.mp hx).1, hop⟩
  · rintro ⟨x, hx, hop⟩
    have hpresent : x.isAbsent = false := by
      rcases operator?_eq_some_iff.mp hop with ⟨l, r, s, rfl⟩ | ⟨y, s, rfl⟩
      · rfl
      · rfl
    exact .inr ⟨x, mem_nodes_iff.mpr ⟨hx, hpresent⟩, hop⟩

end Expr

open RelaxArith.Expr

/-- **Walking is visiting recursively.** Whatever the visitor does, it is called with the nodes that
the recursive visit lists, in that order, and is left in the same state. So what is counted are the
nodes that are present, and the operators listed are those of all operations in the tree, callees
included, strictly increasing in the order of bytes. -/
theorem walk_is_recursive_visit (e : Expr π) :
    (∀ (σ : Type) (visit : Expr π → σ → Bool × σ) (s : σ),
      e.walk (noting visit) ([], s) = e.visits visit s ∧
      e.walk visit s = (e.visits visit s).2) ∧
    e.count = e.nodes.length ∧
    (∀ x : Expr π, x ∈ e.nodes ↔ x.Inside e ∧ x.isAbsent = false) ∧
    e.operators.Pairwise (· < ·) ∧
    ∀ op : Bytes, op ∈ e.operators ↔
      ∃ x : Expr π, x.Inside e ∧
        ((∃ l r s, x = .binary op l r s) ∨ ∃ y s, x = .prefixed op y s) := by
  refine ⟨fun σ visit s => ⟨?_, walk_eq visit e s⟩, count_eq e, fun x => mem_nodes_iff, ?_, ?_⟩
  · rw [walk_eq, visits_noting, List.nil_append]
  · rw [operators_eq]
    exact pairwise_foldl_addOperator List.Pairwise.nil e.nodes
  · intro op
    simp only [mem_operators_iff, operator?_eq_some_iff]

end RelaxArith
