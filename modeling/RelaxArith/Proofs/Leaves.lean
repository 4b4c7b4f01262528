/-
Relaxing keeps the operands of a tree, and their order.

A tree is a sequence of leaves with a structure on top: names, constants and foreign constructs as
they were written, and the labels of arguments in front of their values.  Relaxing changes the
structure.  Of the sequence it keeps everything, spans and payloads included, up to two things that
it does on purpose: the names of the relaxed functions come in, and the target of a compound
assignment is written twice, the second time as a copy.

So the sequence of a relaxed tree, without the names that came in, is the sequence of the tree with
every such target listed twice.  A target inside a target is listed four times.
-/
import Mathlib.Data.List.Basic
import RelaxArith.Proofs.Relaxed

namespace RelaxArith

variable {π : Type}

/-- What a tree is made of, apart from its structure. -/
inductive Item (π : Type) where
  | name (name : Bytes) (span : Span)
  | constant (type : LiteralType) (raw : Bytes) (span : Span)
  | foreign (text : Bytes) (payload : Option π) (span : Span)
  | label (label : Bytes)

namespace Item

/-- Is this one of some names? -/
def isNameOf (names : List Bytes) : Item π → Bool
  | name n _ => names.contains n
  | _ => false

/-- The label of an argument, if it has one. -/
def ofLabel (l : Bytes) : List (Item π) := if l = [] then [] else [label l]

/-- All but those that are one of some names. -/
def others (names : List Bytes) (is : List (Item π)) : List (Item π) :=
  is.filter fun item => !item.isNameOf names

@[simp]
theorem others_append (names : List Bytes) (is js : List (Item π)) :
    others names (is ++ js) = others names is ++ others names js :=
  List.filter_append is js

theorem others_name_cons {names : List Bytes} {n : Bytes} (h : n ∈ names) (s : Span)
    (is : List (Item π)) : others names (name n s :: is) = others names is :=
  List.filter_cons_of_neg (by simpa [isNameOf] using h)

theorem others_eq_self {names : List Bytes} {is : List (Item π)}
    (h : ∀ item ∈ is, item.isNameOf names = false) : others names is = is :=
  List.filter_eq_self.mpr fun item hitem => by rw [h item hitem, Bool.not_false]

@[simp]
theorem others_ofLabel (names : List Bytes) (l : Bytes) :
    others names (ofLabel l : List (Item π)) = ofLabel l := by
  refine others_eq_self fun item hitem => ?_
  by_cases hl : l = []
  · rw [ofLabel, if_pos hl] at hitem
    cases hitem
  · rw [ofLabel, if_neg hl, List.mem_singleton] at hitem
    rw [hitem]
    rfl

@[simp]
theorem others_flatMap {α : Type} (names : List Bytes) (xs : List α) (f : α → List (Item π)) :
    others names (xs.flatMap f) = xs.flatMap fun x => others names (f x) :=
  List.filter_flatMap

end Item

namespace Expr

mutual

/-- What a tree is made of, from left to right. Operations with certain symbols list their left
operand twice, unless they stand in a callee. -/
def items (twice : List Bytes) : Expr π → List (Item π)
  | absent _ => []
  | ident n s => [.name n s]
  | literal t raw s => [.constant t raw s]
  | binary op l r _ =>
    (if twice.contains op then l.items twice else []) ++ l.items twice ++ r.items twice
  | prefixed _ x _ => x.items twice
  | group es _ => itemsAll twice es
  | call f args _ => f.items [] ++ itemsArgs twice args
  | assign t v _ => t.items twice ++ v.items twice
  | foreign t p s => [.foreign t p s]

/-- What several trees are made of. -/
def itemsAll (twice : List Bytes) : List (Expr π) → List (Item π)
  | [] => []
  | e :: es => e.items twice ++ itemsAll twice es

/-- What arguments are made of: each label stands in front of its value. -/
def itemsArgs (twice : List Bytes) : List (Bytes × Expr π) → List (Item π)
  | [] => []
  | (l, e) :: args => Item.ofLabel l ++ e.items twice ++ itemsArgs twice args

end

attribute [local simp] items itemsAll itemsArgs

/-- The leaves of a tree and the labels in it, from left to right. -/
def leaves (e : Expr π) : List (Item π) := e.items []

theorem itemsAll_eq_flatMap (twice : List Bytes) (es : List (Expr π)) :
    itemsAll twice es = es.flatMap (items twice) := by
  induction es with
  | nil => rfl
  | cons e es ih => rw [itemsAll, ih, List.flatMap_cons]

theorem itemsArgs_eq_flatMap (twice : List Bytes) (args : List (Bytes × Expr π)) :
    itemsArgs twice args = args.flatMap fun a => Item.ofLabel a.1 ++ a.2.items twice := by
  induction args with
  | nil => rfl
  | cons a args ih => rw [itemsArgs, ih, List.flatMap_cons]

/-! ### What rules put together -/

@[simp]
theorem leaves_binary (op : Bytes) (l r : Expr π) (s : Span) :
    (binary op l r s).leaves = l.leaves ++ r.leaves := by
  simp [leaves]

@[simp]
theorem leaves_prefixed (op : Bytes) (x : Expr π) (s : Span) :
    (prefixed op x s).leaves = x.leaves := by
  rw [leaves, items, leaves]

@[simp]
theorem leaves_group (es : List (Expr π)) (s : Span) :
    (group es s).leaves = es.flatMap leaves := by
  rw [leaves, items, itemsAll_eq_flatMap]
  rfl

@[simp]
theorem leaves_call (f : Expr π) (args : List (Bytes × Expr π)) (s : Span) :
    (call f args s).leaves = f.leaves ++ args.flatMap fun a => Item.ofLabel a.1 ++ a.2.leaves := by
  rw [leaves, items, itemsArgs_eq_flatMap]
  rfl

@[simp]
theorem leaves_assign (t v : Expr π) (s : Span) :
    (assign t v s).leaves = t.leaves ++ v.leaves := by
  rw [leaves, items, leaves, leaves]

theorem leaves_withSpan (s : Span) (e : Expr π) : (Relaxer.withSpan s e).leaves = e.leaves := by
  cases e with
  | absent | ident | literal | binary | prefixed | group | call | assign | foreign => rfl

theorem leaves_negate (e : Expr π) : e.negate.leaves = e.leaves := by
  rw [negate, leaves_prefixed]
  by_cases hgroup : e.needsGrouping = true
  · rw [if_pos hgroup, leaves_group, List.flatMap_singleton]
  · rw [if_neg hgroup]

/-- The copy of a target is made of what the target is made of. -/
theorem leaves_withoutStubs (e : Expr π) : e.withoutStubs.leaves = e.leaves := by
  induction e with
  | absent | ident | literal | foreign => rfl
  | binary op l r s hl hr => rw [withoutStubs, leaves_binary, leaves_binary, hl, hr]
  | prefixed op x s hx => rw [withoutStubs, leaves_prefixed, leaves_prefixed, hx]
  | group es s hes =>
    rw [withoutStubs, leaves_group, leaves_group, withoutStubsAll_eq_map, List.flatMap_map]
    exact List.flatMap_congr hes
  | call f args s hf hargs =>
    rw [withoutStubs, leaves_call, leaves_call, withoutStubsArgs_eq_map, List.flatMap_map, hf]
    congr 1
    exact List.flatMap_congr fun a ha => congrArg (Item.ofLabel a.1 ++ ·) (hargs a ha)
  | assign t v s ht hv => rw [withoutStubs, leaves_assign, leaves_assign, ht, hv]

theorem leaves_relaxedCall (name : Bytes) (l r : Expr π) :
    (Relaxer.relaxedCall name l r).leaves = .name name .null :: (l.leaves ++ r.leaves) := by
  simp [Relaxer.relaxedCall, callOf, Item.ofLabel, leaves]

/-- Sums, differences and products put a name in front of their operands. -/
theorem leaves_combine (rx : Relaxer) {c : Combine} (hc : c ∈ Combine.arithmetic)
    (l r : Expr π) :
    ∃ name ∈ [rx.sum, rx.product],
      (rx.combine c l r).leaves = .name name .null :: (l.leaves ++ r.leaves) := by
  obtain ⟨name, hname, x, hx, hcombine⟩ := rx.combine_eq_relaxedCall hc l r
  refine ⟨name, hname, ?_⟩
  rw [hcombine, leaves_relaxedCall]
  rcases hx with rfl | rfl
  · rfl
  · rw [leaves_negate]

end Expr

/-! ### Relaxing -/

open Item in
/-- The step at an operation: its operands stay, and the left one of a compound assignment is
there twice. -/
theorem others_leaves_applyRule {rx : Relaxer} (htable : rx.table = .standard) (op : Bytes)
    (s : Span) (l r : Expr π) :
    others [rx.sum, rx.product] (rx.applyRule (rx.ruleFor op) op s l r).leaves
      = (if Table.compounds.contains op then others [rx.sum, rx.product] l.leaves else [])
        ++ others [rx.sum, rx.product] l.leaves ++ others [rx.sum, rx.product] r.leaves := by
  rcases Relaxer.ruleFor_standard_cases htable op with
    ⟨hop, c, hc, hrule⟩ | ⟨hop, c, hc, hrule⟩ | ⟨hop, hrule⟩
  · obtain ⟨name, hname, hcombine⟩ := Expr.leaves_combine rx hc l.withoutStubs r
    rw [hrule, Relaxer.applyRule, Expr.leaves_assign, Expr.leaves_withSpan,
      hcombine, Expr.leaves_withoutStubs, others_append, others_name_cons hname, others_append,
      if_pos (List.contains_iff_mem.mpr hop), List.append_assoc]
  · obtain ⟨name, hname, hcombine⟩ := Expr.leaves_combine rx hc l r
    rw [hrule, Relaxer.applyRule, Expr.leaves_withSpan, hcombine,
      others_name_cons hname, others_append, if_neg (mt List.contains_iff_mem.mp hop),
      List.nil_append]
  · rw [hrule, Relaxer.applyRule, Expr.leaves_binary, others_append,
      if_neg (mt List.contains_iff_mem.mp hop), List.nil_append]

open Item in
/-- **No operand is lost, invented or reordered.** With the standard table, the leaves of the
relaxed tree but for the names of the relaxed functions are the leaves of the tree, with their spans
and payloads, in their order and behind their labels; only the target of a compound sum, difference
or product outside callees is there twice. -/
theorem relax_keeps_leaves {rx : Relaxer} (htable : rx.table = .standard)
    (hnested : rx.nested = true) {e : Expr π}
    (h : ∀ item ∈ e.leaves, item.isNameOf [rx.sum, rx.product] = false) :
    others [rx.sum, rx.product] (rx.relax e).leaves = e.items Table.compounds := by
  induction e with
  | absent => rfl
  | ident | literal | foreign => exact others_eq_self h
  | binary op l r s hl hr =>
    rw [Expr.leaves_binary, List.forall_mem_append] at h
    rw [Relaxer.relax, others_leaves_applyRule htable, hl h.1, hr h.2, Expr.items]
  | prefixed op x s hx =>
    rw [Expr.leaves_prefixed] at h
    rw [Relaxer.relax, if_pos hnested, Expr.leaves_prefixed, hx h, Expr.items]
  | group es s hes =>
    rw [Expr.leaves_group, List.forall_mem_flatMap] at h
    rw [Relaxer.relax, Expr.leaves_group, Relaxer.relaxAll_eq_map, List.flatMap_map, others_flatMap,
      Expr.items, Expr.itemsAll_eq_flatMap]
    exact List.flatMap_congr fun e he => hes e he (h e he)
  | call f args s _ hargs =>
    rw [Expr.leaves_call, List.forall_mem_append, List.forall_mem_flatMap] at h
    rw [Relaxer.relax, Expr.leaves_call, Relaxer.relaxArgs_eq_map, List.flatMap_map, others_append,
      others_flatMap, others_eq_self h.1, Expr.items, Expr.itemsArgs_eq_flatMap]
    congr 1
    refine List.flatMap_congr fun a ha => ?_
    have hvalue := List.forall_mem_append.mp (h.2 a ha)
    rw [others_append, others_ofLabel, hargs a ha hvalue.2]
  | assign t v s ht hv =>
    rw [Expr.leaves_assign, List.forall_mem_append] at h
    rw [Relaxer.relax, if_pos hnested, Expr.leaves_assign, others_append, ht h.1, hv h.2,
      Expr.items]

/-- The tree of `(x += y * 2) -= (f += h)(to: -[v], t + …)`, with a payload at `[v]` and a part
missing. -/
def leavesExample : Expr Nat :=
  .binary (utf8 "-=")
    (.group [.binary (utf8 "+=") (.ident (utf8 "x") ⟨1, 2⟩)
      (.binary (utf8 "*") (.ident (utf8 "y") ⟨6, 7⟩) (.literal .number (utf8 "2") ⟨10, 11⟩) ⟨6, 11⟩)
      ⟨1, 11⟩] ⟨0, 12⟩)
    (.call (.binary (utf8 "+=") (.ident (utf8 "f") ⟨16, 17⟩) (.ident (utf8 "h") ⟨21, 22⟩) ⟨16, 22⟩)
      [(utf8 "to", .prefixed (utf8 "-") (.foreign (utf8 "[v]") (some 7) ⟨28, 31⟩) ⟨27, 31⟩),
        ([], .binary (utf8 "+") (.ident (utf8 "t") ⟨33, 34⟩) (.absent (some .call)) ⟨33, 37⟩)]
      ⟨16, 38⟩)
    ⟨0, 38⟩

/-- The relaxer with functions `s` and `p`. -/
def leavesRelaxer : Relaxer := ⟨utf8 "s", utf8 "p", .standard, true⟩

theorem relax_keeps_leaves_leavesExample :
    leavesRelaxer.table = .standard ∧ leavesRelaxer.nested = true ∧
    (∀ item ∈ leavesExample.leaves,
      item.isNameOf [leavesRelaxer.sum, leavesRelaxer.product] = false) ∧
    Item.others [leavesRelaxer.sum, leavesRelaxer.product]
        (leavesRelaxer.relax leavesExample).leaves
      = [.name (utf8 "x") ⟨1, 2⟩, .name (utf8 "x") ⟨1, 2⟩, .name (utf8 "y") ⟨6, 7⟩,
          .constant .number (utf8 "2") ⟨10, 11⟩,
          .name (utf8 "x") ⟨1, 2⟩, .name (utf8 "x") ⟨1, 2⟩, .name (utf8 "y") ⟨6, 7⟩,
          .constant .number (utf8 "2") ⟨10, 11⟩,
          .name (utf8 "f") ⟨16, 17⟩, .name (utf8 "h") ⟨21, 22⟩, .label (utf8 "to"),
          .foreign (utf8 "[v]") (some 7) ⟨28, 31⟩, .name (utf8 "t") ⟨33, 34⟩] := by
  have hnames : ∀ item ∈ leavesExample.leaves,
      item.isNameOf [leavesRelaxer.sum, leavesRelaxer.product] = false := by
    decide
  exact ⟨rfl, rfl, hnames, (relax_keeps_leaves rfl rfl hnames).trans rfl⟩

end RelaxArith
