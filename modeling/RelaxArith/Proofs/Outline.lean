/-
An outline determines the tree that it was made of.

An outline is a flat list; its levels are all that is left of the shape.  Two ways to read the shape
off are compared here.  One is the rule that levels stand for: an item belongs to the closest item
before it whose level is one less.  The other cuts the list into pieces, as is done for drawing: what
is behind an item and on deeper levels belongs to it.  Both give back the tree of labels that was
written down.

Writing down trees of labels is a recursion, and what is shown of the items of a part has to hold
wherever they stand in the list.  What stands in front of them does not matter, since an item belongs
to the closest one.  What stands behind them begins on a level that is not deeper, and levels never
rise by more than one.  So each item there finds one to belong to that is closer than theirs.
-/
import Mathlib.Data.List.Chain
import RelaxArith.Outline
import RelaxArith.Proofs.Stubs
import RelaxArith.Proofs.Traversal

namespace RelaxArith

variable {π : Type}

namespace Outline

/-! ### Reading an outline by its levels -/

/-- The last number below a bound that has some property. -/
def lastBelow (p : Nat → Bool) : Nat → Option Nat
  | 0 => none
  | n + 1 => if p n then some n else lastBelow p n

/-- The level at a place of an outline. -/
def level? (items : List OutlineItem) (i : Nat) : Option Nat := items[i]?.map OutlineItem.level

/-- The place of the item that the item at a place belongs to: the closest one before it whose level
is one less. -/
def parent? (items : List OutlineItem) (j : Nat) : Option Nat :=
  lastBelow (fun i => (level? items i).map (· + 1) == level? items j) j

/-- The places of the items that belong to the item at a place. -/
def childrenAt (items : List OutlineItem) (i : Nat) : List Nat :=
  (List.range items.length).filter fun j => parent? items j == some i

theorem lastBelow_eq_some_iff {p : Nat → Bool} {n i : Nat} :
    lastBelow p n = some i ↔ i < n ∧ p i = true ∧ ∀ k, i < k → k < n → p k = false := by
  induction n with
  | zero => simp [lastBelow]
  | succ n ih =>
    rw [lastBelow]
    by_cases hn : p n = true
    · rw [if_pos hn, Option.some.injEq]
      constructor
      · rintro rfl
        exact ⟨Nat.lt_succ_self n, hn, fun k hk hkn => absurd hkn (by omega)⟩
      · rintro ⟨hi, _, hlast⟩
        rcases Nat.lt_succ_iff_lt_or_eq.mp hi with h | h
        · rw [hlast n h (Nat.lt_succ_self n)] at hn
          cases hn
        · exact h.symm
    · rw [if_neg hn, ih]
      constructor
      · rintro ⟨hi, hp, hlast⟩
        refine ⟨by omega, hp, fun k hk hkn => ?_⟩
        rcases Nat.lt_succ_iff_lt_or_eq.mp hkn with h | rfl
        · exact hlast k hk h
        · exact Bool.eq_false_iff.mpr hn
      · rintro ⟨hi, hp, hlast⟩
        have hne : i ≠ n := by
          rintro rfl
          exact hn hp
        exact ⟨by omega, hp, fun k hk hkn => hlast k hk (by omega)⟩

theorem lastBelow_eq_none_iff {p : Nat → Bool} {n : Nat} :
    lastBelow p n = none ↔ ∀ k < n, p k = false := by
  induction n with
  | zero => simp [lastBelow]
  | succ n ih =>
    rw [lastBelow, Nat.forall_lt_succ_right]
    by_cases hn : p n = true
    · simp [hn]
    · rw [if_neg hn, ih]
      simp [Bool.eq_false_iff.mpr hn]

theorem lt_of_mem_childrenAt {items : List OutlineItem} {i j : Nat} (h : j ∈ childrenAt items i) :
    i < j ∧ j < items.length := by
  obtain ⟨hj, hparent⟩ := List.mem_filter.mp h
  exact ⟨(lastBelow_eq_some_iff.mp (beq_iff_eq.mp hparent)).1, List.mem_range.mp hj⟩

/-- The tree of the item at a place: its label, and the trees of the items that belong to it. -/
def treeAt (items : List OutlineItem) (i : Nat) : LabelTree :=
  .node (items[i]?.elim [] OutlineItem.label)
    ((childrenAt items i).attach.map fun j => treeAt items j.1)
termination_by items.length - i
decreasing_by
  have h := lt_of_mem_childrenAt j.2
  omega

theorem treeAt_eq (items : List OutlineItem) (i : Nat) :
    treeAt items i =
      .node (items[i]?.elim [] OutlineItem.label) ((childrenAt items i).map (treeAt items)) := by
  rw [treeAt, List.attach_map_val]

/-- The trees of the items that belong to none. -/
def trees (items : List OutlineItem) : List LabelTree :=
  ((List.range items.length).filter fun j => parent? items j == none).map (treeAt items)

/-! ### Levels that rise by one at most -/

/-- Levels never rise by more than one. -/
def Steady (items : List OutlineItem) : Prop := items.IsChain fun a b => b.level ≤ a.level + 1

/-- What can stand behind the items of trees at a level: nothing that one of them could adopt. -/
structure Closes (level : Nat) (items : List OutlineItem) : Prop where
  steady : Steady items
  head : ∀ item ∈ items.head?, item.level ≤ level

/-- Between a level and a deeper one further on, every level occurs. -/
theorem exists_level {items : List OutlineItem} {n j : Nat} (hsteady : Steady items)
    (hhead : ∀ item ∈ items.head?, item.level ≤ n) (hj : level? items j = some (n + 1)) :
    ∃ i < j, level? items i = some n := by
  induction items generalizing j with
  | nil => cases hj
  | cons a items ih =>
    have ha : a.level ≤ n := hhead a rfl
    by_cases hn : a.level = n
    · refine ⟨0, ?_, congrArg some hn⟩
      rcases Nat.eq_zero_or_pos j with rfl | hpos
      · have h : a.level = n + 1 := Option.some.inj hj
        omega
      · exact hpos
    · cases j with
      | zero =>
        have h : a.level = n + 1 := Option.some.inj hj
        omega
      | succ j =>
        have hnext : ∀ item ∈ items.head?, item.level ≤ n := by
          intro item hitem
          have hstep := (List.isChain_cons.mp hsteady).1 item hitem
          omega
        obtain ⟨i, hi, hlevel⟩ := ih (List.isChain_cons.mp hsteady).2 hnext hj
        exact ⟨i + 1, Nat.succ_lt_succ hi, hlevel⟩

end Outline

/-! ### Writing trees of labels down -/

namespace LabelTree

/-- The items of trees whose roots are on a level: each in front of what is below it. -/
def items (level : Nat) : List LabelTree → List OutlineItem
  | [] => []
  | .node label below :: rest => ⟨level, label⟩ :: (items (level + 1) below ++ items level rest)

@[simp]
theorem items_nil (level : Nat) : items level [] = [] := by
  rw [items]

@[simp]
theorem items_cons (level : Nat) (label : Bytes) (below rest : List LabelTree) :
    items level (.node label below :: rest) =
      ⟨level, label⟩ :: (items (level + 1) below ++ items level rest) := by
  rw [items]

theorem items_cons_append (level : Nat) (t : LabelTree) (ts : List LabelTree) :
    items level (t :: ts) = items level [t] ++ items level ts := by
  obtain ⟨label, below⟩ := t
  simp

theorem le_of_mem_items {level : Nat} {ts : List LabelTree} {item : OutlineItem}
    (h : item ∈ items level ts) : level ≤ item.level := by
  induction level, ts using items.induct with
  | case1 level => simp at h
  | case2 level label below rest ihbelow ihrest =>
    rw [items_cons, List.mem_cons, List.mem_append] at h
    rcases h with rfl | h | h
    · exact Nat.le_refl level
    · exact Nat.le_of_succ_le (ihbelow h)
    · exact ihrest h

theorem level_of_mem_head? {level : Nat} {ts : List LabelTree} {item : OutlineItem}
    (h : item ∈ (items level ts).head?) : item.level = level := by
  cases ts with
  | nil => simp at h
  | cons t ts =>
    obtain ⟨label, below⟩ := t
    rw [items_cons, List.head?_cons, Option.mem_some_iff] at h
    rw [← h]

theorem steady_items (level : Nat) (ts : List LabelTree) : Outline.Steady (items level ts) := by
  induction level, ts using items.induct with
  | case1 level =>
    rw [items_nil]
    exact List.isChain_nil
  | case2 level label below rest ihbelow ihrest =>
    have hall : ∀ a ∈ ⟨level, label⟩ :: items (level + 1) below, level ≤ a.level := by
      refine List.forall_mem_cons.mpr ⟨Nat.le_refl level, fun a ha => ?_⟩
      exact Nat.le_of_succ_le (le_of_mem_items ha)
    have hbelow : Outline.Steady (⟨level, label⟩ :: items (level + 1) below) := by
      refine List.isChain_cons.mpr ⟨fun b hb => ?_, ihbelow⟩
      exact Nat.le_of_eq (level_of_mem_head? hb)
    rw [items_cons, ← List.cons_append]
    refine List.isChain_append.mpr ⟨hbelow, ihrest, fun a ha b hb => ?_⟩
    have hle := hall a (List.mem_of_mem_getLast? ha)
    have hb := level_of_mem_head? hb
    omega

/-- Cutting an outline into pieces gives its trees back. -/
theorem forest_items (level : Nat) (ts : List LabelTree) : forest level (items level ts) = ts := by
  induction level, ts using items.induct with
  | case1 level => rw [items_nil, forest]
  | case2 level label below rest ihbelow ihrest =>
    have hdeeper : ∀ a ∈ items (level + 1) below, decide (level < a.level) = true :=
      fun a ha => decide_eq_true (le_of_mem_items ha)
    have hstop : (items level rest).takeWhile (fun a => decide (level < a.level)) = [] ∧
        (items level rest).dropWhile (fun a => decide (level < a.level)) = items level rest := by
      cases rest with
      | nil => simp
      | cons t rest =>
        obtain ⟨label, below⟩ := t
        simp
    rw [items_cons, forest, List.takeWhile_append_of_pos hdeeper,
      List.dropWhile_append_of_pos hdeeper, hstop.1, hstop.2, List.append_nil, ihbelow, ihrest]

end LabelTree

/-! ### Reading back what was written down -/

namespace Outline

open LabelTree

variable {all before behind : List OutlineItem} {level : Nat}

theorem level?_append_left {xs : List OutlineItem} {i : Nat} (h : i < xs.length)
    (ys : List OutlineItem) : level? (xs ++ ys) i = level? xs i := by
  rw [level?, level?, List.getElem?_append_left h]

theorem level?_append_right (xs ys : List OutlineItem) (i : Nat) :
    level? (xs ++ ys) (xs.length + i) = level? ys i := by
  rw [level?, level?, List.getElem?_append_right (Nat.le_add_right _ _), Nat.add_sub_cancel_left]

theorem level?_at {a : OutlineItem} {xs : List OutlineItem} (hall : all = before ++ a :: xs) :
    level? all before.length = some a.level := by
  rw [hall]
  exact level?_append_right before (a :: xs) 0

theorem level?_behind {a : OutlineItem} {xs : List OutlineItem} (hall : all = before ++ a :: xs)
    (i : Nat) : level? all (before.length + 1 + i) = level? xs i := by
  rw [hall, Nat.add_assoc, Nat.add_comm 1, level?_append_right]
  rfl

theorem level?_of_lt {xs : List OutlineItem} {i : Nat} (h : i < xs.length) :
    ∃ b ∈ xs, level? xs i = some b.level :=
  ⟨xs[i], List.getElem_mem h, by rw [level?, List.getElem?_eq_getElem h]; rfl⟩

theorem parent?_eq_some_iff {items : List OutlineItem} {i j : Nat} :
    parent? items j = some i ↔ i < j ∧ (level? items i).map (· + 1) = level? items j ∧
      ∀ k, i < k → k < j → (level? items k).map (· + 1) ≠ level? items j := by
  simp only [parent?, lastBelow_eq_some_iff, beq_iff_eq, beq_eq_false_iff_ne]

theorem Closes.items {ts : List LabelTree} (h : Closes level behind) :
    Closes level (LabelTree.items level ts ++ behind) := by
  constructor
  · refine List.isChain_append.mpr ⟨steady_items level ts, h.steady, fun a ha b hb => ?_⟩
    have ha := le_of_mem_items (List.mem_of_mem_getLast? ha)
    have hb := h.head b hb
    omega
  · intro item hitem
    rw [List.head?_append, Option.mem_def, Option.or_eq_some_iff] at hitem
    rcases hitem with hitem | ⟨_, hitem⟩
    · exact Nat.le_of_eq (level_of_mem_head? hitem)
    · exact h.head item hitem

theorem Closes.succ (h : Closes level behind) : Closes (level + 1) behind :=
  ⟨h.steady, fun item hitem => Nat.le_succ_of_le (h.head item hitem)⟩

/-- Of a range, only numbers in an interval have some property. -/
theorem filter_range_interval {p q : Nat → Bool} {lo n total : Nat} (htotal : lo + n ≤ total)
    (hout : ∀ j < total, p j = true → lo ≤ j ∧ j < lo + n)
    (hin : ∀ i < n, p (lo + i) = q (lo + i)) :
    (List.range total).filter p = (List.range' lo n).filter q := by
  obtain ⟨more, rfl⟩ := Nat.exists_eq_add_of_le htotal
  have hsplit : List.range (lo + n + more) =
      List.range' 0 lo ++ List.range' lo n ++ List.range' (lo + n) more := by
    have hfirst : List.range' 0 lo ++ List.range' lo n = List.range' 0 (lo + n) := by
      simpa using List.range'_append_1 (s := 0) (m := lo) (n := n)
    have hall : List.range' 0 (lo + n) ++ List.range' (lo + n) more
        = List.range' 0 (lo + n + more) := by
      simpa using List.range'_append_1 (s := 0) (m := lo + n) (n := more)
    rw [hfirst, hall, List.range_eq_range']
  have hbelow : (List.range' 0 lo).filter p = [] := by
    refine List.filter_eq_nil_iff.mpr fun j hj hp => ?_
    have hj := List.mem_range'_1.mp hj
    have hp := hout j (by omega) hp
    omega
  have habove : (List.range' (lo + n) more).filter p = [] := by
    refine List.filter_eq_nil_iff.mpr fun j hj hp => ?_
    have hj := List.mem_range'_1.mp hj
    have hp := hout j (by omega) hp
    omega
  have hmiddle : (List.range' lo n).filter p = (List.range' lo n).filter q := by
    refine List.filter_congr fun j hj => ?_
    have hj := List.mem_range'_1.mp hj
    obtain ⟨i, rfl⟩ := Nat.exists_eq_add_of_le hj.1
    exact hin i (by omega)
  rw [hsplit, List.filter_append, List.filter_append, hbelow, habove, hmiddle, List.nil_append,
    List.append_nil]

/-- The items that belong to an item are among those right behind it, as far as these are deeper. -/
theorem childrenAt_eq {a : OutlineItem} {inner : List OutlineItem}
    (hall : all = before ++ a :: (inner ++ behind)) (hinner : ∀ b ∈ inner, a.level < b.level)
    (hbehind : Closes a.level behind) :
    childrenAt all before.length =
      (List.range' (before.length + 1) inner.length).filter
        fun j => level? all j == some (a.level + 1) := by
  have hself := level?_at hall
  have hnext := level?_behind hall
  have hlength : all.length = before.length + 1 + inner.length + behind.length := by
    rw [hall, List.length_append, List.length_cons, List.length_append]
    omega
  refine filter_range_interval (by omega) ?_ ?_
  · -- an item further behind has a closer one on the same level
    intro j hj hparent
    obtain ⟨hlt, hstep, hclosest⟩ := parent?_eq_some_iff.mp (beq_iff_eq.mp hparent)
    refine ⟨hlt, Nat.lt_of_not_le fun hle => ?_⟩
    obtain ⟨m, rfl⟩ := Nat.exists_eq_add_of_le hle
    rw [hself, Nat.add_assoc, hnext, level?_append_right] at hstep
    obtain ⟨i, hi, hlevel⟩ := exists_level hbehind.steady hbehind.head hstep.symm
    refine hclosest (before.length + 1 + (inner.length + i)) (by omega) (by omega) ?_
    rw [Nat.add_assoc _ _ m, hnext, hnext, level?_append_right, level?_append_right, hlevel,
      ← hstep]
  · intro i hi
    have hlevel := hnext i
    rw [level?_append_left hi] at hlevel
    rw [Bool.eq_iff_iff, beq_iff_eq, beq_iff_eq, parent?_eq_some_iff, hself]
    constructor
    · rintro ⟨_, hstep, _⟩
      exact hstep.symm
    · intro hstep
      refine ⟨by omega, hstep.symm, fun k hk hki => ?_⟩
      obtain ⟨m, rfl⟩ := Nat.exists_eq_add_of_le hk
      have hm : m < inner.length := by omega
      obtain ⟨b, hb, hblevel⟩ := level?_of_lt hm
      have hdeeper := hinner b hb
      have hmlevel : level? all (before.length.succ + m) = some b.level := by
        rw [← hblevel, ← level?_append_left hm behind]
        exact hnext m
      rw [hmlevel, hstep, Option.map_some, Ne, Option.some.injEq]
      omega

/-- The items of trees, wherever they stand, are read as these trees. -/
theorem map_treeAt_items (level : Nat) (ts : List LabelTree)
    (hall : all = before ++ (items level ts ++ behind)) (hbehind : Closes level behind) :
    ((List.range' before.length (items level ts).length).filter
      fun j => level? all j == some level).map (treeAt all) = ts := by
  induction level, ts using items.induct generalizing before behind with
  | case1 level =>
    rw [items_nil]
    rfl
  | case2 level label below rest ihbelow ihrest =>
    have hdeeper : ∀ b ∈ items (level + 1) below, level < b.level := fun b hb => le_of_mem_items hb
    have hrest : Closes level (items level rest ++ behind) := hbehind.items
    rw [items_cons, List.cons_append, List.append_assoc] at hall
    have hroot : level? all before.length = some level := level?_at hall
    have hlabel : all[before.length]? = some ⟨level, label⟩ := by
      rw [hall, List.getElem?_append_right (Nat.le_refl _), Nat.sub_self]
      rfl
    have htree : treeAt all before.length = .node label below := by
      have hfront : all = (before ++ [⟨level, label⟩]) ++
          (items (level + 1) below ++ (items level rest ++ behind)) := by
        rw [hall, List.append_assoc, List.singleton_append]
      have hchildren := ihbelow hfront hrest.succ
      rw [List.length_append, List.length_singleton] at hchildren
      rw [treeAt_eq, hlabel, childrenAt_eq hall hdeeper hrest, hchildren]
      rfl
    have hbelow : (List.range' (before.length + 1) (items (level + 1) below).length).filter
        (fun j => level? all j == some level) = [] := by
      refine List.filter_eq_nil_iff.mpr fun j hj hlevel => ?_
      have hj := List.mem_range'_1.mp hj
      obtain ⟨i, rfl⟩ := Nat.exists_eq_add_of_le hj.1
      have hi : i < (items (level + 1) below).length := by omega
      obtain ⟨b, hb, hblevel⟩ := level?_of_lt hi
      have hlt := hdeeper b hb
      rw [level?_behind hall, level?_append_left hi, hblevel, beq_iff_eq, Option.some.injEq] at hlevel
      omega
    have hothers : ((List.range' (before.length + 1 + (items (level + 1) below).length)
        (items level rest).length).filter fun j => level? all j == some level).map (treeAt all)
          = rest := by
      have hfront : all = (before ++ ⟨level, label⟩ :: items (level + 1) below) ++
          (items level rest ++ behind) := by
        rw [hall, List.append_assoc, List.cons_append]
      have hread := ihrest hfront hbehind
      rw [List.length_append, List.length_cons] at hread
      rwa [Nat.add_assoc, Nat.add_comm 1]
    rw [items_cons, List.length_cons, List.length_append, List.range'_succ, ← List.range'_append_1,
      List.filter_cons_of_pos (by rw [hroot, beq_self_eq_true]), List.filter_append, hbelow,
      List.nil_append, List.map_cons, htree, hothers]

/-- The items that belong to none are those on the first level. -/
theorem parent?_eq_none_iff {items : List OutlineItem} {j : Nat} (hsteady : Steady items)
    (hhead : ∀ item ∈ items.head?, item.level = 0) (hj : j < items.length) :
    parent? items j = none ↔ level? items j = some 0 := by
  obtain ⟨b, _, hlevel⟩ := level?_of_lt hj
  rw [parent?, lastBelow_eq_none_iff, hlevel]
  constructor
  · intro hnone
    cases hb : b.level with
    | zero => rfl
    | succ n =>
      rw [hb] at hlevel hnone
      have hfirst : ∀ item ∈ items.head?, item.level ≤ n := fun item hitem =>
        Nat.le_trans (Nat.le_of_eq (hhead item hitem)) (Nat.zero_le n)
      obtain ⟨i, hi, hn⟩ := exists_level hsteady hfirst hlevel
      have hnot := hnone i hi
      rw [hn] at hnot
      simp at hnot
  · intro hzero k _
    rw [hzero]
    cases level? items k with
    | none => rfl
    | some n => rfl

/-- **Reading an outline by its levels gives back what was written down.** -/
theorem trees_items (ts : List LabelTree) : trees (items 0 ts) = ts := by
  have hroots : (List.range (items 0 ts).length).filter
      (fun j => parent? (items 0 ts) j == none) =
        (List.range' 0 (items 0 ts).length).filter
          fun j => level? (items 0 ts) j == some 0 := by
    rw [List.range_eq_range']
    refine List.filter_congr fun j hj => ?_
    have hj := (List.mem_range'_1.mp hj).2
    rw [Nat.zero_add] at hj
    have hnone := parent?_eq_none_iff (steady_items 0 ts) (fun item => level_of_mem_head?) hj
    rw [Bool.eq_iff_iff, beq_iff_eq, beq_iff_eq, hnone]
  have halone : items 0 ts = [] ++ (items 0 ts ++ []) := by rw [List.append_nil, List.nil_append]
  have hclosed : Closes 0 [] := ⟨List.isChain_nil, by simp⟩
  rw [trees, hroots]
  exact map_treeAt_items 0 ts halone hclosed

end Outline

/-! ### The outline of a tree -/

namespace Expr

/-- The label of a node; what has none has an empty one. -/
def caption (e : Expr π) : Bytes := e.label?.toOption.getD []

/-- The tree of the labels of all nodes. A missing part is a leaf of it. -/
def labelTree (e : Expr π) : LabelTree :=
  .node e.caption (e.children.attach.map fun c => c.1.labelTree)
termination_by e.size
decreasing_by exact size_lt_of_mem_children c.2

theorem labelTree_eq (e : Expr π) :
    e.labelTree = .node e.caption (e.children.map labelTree) := by
  rw [labelTree, List.attach_map_val]

theorem outlineAll_nil (level : Nat) : outlineAll level ([] : List (Expr π)) = pure [] := by
  rw [outlineAll]
  rfl

theorem outlineAll_cons (level : Nat) (e : Expr π) (es : List (Expr π)) :
    outlineAll level (e :: es) = (do
      let first ← e.outline level
      let rest ← outlineAll level es
      pure (first ++ rest)) := by
  rw [outlineAll]

theorem outlineArgs_eq (level : Nat) (args : List (Bytes × Expr π)) :
    outlineArgs level args = outlineAll level (args.map Prod.snd) := by
  induction args with
  | nil => rfl
  | cons a args ih => rw [outlineArgs, ih, List.map_cons, outlineAll_cons]

/-- An outline is the label of the node in front of the outlines of its children. -/
theorem outline_eq (level : Nat) (e : Expr π) :
    e.outline level = (do
      let label ← e.label?
      let inner ← outlineAll (level + 1) e.children
      pure (⟨level, label⟩ :: inner)) := by
  cases e with
  | absent k => rcases k with _ | (_ | _ | _ | _ | _ | _ | _ | _) <;> rfl
  | ident | literal | foreign => rfl
  | group es s => rfl
  | binary | assign | prefixed =>
    simp [outline, children, outlineAll_cons, outlineAll_nil, -bind_pure_comp]
  | call f args s =>
    simp [outline, children, outlineAll_cons, outlineArgs_eq, -bind_pure_comp]

theorem isStub_of_containsStub {e : Expr π} (h : e.containsStub = false) : e.isStub = false := by
  rw [containsStub_eq_any, Bool.or_eq_false_iff] at h
  exact h.1

/-- Only stubs have no label. -/
theorem label?_eq_caption {e : Expr π} (h : e.isStub = false) : e.label? = .ok e.caption := by
  cases e with
  | absent k =>
    cases k with
    | none => rfl
    | some k => cases h
  | ident | literal | binary | prefixed | group | call | assign | foreign => rfl

theorem outlineAll_eq_items {level : Nat} {es : List (Expr π)}
    (h : ∀ e ∈ es, e.outline level = .ok (LabelTree.items level [e.labelTree])) :
    outlineAll level es = .ok (LabelTree.items level (es.map labelTree)) := by
  induction es with
  | nil => rw [outlineAll, List.map_nil, LabelTree.items_nil]
  | cons e es ih =>
    obtain ⟨he, hes⟩ := List.forall_mem_cons.mp h
    rw [outlineAll_cons, he, ih hes, List.map_cons, labelTree_eq]
    simp [bind, Except.bind, pure, Except.pure]

/-- The outline of a tree without stubs is its tree of labels, written down. -/
theorem outline_eq_items {e : Expr π} (h : e.containsStub = false) (level : Nat) :
    e.outline level = .ok (LabelTree.items level [e.labelTree]) := by
  induction e using induct_children generalizing level with
  | h e ih =>
    have hinner := outlineAll_eq_items fun c hc =>
      ih c hc (containsStub_of_mem_children hc h) (level + 1)
    rw [outline_eq, label?_eq_caption (isStub_of_containsStub h), hinner, labelTree_eq]
    simp [bind, Except.bind, pure, Except.pure]

/-! ### The items that are no missing parts -/

/-- A node that is present is not labelled like a missing one. -/
theorem caption_ne_nil {e : Expr π} (h : e.isAbsent = false) : e.caption ≠ utf8 "nil" := by
  have hfirst : e.caption.head? ≠ some 0x6E := by
    cases e with
    | absent k => cases h
    | ident | literal | binary | prefixed | group | assign | foreign =>
      exact fun h => absurd (Option.some.inj h) (by decide)
    | call f args s =>
      show (if List.isEmpty _ then utf8 "call" else utf8 "call " ++ _).head? ≠ some 0x6E
      split
      · decide
      · exact fun h => absurd (Option.some.inj h) (by decide)
  intro heq
  rw [heq] at hfirst
  exact hfirst rfl

theorem caption_of_isAbsent {e : Expr π} (h : e.isAbsent = true) (hstub : e.isStub = false) :
    e.caption = utf8 "nil" := by
  cases e with
  | absent k =>
    cases k with
    | none => rfl
    | some k => cases hstub
  | ident | literal | binary | prefixed | group | call | assign | foreign => cases h

/-- The labels of items, without those of missing parts. -/
def captions (items : List OutlineItem) : List Bytes :=
  (items.filter fun item => item.label != utf8 "nil").map OutlineItem.label

theorem captions_append (xs ys : List OutlineItem) :
    captions (xs ++ ys) = captions xs ++ captions ys := by
  rw [captions, List.filter_append, List.map_append, captions, captions]

theorem captions_singleton (item : OutlineItem) :
    captions [item] = if item.label = utf8 "nil" then [] else [item.label] := by
  by_cases h : item.label = utf8 "nil" <;> simp [captions, h]

theorem captions_items {level : Nat} {es : List (Expr π)}
    (h : ∀ e ∈ es, captions (LabelTree.items level [e.labelTree]) = e.nodes.map caption) :
    captions (LabelTree.items level (es.map labelTree)) = (es.flatMap nodes).map caption := by
  induction es with
  | nil => simp [captions]
  | cons e es ih =>
    obtain ⟨he, hes⟩ := List.forall_mem_cons.mp h
    rw [List.map_cons, LabelTree.items_cons_append, captions_append, he, ih hes, List.flatMap_cons,
      List.map_append]

/-- Without the items of missing parts, the items are those of the nodes that are present. -/
theorem captions_labelTree {e : Expr π} (h : e.containsStub = false) (level : Nat) :
    captions (LabelTree.items level [e.labelTree]) = e.nodes.map caption := by
  induction e using induct_children generalizing level with
  | h e ih =>
    have hinner := captions_items fun c hc =>
      ih c hc (containsStub_of_mem_children hc h) (level + 1)
    rw [labelTree_eq, LabelTree.items_cons, LabelTree.items_nil, List.append_nil,
      ← List.singleton_append, captions_append, hinner]
    by_cases he : e.isAbsent = true
    · have hnil := caption_of_isAbsent he (isStub_of_containsStub h)
      rw [captions_singleton, if_pos hnil, nodes_of_isAbsent he, children_of_isAbsent he]
      rfl
    · have hpresent := Bool.eq_false_iff.mpr he
      rw [captions_singleton, if_neg (caption_ne_nil hpresent), nodes_of_present hpresent,
        List.map_cons]
      rfl

end Expr

open RelaxArith.Expr

/-- **An outline determines the tree that it was made of.** Every node of a tree without stubs has a
label. The outline is the same as that of the tree of labels, to which it is read back by its levels
and by cutting it into pieces; missing parts are leaves of it. Levels begin at zero and never rise by
more than one. And without the items of missing parts, an outline lists the nodes in the order of a
walk. -/
theorem outline_determines_tree {e : Expr π} (h : e.containsStub = false) :
    (∀ x : Expr π, x.Inside e → x.label? = .ok x.caption) ∧
    (∀ x : Expr π, x.Inside e → x.isAbsent = true → x.labelTree = .node (utf8 "nil") []) ∧
    ∃ items : List OutlineItem, e.outline 0 = .ok items ∧
      Outline.trees items = [e.labelTree] ∧ LabelTree.forest 0 items = [e.labelTree] ∧
      items.head?.map OutlineItem.level = some 0 ∧
      (items.IsChain fun a b => b.level ≤ a.level + 1) ∧
      (items.filter fun item => item.label != utf8 "nil").map OutlineItem.label =
        (e.walk (fun x called => (true, called ++ [x])) []).map caption := by
  have hstub : ∀ x : Expr π, x.Inside e → x.isStub = false := by
    intro x hx
    refine isStub_of_containsStub (Bool.eq_false_iff.mpr fun hx' => ?_)
    rw [containsStub_of_inside hx hx'] at h
    cases h
  refine ⟨fun x hx => label?_eq_caption (hstub x hx), fun x hx hmissing => ?_,
    LabelTree.items 0 [e.labelTree], outline_eq_items h 0, Outline.trees_items _,
    LabelTree.forest_items 0 _, ?_, LabelTree.steady_items 0 _, ?_⟩
  · rw [labelTree_eq, caption_of_isAbsent hmissing (hstub x hx), children_of_isAbsent hmissing]
    rfl
  · rw [labelTree_eq, LabelTree.items_cons]
    rfl
  · rw [walk_collecting]
    exact captions_labelTree h 0

/-- A call with a label, and with a missing argument behind it. -/
def outlineExample : Expr Unit :=
  .call (.ident (utf8 "f") .null)
    [(utf8 "by", .prefixed (utf8 "-") (.ident (utf8 "x") .null) .null), ([], .absent none)] .null

example : outlineExample.outline 0 =
    .ok [⟨0, utf8 "call by:"⟩, ⟨1, utf8 "identifier f"⟩, ⟨1, utf8 "prefix -"⟩,
      ⟨2, utf8 "identifier x"⟩, ⟨1, utf8 "nil"⟩] := rfl

theorem outline_determines_tree_outlineExample :
    outlineExample.containsStub = false ∧
    (∀ x : Expr Unit, x.Inside outlineExample → x.label? = .ok x.caption) ∧
    (∀ x : Expr Unit, x.Inside outlineExample → x.isAbsent = true →
      x.labelTree = .node (utf8 "nil") []) ∧
    ∃ items : List OutlineItem, outlineExample.outline 0 = .ok items ∧
      Outline.trees items = [outlineExample.labelTree] ∧
      LabelTree.forest 0 items = [outlineExample.labelTree] ∧
      items.head?.map OutlineItem.level = some 0 ∧
      (items.IsChain fun a b => b.level ≤ a.level + 1) ∧
      (items.filter fun item => item.label != utf8 "nil").map OutlineItem.label =
        (outlineExample.walk (fun x called => (true, called ++ [x])) []).map caption :=
  ⟨rfl, outline_determines_tree rfl⟩

end RelaxArith
