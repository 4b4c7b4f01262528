/-
Relaxing keeps a consistent map of positions.

A message about a relaxed tree points into the text of the tree that it was made from, so the spans
of a relaxed tree have to be spans of that tree, one inside the other.  They get there in four ways:
a node that is rebuilt keeps its span, a call takes the span of the operation that it replaces, a
negation and its grouping take that of the operand, and the copy of a target has those of the target.

What holds in the end is said node by node.  A node that has a position has one that is in the tree,
and every child of a node lies within it, but for the callee of a call that a rule put in: that is a
name that was never written, and has no position at all.
-/
import RelaxArith.Proofs.Congruence
import RelaxArith.Proofs.Parser.Spans

namespace RelaxArith

open Grammar RelaxArith.Expr

variable {π : Type}

namespace Expr

/-- A node has a position, and one within a span. -/
def NotedWithin (x : Expr π) (s : Span) : Prop := x.span.isNull = false ∧ x.span.Within s

/-- A node that is there and has a position, with its children within it. -/
structure IsPlaced (x : Expr π) : Prop where
  present : x.isAbsent = false
  noted : x.span.isNull = false
  nested : ∀ c ∈ x.children, c.span.Within x.span

/-- Every node of a tree is there and has a position within that of its parent. -/
def Placed (e : Expr π) : Prop := e.All IsPlaced

theorem Placed.child {e c : Expr π} (h : e.Placed) (hc : c ∈ e.children) : c.Placed :=
  (all_iff_children.mp h).2 c hc

/-- A child has a position, and one within that of its parent. -/
theorem Placed.notedWithin {e c : Expr π} (h : e.Placed) (hc : c ∈ e.children) :
    c.NotedWithin e.span :=
  ⟨(h.child hc).node.noted, h.node.nested c hc⟩

end Expr

/-! ### Parsed trees -/

/-- The tokens of a child are some of those of its parent. -/
theorem Grammar.DerivedWithin.isPlaced {s : Bytes} {ts : List Token} {x : Expr π}
    (h : DerivedWithin s ts x) (hts : Located s ts) : x.IsPlaced := by
  obtain ⟨us, k, hus, _, _, hderives⟩ := h
  have hord := (hts.of_isInfix hus).ordered
  have hcovers := hderives.covers hord k x rfl
  have hroom := hcovers.room hord
  have hnodes : x.All (DerivedWithin s us) := hderives.nodes
  constructor
  · cases x with
    | absent => exact absurd hroom (Nat.lt_irrefl 0)
    | ident | literal | binary | prefixed | group | call | assign | foreign => rfl
  · have hhi : x.span.hi ≠ 0 := by omega
    simp [Span.isNull, hhi]
  · intro c hc
    obtain ⟨vs, j, hvs, _, _, hchild⟩ := ((all_iff_children.mp hnodes).2 c hc).node
    have hchild_ord := ((hts.of_isInfix hus).of_isInfix hvs).ordered
    exact (hchild.covers hchild_ord j c rfl).within hcovers hord hvs.subset

theorem placed_of_parse {s : Bytes} {e : Expr π} (h : parse s = .ok e) : e.Placed := by
  obtain ⟨ts, hspelled, hderives⟩ := parse_eq_ok_iff.mp h
  have hnodes : e.All (DerivedWithin s ts) := hderives.nodes
  exact hnodes.imp fun x hx => hx.isPlaced hspelled.located

/-! ### Relaxed trees -/

/-- The children of a node lie within it, or it is a call that a rule put in, and its operands do. -/
inductive IsLaidOut (rx : Relaxer) : Expr π → Prop
  | plain {x : Expr π} (h : ∀ c ∈ x.children, c.NotedWithin x.span) : IsLaidOut rx x
  | inserted {name : Bytes} {l r : Expr π} {s : Span} (hname : name ∈ [rx.sum, rx.product])
      (hl : l.NotedWithin s) (hr : r.NotedWithin s) :
      IsLaidOut rx (.call (.ident name .null) [([], l), ([], r)] s)

/-- What is known of each node of a tree that was made from another. -/
structure MadeFrom (rx : Relaxer) (e x : Expr π) : Prop where
  present : x.isAbsent = false
  laidOut : IsLaidOut rx x
  /-- A position is that of some node of the other tree. -/
  old : x.span.isNull = false → ∃ y : Expr π, y.Inside e ∧ y.span = x.span

namespace MadeFrom

variable {rx : Relaxer} {e x l r : Expr π} {s : Span}

theorem of_child {c : Expr π} (hc : c ∈ e.children) (h : MadeFrom rx c x) : MadeFrom rx e x := by
  refine ⟨h.present, h.laidOut, fun hnoted => ?_⟩
  obtain ⟨y, hy, hspan⟩ := h.old hnoted
  exact ⟨y, hy.of_child hc, hspan⟩

/-- A node that keeps the span of the tree. -/
theorem keeping (hpresent : x.isAbsent = false) (hspan : x.span = e.span)
    (h : ∀ c ∈ x.children, c.NotedWithin x.span) : MadeFrom rx e x :=
  ⟨hpresent, .plain h, fun _ => ⟨e, .refl, hspan.symm⟩⟩

/-- A node that is rebuilt of children made from those of the tree, all with their spans. -/
theorem rebuilt (he : e.Placed) (hpresent : x.isAbsent = false) (hspan : x.span = e.span)
    (h : ∀ c ∈ x.children, ∃ d ∈ e.children, c.span = d.span ∧ c.All (MadeFrom rx d)) :
    x.All (MadeFrom rx e) := by
  refine all_iff_children.mpr ⟨keeping hpresent hspan fun c hc => ?_, fun c hc => ?_⟩
  · obtain ⟨d, hd, hsame, _⟩ := h c hc
    rw [NotedWithin, hsame, hspan]
    exact he.notedWithin hd
  · obtain ⟨d, hd, _, hall⟩ := h c hc
    exact hall.imp fun y hy => hy.of_child hd

/-- A part that is passed by. -/
theorem self (he : e.Placed) : e.All (MadeFrom rx e) := by
  induction e using induct_children with
  | h e ih =>
    exact rebuilt he he.node.present rfl fun c hc => ⟨c, hc, rfl, ih c hc (he.child hc)⟩

/-- A negation and its grouping stand where the operand stands. -/
theorem negate (h : x.All (MadeFrom rx e)) (hnoted : x.span.isNull = false) :
    x.negate.All (MadeFrom rx e) := by
  have hold := h.node.old hnoted
  have hwithin : x.NotedWithin x.span := ⟨hnoted, Nat.le_refl _, Nat.le_refl _⟩
  rw [Expr.negate]
  by_cases hgroup : x.needsGrouping = true
  · rw [if_pos hgroup]
    have hgrouping : MadeFrom rx e (.group [x] x.span) :=
      ⟨rfl, .plain (List.forall_mem_singleton.mpr hwithin), fun _ => hold⟩
    have hsign : MadeFrom rx e (.prefixed (utf8 "-") (.group [x] x.span) x.span) :=
      ⟨rfl, .plain (List.forall_mem_singleton.mpr hwithin), fun _ => hold⟩
    exact ⟨hsign, hgrouping, h, trivial⟩
  · rw [if_neg hgroup]
    exact ⟨⟨rfl, .plain (List.forall_mem_singleton.mpr hwithin), fun _ => hold⟩, h⟩

/-- A call that a rule puts in takes the span of an operation; its callee has none. -/
theorem relaxedCall {name : Bytes} (hname : name ∈ [rx.sum, rx.product])
    (hl : l.All (MadeFrom rx e)) (hr : r.All (MadeFrom rx e)) (hls : l.NotedWithin s)
    (hrs : r.NotedWithin s) (hs : ∃ y : Expr π, y.Inside e ∧ y.span = s) :
    (Relaxer.withSpan s (Relaxer.relaxedCall name l r)).All (MadeFrom rx e) := by
  have hcallee : MadeFrom rx e (.ident name .null) :=
    ⟨rfl, .plain fun c hc => absurd hc List.not_mem_nil, fun hnoted => Bool.noConfusion hnoted⟩
  exact ⟨⟨rfl, .inserted hname hls hrs, fun _ => hs⟩, hcallee, hl, hr, trivial⟩

theorem combine {c : Combine} (hc : c ∈ Combine.arithmetic)
    (hl : l.All (MadeFrom rx e)) (hr : r.All (MadeFrom rx e)) (hls : l.NotedWithin s)
    (hrs : r.NotedWithin s) (hs : ∃ y : Expr π, y.Inside e ∧ y.span = s) :
    (Relaxer.withSpan s (rx.combine c l r)).All (MadeFrom rx e) := by
  obtain ⟨name, hname, x, hx, hcombine⟩ := rx.combine_eq_relaxedCall hc l r
  rw [hcombine]
  rcases hx with rfl | rfl
  · exact relaxedCall hname hl hr hls hrs hs
  · exact relaxedCall hname hl (negate hr hrs.1) hls hrs hs

/-- Nothing is missing, so the copy of a target is the target. -/
theorem withoutStubs_eq (h : x.All (MadeFrom rx e)) : x.withoutStubs = x :=
  Expr.withoutStubs_eq (containsStub_of_all_present (h.imp fun _ hy => hy.present))

end MadeFrom

/-- Combinations of the standard table make calls, which take the span. -/
theorem span_withSpan_combine {rx : Relaxer} {c : Combine} (hc : c ∈ Combine.arithmetic)
    (s : Span) (l r : Expr π) : (Relaxer.withSpan s (rx.combine c l r)).span = s := by
  obtain ⟨name, _, x, _, hcombine⟩ := rx.combine_eq_relaxedCall hc l r
  rw [hcombine]
  rfl

/-- The step at an operation, with operands made from the operands, all with their spans. -/
theorem madeFrom_applyRule {rx : Relaxer} (htable : rx.table = .standard) {op : Bytes}
    {s : Span} {l r l' r' : Expr π} (he : (Expr.binary op l r s).Placed)
    (hl : l'.span = l.span ∧ l'.All (MadeFrom rx l))
    (hr : r'.span = r.span ∧ r'.All (MadeFrom rx r)) :
    (rx.applyRule (rx.ruleFor op) op s l' r').span = s ∧
    (rx.applyRule (rx.ruleFor op) op s l' r').All (MadeFrom rx (.binary op l r s)) := by
  have hlmem : l ∈ (Expr.binary op l r s).children := List.mem_cons_self
  have hrmem : r ∈ (Expr.binary op l r s).children := List.mem_cons_of_mem l List.mem_cons_self
  have hls : l'.NotedWithin s := by
    rw [NotedWithin, hl.1]
    exact he.notedWithin hlmem
  have hrs : r'.NotedWithin s := by
    rw [NotedWithin, hr.1]
    exact he.notedWithin hrmem
  have hl' := hl.2.imp fun x hx => hx.of_child hlmem
  have hr' := hr.2.imp fun x hx => hx.of_child hrmem
  rcases Relaxer.ruleFor_standard_cases htable op with
    ⟨_, c, hc, hrule⟩ | ⟨_, c, hc, hrule⟩ | ⟨_, hrule⟩
  · rw [hrule, Relaxer.applyRule, MadeFrom.withoutStubs_eq hl.2]
    have hvalue := MadeFrom.combine hc hl' hr' hls hrs ⟨_, .refl, rfl⟩
    have hwithin : (Relaxer.withSpan s (rx.combine c l' r')).NotedWithin s := by
      rw [NotedWithin, span_withSpan_combine hc]
      exact ⟨he.node.noted, Nat.le_refl _, Nat.le_refl _⟩
    refine ⟨rfl, .keeping rfl rfl ?_, hl', hvalue⟩
    exact List.forall_mem_cons.mpr ⟨hls, List.forall_mem_singleton.mpr hwithin⟩
  · rw [hrule, Relaxer.applyRule]
    have hcall := MadeFrom.combine hc hl' hr' hls hrs ⟨_, .refl, rfl⟩
    exact ⟨span_withSpan_combine hc s l' r', hcall⟩
  · rw [hrule, Relaxer.applyRule]
    refine ⟨rfl, MadeFrom.rebuilt he rfl rfl (List.forall_mem_cons.mpr ⟨?_, ?_⟩)⟩
    · exact ⟨l, hlmem, hl⟩
    · exact List.forall_mem_singleton.mpr ⟨r, hrmem, hr⟩

/-- Every node of the relaxed tree is accounted for by the tree. -/
theorem madeFrom_relax {rx : Relaxer} (htable : rx.table = .standard) {e : Expr π}
    (he : e.Placed) : (rx.relax e).span = e.span ∧ (rx.relax e).All (MadeFrom rx e) := by
  induction e with
  | absent k => exact Bool.noConfusion he.node.present
  | ident | literal | foreign => exact ⟨rfl, MadeFrom.self he⟩
  | binary op l r s ihl ihr =>
    have hl := ihl (he.child List.mem_cons_self)
    have hr := ihr (he.child (List.mem_cons_of_mem l List.mem_cons_self))
    exact madeFrom_applyRule htable he hl hr
  | prefixed op x s ih =>
    have hx := ih (he.child List.mem_cons_self)
    rw [Relaxer.relax]
    by_cases hnested : rx.nested = true
    · rw [if_pos hnested]
      refine ⟨rfl, MadeFrom.rebuilt he rfl rfl ?_⟩
      exact List.forall_mem_singleton.mpr ⟨x, List.mem_cons_self, hx⟩
    · rw [if_neg hnested]
      exact ⟨rfl, MadeFrom.self he⟩
  | group es s ih =>
    rw [Relaxer.relax, Relaxer.relaxAll_eq_map]
    refine ⟨rfl, MadeFrom.rebuilt he rfl rfl ?_⟩
    exact List.forall_mem_map.mpr fun e hmem => ⟨e, hmem, ih e hmem (he.child hmem)⟩
  | call f args s _ ih =>
    have hvalue : ∀ a ∈ args, a.2 ∈ (Expr.call f args s).children := fun a ha =>
      List.mem_cons_of_mem f (List.mem_map_of_mem ha)
    rw [Relaxer.relax, Relaxer.relaxArgs_eq_map]
    refine ⟨rfl, MadeFrom.rebuilt he rfl rfl (List.forall_mem_cons.mpr ⟨?_, ?_⟩)⟩
    · exact ⟨f, List.mem_cons_self, rfl, MadeFrom.self (he.child List.mem_cons_self)⟩
    · rw [List.map_map]
      refine List.forall_mem_map.mpr fun a ha => ?_
      exact ⟨a.2, hvalue a ha, ih a ha (he.child (hvalue a ha))⟩
  | assign t v s iht ihv =>
    have hvmem : v ∈ (Expr.assign t v s).children := List.mem_cons_of_mem t List.mem_cons_self
    have ht := iht (he.child List.mem_cons_self)
    have hv := ihv (he.child hvmem)
    rw [Relaxer.relax]
    by_cases hnested : rx.nested = true
    · rw [if_pos hnested]
      refine ⟨rfl, MadeFrom.rebuilt he rfl rfl (List.forall_mem_cons.mpr ⟨?_, ?_⟩)⟩
      · exact ⟨t, List.mem_cons_self, ht⟩
      · exact List.forall_mem_singleton.mpr ⟨v, hvmem, hv⟩
    · rw [if_neg hnested]
      exact ⟨rfl, MadeFrom.self he⟩

/-- A child without a position is the callee of a call that a rule put in. -/
theorem IsLaidOut.callee_of_isNull {rx : Relaxer} {x c : Expr π} (h : IsLaidOut rx x)
    (hc : c ∈ x.children) (hnull : c.span.isNull = true) :
    ∃ name ∈ [rx.sum, rx.product], c = .ident name .null ∧
      ∃ l r s, x = .call c [([], l), ([], r)] s := by
  cases h with
  | plain h => exact absurd hnull (Bool.eq_false_iff.mp (h c hc).1)
  | @inserted name l r s hname hl hr =>
    rcases List.mem_cons.mp hc with rfl | hoperand
    · exact ⟨name, hname, rfl, l, r, s, rfl⟩
    · rcases List.mem_cons.mp hoperand with rfl | hright
      · exact absurd hnull (Bool.eq_false_iff.mp hl.1)
      · rw [List.mem_singleton.mp hright] at hnull
        exact absurd hnull (Bool.eq_false_iff.mp hr.1)

/-- **Relaxing keeps a consistent map of positions.** Every node of a parsed tree has a position, and
one within that of its parent. Of a tree with that, however it came about, the relaxed tree has the
span of the tree; the only nodes in it without a position are the callees of calls that were put in
for operations; every other child of a node has a position within that of the node; and every position
is that of some node of the tree. -/
theorem relax_keeps_positions {rx : Relaxer} (htable : rx.table = .standard) (e : Expr π) :
    (∀ s, parse s = .ok e → e.Placed) ∧
    (e.Placed →
      (rx.relax e).span = e.span ∧
      (∀ x : Expr π, x.Inside (rx.relax e) → x.span.isNull = true →
        ∃ name ∈ [rx.sum, rx.product], x = .ident name .null ∧
          ∃ l r s, (Expr.call x [([], l), ([], r)] s).Inside (rx.relax e)) ∧
      (∀ x : Expr π, x.Inside (rx.relax e) → IsLaidOut rx x) ∧
      (∀ x : Expr π, x.Inside (rx.relax e) → x.span.isNull = false →
        ∃ y : Expr π, y.Inside e ∧ y.span = x.span)) := by
  refine ⟨fun s h => placed_of_parse h, fun he => ?_⟩
  obtain ⟨hspan, hnodes⟩ := madeFrom_relax htable he
  have hmade := all_iff_inside.mp hnodes
  refine ⟨hspan, ?_, fun x hx => (hmade x hx).laidOut, fun x hx => (hmade x hx).old⟩
  intro x hx hnull
  rcases Relation.ReflTransGen.cases_head hx with rfl | ⟨p, hchild, hp⟩
  · rw [hspan, he.node.noted] at hnull
    cases hnull
  · obtain ⟨name, hname, hident, l, r, s, rfl⟩ := (hmade p hp).laidOut.callee_of_isNull hchild hnull
    exact ⟨name, hname, hident, l, r, s, hp⟩

theorem relax_keeps_positions_parsedExample :
    Relaxer.standard.table = .standard ∧ parse (utf8 "-(a+v[ 1 ])*f(x :\t2)") = .ok parsedExample ∧
    parsedExample.Placed ∧
    Relaxer.standard.relax parsedExample
      = .call (.ident (utf8 "fastmath.Product") .null)
          [([], .prefixed (utf8 "-")
            (.group [.call (.ident (utf8 "fastmath.Sum") .null)
              [([], .ident (utf8 "a") ⟨2, 3⟩), ([], .foreign (utf8 "v[ 1 ]") none ⟨4, 10⟩)]
              ⟨2, 10⟩] ⟨1, 11⟩) ⟨0, 11⟩),
           ([], .call (.ident (utf8 "f") ⟨12, 13⟩)
            [(utf8 "x", .literal .number (utf8 "2") ⟨18, 19⟩)] ⟨12, 20⟩)] ⟨0, 20⟩ ∧
    (Relaxer.standard.relax parsedExample).span = parsedExample.span ∧
    (∀ x : Expr Unit, x.Inside (Relaxer.standard.relax parsedExample) → x.span.isNull = true →
      ∃ name ∈ [Relaxer.standard.sum, Relaxer.standard.product], x = .ident name .null ∧
        ∃ l r s, (Expr.call x [([], l), ([], r)] s).Inside (Relaxer.standard.relax parsedExample)) ∧
    (∀ x : Expr Unit, x.Inside (Relaxer.standard.relax parsedExample) →
      IsLaidOut Relaxer.standard x) ∧
    (∀ x : Expr Unit, x.Inside (Relaxer.standard.relax parsedExample) → x.span.isNull = false →
      ∃ y : Expr Unit, y.Inside parsedExample ∧ y.span = x.span) := by
  have htable : Relaxer.standard.table = .standard := rfl
  obtain ⟨hparsed, hpositions⟩ := relax_keeps_positions htable parsedExample
  have hplaced := hparsed _ parse_parsedExample
  exact ⟨rfl, parse_parsedExample, hplaced, rfl, hpositions hplaced⟩

end RelaxArith
