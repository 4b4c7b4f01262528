/-
Where the nodes of a tree were written.

Nobody hands a node its span: the parser puts it together from the spans of the parts and of the
marks around them.  That it comes out right is seen in two steps.  Every node of a tree was derived
from a row of neighbouring tokens of the input, at some level of the grammar; this is an induction
over derivations, and says nothing about spans.  The span of what was derived from a row covers the
row, which was shown for one node at a time, so the text that it cuts out has just these tokens and
is read as the same node.

A node below a node has a row inside the row of that node, so what is said of one node need not be
carried through the rules: a row inside a row inside the tokens of a text is a row of the text.
-/
import RelaxArith.Proofs.Printing.Parsed

namespace RelaxArith

open Grammar RelaxArith.Expr

variable {π : Type} {input : Bytes}

namespace Grammar

/-! ### Every node has a row of tokens -/

/-- Something holds of every node of the trees of a phrase. -/
def Phrase.All (p : Expr π → Prop) : Phrase π → Prop
  | .expr _ e => e.All p
  | .elements es => AllOf p es
  | .argument a => a.2.All p
  | .argumentList args => AllArgs p args
  | .arguments args => AllArgs p args

theorem Phrase.All.imp {p q : Expr π → Prop} (hpq : ∀ e, p e → q e) {phrase : Phrase π}
    (h : phrase.All p) : phrase.All q := by
  cases phrase with
  | expr k e => exact Expr.All.imp hpq h
  | argument a => exact Expr.All.imp hpq h
  | elements es =>
    refine allOf_iff.mpr ?_
    intro e he
    exact (allOf_iff.mp h e he).imp hpq
  | argumentList args | arguments args =>
    refine allArgs_iff.mpr ?_
    intro a ha
    exact (allArgs_iff.mp h a ha).imp hpq

/-- A tree was derived from neighbouring tokens of a row. -/
def DerivedWithin (input : Bytes) (ts : List Token) (x : Expr π) : Prop :=
  ∃ us k, us <:+: ts ∧ 1 ≤ k ∧ k ≤ 9 ∧ Derives input us (.expr k x)

theorem Derives.within {ts : List Token} {k : Nat} {x : Expr π} (h : Derives input ts (.expr k x))
    (hlo : 1 ≤ k) (hhi : k ≤ 9) : DerivedWithin input ts x :=
  ⟨ts, k, List.infix_rfl, hlo, hhi, h⟩

/-- Nodes that were derived within a row were derived within every longer row. -/
theorem Phrase.All.widen {ts us : List Token} {phrase : Phrase π}
    (h : phrase.All (DerivedWithin input us)) (hus : us <:+: ts) :
    phrase.All (DerivedWithin input ts) := by
  refine h.imp ?_
  intro x hx
  obtain ⟨vs, k, hvs, hlo, hhi, hderives⟩ := hx
  exact ⟨vs, k, hvs.trans hus, hlo, hhi, hderives⟩

/-- The tokens in front of a token and those behind it stand within the whole row. -/
theorem infix_before (ts us : List Token) : ts <:+: ts ++ us := (List.prefix_append ts us).isInfix

theorem infix_behind (ts : List Token) (t : Token) (us : List Token) : us <:+: ts ++ t :: us :=
  ⟨ts ++ [t], [], by simp⟩

theorem infix_between (ts : List Token) (o : Token) (us : List Token) (c : Token) :
    us <:+: ts ++ o :: (us ++ [c]) :=
  ⟨ts ++ [o], [c], by simp⟩

/-- **Every node was derived from neighbouring tokens** of the row of its tree. -/
theorem Derives.nodes {ts : List Token} {p : Phrase π} (h : Derives input ts p) :
    p.All (DerivedWithin input ts) := by
  induction h with
  | tighter _ _ _ ih => exact ih
  | assignment hl ht hr ihl ihr =>
    have hnode := (Derives.assignment hl ht hr).within (by omega) (by omega)
    exact ⟨hnode, ihl.widen (infix_before _ _), ihr.widen (infix_behind _ _ _)⟩
  | compound hl hcat hop hne hr ihl ihr =>
    have hnode := (Derives.compound hl hcat hop hne hr).within (by omega) (by omega)
    exact ⟨hnode, ihl.widen (infix_before _ _), ihr.widen (infix_behind _ _ _)⟩
  | operation hlo hhi hl hcat hop hr ihl ihr =>
    have hnode := (Derives.operation hlo hhi hl hcat hop hr).within (by omega) (by omega)
    exact ⟨hnode, ihl.widen (infix_before _ _), ihr.widen (infix_behind _ _ _)⟩
  | prefixed hcat hop hx ih =>
    have hnode := (Derives.prefixed hcat hop hx).within (by omega) (by omega)
    exact ⟨hnode, ih.widen (infix_behind [] _ _)⟩
  | call hf ho hargs hc ihf ihargs =>
    have hnode := (Derives.call hf ho hargs hc).within (by omega) (by omega)
    exact ⟨hnode, ihf.widen (infix_before _ _), ihargs.widen (infix_between _ _ _ _)⟩
  | subscript he ho hi hc =>
    exact (Derives.subscript he ho hi hc).within (by omega) (by omega)
  | name h => exact (Derives.name h).within (by omega) (by omega)
  | number h => exact (Derives.number h).within (by omega) (by omega)
  | text h => exact (Derives.text h).within (by omega) (by omega)
  | group ho hes hc ih =>
    have hnode := (Derives.group ho hes hc).within (by omega) (by omega)
    exact ⟨hnode, ih.widen (infix_between [] _ _ _)⟩
  | lastElement _ ih => exact ⟨ih, trivial⟩
  | nextElement _ _ _ ihe ihes =>
    exact ⟨ihe.widen (infix_before _ _), ihes.widen (infix_behind _ _ _)⟩
  | unlabeled _ ih => exact ih
  | labeled _ _ _ ih => exact ih.widen (infix_behind [_] _ _)
  | lastArgument _ ih => exact ⟨ih, trivial⟩
  | nextArgument _ _ _ iha ihargs =>
    exact ⟨iha.widen (infix_before _ _), ihargs.widen (infix_behind _ _ _)⟩
  | noArguments => trivial
  | someArguments _ ih => exact ih

end Grammar

/-! ### Spans -/

/-- A node was written in a text just where its span says. -/
structure Expr.Exact (s : Bytes) (x : Expr π) : Prop where
  /-- The node has a position. -/
  noted : x.span.isNull = false
  /-- It takes up room. -/
  room : x.span.lo < x.span.hi
  /-- It stands in the text. -/
  inside : x.span.hi ≤ s.length
  /-- It begins where some token begins. -/
  begins : ∃ t, .token t ∈ scan s ∧ t.span.lo = x.span.lo
  /-- It ends where some token ends. -/
  ends : ∃ t, .token t ∈ scan s ∧ t.span.hi = x.span.hi
  /-- What the span cuts out is read as the node. -/
  reads : ∃ x' : Expr π, parse (s.slice x.span.lo x.span.hi) = .ok x' ∧ x'.equal x = true

theorem Grammar.DerivedWithin.exact {s : Bytes} {ts : List Token} {x : Expr π}
    (h : DerivedWithin s ts x) (hspelled : Spelled 0 s [] ts) : x.Exact s := by
  obtain ⟨us, k, hus, hlo, hhi, hderives⟩ := h
  have hlocated := hspelled.located.of_isInfix hus
  have hcovers := hderives.covers hlocated.ordered k x rfl
  have hroom := hcovers.room hlocated.ordered
  have hmem : ∀ t ∈ us, ScanEvent.token t ∈ scan s := by
    intro t ht
    rw [scan_eq_iff.mpr hspelled]
    exact List.mem_map_of_mem (hus.subset ht)
  obtain ⟨x', hparse, herase⟩ := hderives.parse_slice hlo hhi hlocated
  obtain ⟨a, ha, b, hb, hspan⟩ := hcovers
  have hfirst := List.mem_of_mem_head? ha
  have hlast := List.mem_of_mem_getLast? hb
  refine ⟨?_, hroom, ?_, ⟨a, hmem a hfirst, by rw [hspan]⟩, ⟨b, hmem b hlast, by rw [hspan]⟩,
    x', hparse, equal_iff_erase.mpr herase⟩
  · have hhi : x.span.hi ≠ 0 := by omega
    simp [Span.isNull, hhi]
  · have hbound := hspelled.span b (hus.subset hlast)
    rw [hspan]
    show b.span.hi ≤ s.length
    omega

/-- **Spans are exact**: every node of a parsed tree, callees, values of arguments and elements of
groupings included, has a span that begins where a token begins and ends where a token ends, and
the text between these places, on its own, is parsed to an equal tree. -/
theorem exact_of_parse {s : Bytes} {e : Expr π} (h : parse s = .ok e) : e.All (Exact s) := by
  obtain ⟨ts, hspelled, hderives⟩ := parse_eq_ok_iff.mp h
  have hnodes : e.All (DerivedWithin s ts) := hderives.nodes
  refine hnodes.imp ?_
  intro x hx
  exact hx.exact hspelled

theorem exact_of_parse_parsedExample :
    parse (utf8 "-(a+v[ 1 ])*f(x :\t2)") = .ok parsedExample ∧
    parsedExample.All (Exact (utf8 "-(a+v[ 1 ])*f(x :\t2)")) :=
  ⟨parse_parsedExample, exact_of_parse parse_parsedExample⟩

end RelaxArith
