/-
Trees without a Go form.

A tree has no Go form exactly if one of its nodes has none, be it the root, an operand, an element,
a callee or an argument: nothing that is wrong inside is swallowed on the way out, and nothing else
goes wrong.  What a tree is converted to has a part for every part of the tree, so no part of it is
missing, but for what is missing in a construct that is only carried along.
-/
import Mathlib.Data.List.Forall2
import RelaxArith.Proofs.Except
import RelaxArith.Proofs.Host.Exchange
import RelaxArith.Proofs.Stubs

namespace RelaxArith

open RelaxArith.Expr

/-! ### What a tree carries -/

namespace Expr

variable {π : Type}

theorem payloadsAll_eq_flatMap (es : List (Expr π)) : payloadsAll es = es.flatMap payloads := by
  induction es with
  | nil => rfl
  | cons e es ih => rw [payloadsAll, ih, List.flatMap_cons]

theorem payloadsArgs_eq_flatMap (args : List (Bytes × Expr π)) :
    payloadsArgs args = args.flatMap fun a => a.2.payloads := by
  induction args with
  | nil => rfl
  | cons a args ih => rw [payloadsArgs, ih, List.flatMap_cons]

/-- A tree that has parts carries what they carry. -/
theorem payloads_eq_flatMap {e : Expr π} (h : e.children ≠ []) :
    e.payloads = e.children.flatMap payloads := by
  cases e with
  | absent | ident | literal | foreign => exact absurd rfl h
  | binary | prefixed | assign => simp [payloads, children]
  | group es s => rw [payloads, payloadsAll_eq_flatMap, children]
  | call f args s =>
    rw [payloads, payloadsArgs_eq_flatMap, children, List.flatMap_cons, List.flatMap_map]

theorem mem_payloads_of_mem_children {c e : Expr π} (hc : c ∈ e.children) {p : Option π}
    (hp : p ∈ c.payloads) : p ∈ e.payloads := by
  rw [payloads_eq_flatMap (List.ne_nil_of_mem hc)]
  exact List.mem_flatMap.mpr ⟨c, hc, hp⟩

end Expr

namespace Host

/-! ### Nodes without a Go form -/

/-- Why a node has no Go form, whatever its parts are. -/
inductive Formless : Expr Payload → ConversionError → Prop
  | absent : Formless (.absent none) .empty
  | binary {op : Bytes} {l r : Expr Payload} {s : Span} (hop : op ∉ binaryOperators) :
      Formless (.binary op l r s) (.operator op)
  | prefixed {op : Bytes} {x : Expr Payload} {s : Span} (hop : op ∉ unaryOperators) :
      Formless (.prefixed op x s) (.prefixOperator op)
  | group {es : List (Expr Payload)} {s : Span} (hes : es.length ≠ 1) :
      Formless (.group es s) (.tuple (Expr.group es s).infixForm)
  | call {f : Expr Payload} {args : List (Bytes × Expr Payload)} {s : Span}
      {a : Bytes × Expr Payload} (ha : a ∈ args) (hlabel : a.1 ≠ []) :
      Formless (.call f args s) (.label a.1)
  | assign (t v : Expr Payload) (s : Span) :
      Formless (.assign t v s) (.assignment (Expr.assign t v s).infixForm)

/-- The parts of a tree are converted to the parts of what it is converted to. -/
theorem forall₂_parts_of_ofExpr {e : Expr Payload} {y : Node} (h : Node.ofExpr e = .ok y)
    (hparts : e.children ≠ []) :
    y ≠ .missing ∧ List.Forall₂ (fun c z => Node.ofExpr c = .ok z) e.children y.parts := by
  cases e with
  | absent | ident | literal | foreign => exact absurd rfl hparts
  | binary op l r s =>
    obtain ⟨x, z, hx, hz, rfl⟩ := parts_of_ofExpr_binary h
    exact ⟨nofun, .cons hx (.cons hz .nil)⟩
  | prefixed op e s =>
    obtain ⟨x, hx, rfl⟩ := part_of_ofExpr_prefixed h
    exact ⟨nofun, .cons hx .nil⟩
  | group es s =>
    by_cases hes : es.length = 1
    · obtain ⟨e, rfl⟩ := List.length_eq_one_iff.mp hes
      obtain ⟨x, hx, rfl⟩ := part_of_ofExpr_group h
      exact ⟨nofun, .cons hx .nil⟩
    · rw [ofExpr_tuple hes] at h
      cases h
  | call f args s =>
    obtain ⟨fn, ys, hfn, hys, rfl⟩ := parts_of_ofExpr_call h
    refine ⟨nofun, .cons hfn (List.forall₂_map_left_iff.mpr ?_)⟩
    exact (forall₂_of_ofArgs hys).imp fun _ _ hy => hy.2
  | assign t v s => cases h

/-- A node without a Go form is not converted. -/
theorem Formless.ofExpr_ne_ok {e : Expr Payload} {err : ConversionError} (h : Formless e err)
    (y : Node) : Node.ofExpr e ≠ .ok y := by
  intro hy
  cases h with
  | absent | assign => cases hy
  | binary hop =>
    rw [ofExpr_binary, if_neg hop] at hy
    cases hy
  | prefixed hop =>
    rw [ofExpr_prefixed, if_neg hop] at hy
    cases hy
  | group hes =>
    rw [ofExpr_tuple hes] at hy
    cases hy
  | call ha hlabel =>
    obtain ⟨_, _, _, hys, _⟩ := parts_of_ofExpr_call hy
    obtain ⟨_, _, hempty, _⟩ := exists_of_mem_left (forall₂_of_ofArgs hys) _ ha
    exact hlabel hempty

/-- Nothing in a tree that is converted lacks a Go form. -/
theorem not_formless_of_inside {e x : Expr Payload} {y : Node} (h : Node.ofExpr e = .ok y)
    (hx : x.Inside e) (err : ConversionError) : ¬Formless x err := by
  have hconverted : ∃ z, Node.ofExpr x = .ok z := by
    induction hx using Relation.ReflTransGen.head_induction_on with
    | refl => exact ⟨y, h⟩
    | head hmem _ ih =>
      obtain ⟨z, hz⟩ := ih
      have hparts := (forall₂_parts_of_ofExpr hz (List.ne_nil_of_mem hmem)).2
      obtain ⟨w, _, hw⟩ := exists_of_mem_left hparts _ hmem
      exact ⟨w, hw⟩
  obtain ⟨z, hz⟩ := hconverted
  exact fun hformless => hformless.ofExpr_ne_ok z hz

/-! ### What an error says -/

/-- The error of arguments is that one of them has a label, or the error of a value. -/
theorem exists_of_ofArgs_error {args : List (Bytes × Expr Payload)} {err : ConversionError}
    (h : Node.ofArgs args = .error err) :
    ∃ a ∈ args, a.1 ≠ [] ∧ err = .label a.1 ∨ Node.ofExpr a.2 = .error err := by
  induction args with
  | nil => cases h
  | cons a args ih =>
    rw [ofArgs_cons] at h
    split at h
    · obtain hvalue | ⟨y, _, hrest⟩ := bind_eq_error.mp h
      · exact ⟨a, List.mem_cons_self, .inr hvalue⟩
      · obtain hargs | ⟨ys, _, heq⟩ := bind_eq_error.mp hrest
        · obtain ⟨b, hb, hcause⟩ := ih hargs
          exact ⟨b, List.mem_cons_of_mem a hb, hcause⟩
        · cases heq
    · rename_i hlabel
      cases h
      exact ⟨a, List.mem_cons_self, .inl ⟨hlabel, rfl⟩⟩

/-- An error concerns the node itself, or is the error of a part. -/
theorem formless_or_of_error {e : Expr Payload} (hstubs : e.containsStub = false)
    (hcarried : ∀ p ∈ e.payloads, ∃ x, p = some (.node x)) {err : ConversionError}
    (h : Node.ofExpr e = .error err) :
    Formless e err ∨ ∃ c ∈ e.children, Node.ofExpr c = .error err := by
  cases e with
  | absent k =>
    cases k with
    | none =>
      cases h
      exact .inl .absent
    | some k => cases hstubs
  | ident | literal => cases h
  | binary op l r s =>
    by_cases hop : op ∈ binaryOperators
    · rw [ofExpr_binary, if_pos hop] at h
      refine .inr ?_
      obtain hl | ⟨x, _, hrest⟩ := bind_eq_error.mp h
      · exact ⟨l, List.mem_cons_self, hl⟩
      · obtain hr | ⟨y, _, heq⟩ := bind_eq_error.mp hrest
        · exact ⟨r, List.mem_cons_of_mem l List.mem_cons_self, hr⟩
        · cases heq
    · rw [ofExpr_binary, if_neg hop] at h
      cases h
      exact .inl (.binary hop)
  | prefixed op e s =>
    by_cases hop : op ∈ unaryOperators
    · rw [ofExpr_prefixed, if_pos hop] at h
      obtain he | ⟨x, _, heq⟩ := bind_eq_error.mp h
      · exact .inr ⟨e, List.mem_cons_self, he⟩
      · cases heq
    · rw [ofExpr_prefixed, if_neg hop] at h
      cases h
      exact .inl (.prefixed hop)
  | group es s =>
    by_cases hes : es.length = 1
    · obtain ⟨e, rfl⟩ := List.length_eq_one_iff.mp hes
      rw [ofExpr_paren] at h
      obtain he | ⟨x, _, heq⟩ := bind_eq_error.mp h
      · exact .inr ⟨e, List.mem_cons_self, he⟩
      · cases heq
    · rw [ofExpr_tuple hes] at h
      cases h
      exact .inl (.group hes)
  | call f args s =>
    rw [ofExpr_call] at h
    obtain hf | ⟨fn, _, hrest⟩ := bind_eq_error.mp h
    · exact .inr ⟨f, List.mem_cons_self, hf⟩
    · obtain hargs | ⟨ys, _, heq⟩ := bind_eq_error.mp hrest
      · obtain ⟨a, ha, ⟨hlabel, rfl⟩ | hvalue⟩ := exists_of_ofArgs_error hargs
        · exact .inl (.call ha hlabel)
        · exact .inr ⟨a.2, List.mem_cons_of_mem f (List.mem_map_of_mem ha), hvalue⟩
      · cases heq
  | assign t v s =>
    cases h
    exact .inl (.assign t v s)
  | foreign text p s =>
    obtain ⟨x, rfl⟩ := hcarried p (List.mem_singleton_self p)
    cases h

/-- An error is that some node of the tree has no Go form. -/
theorem exists_formless_of_error {e : Expr Payload} (hstubs : e.containsStub = false)
    (hcarried : ∀ p ∈ e.payloads, ∃ x, p = some (.node x)) {err : ConversionError}
    (h : Node.ofExpr e = .error err) : ∃ x, x.Inside e ∧ Formless x err := by
  induction e using induct_children with
  | h e ih =>
    obtain hformless | ⟨c, hc, herr⟩ := formless_or_of_error hstubs hcarried h
    · exact ⟨e, .refl, hformless⟩
    · obtain ⟨x, hx, hformless⟩ := ih c hc (containsStub_of_mem_children hc hstubs)
        (fun p hp => hcarried p (mem_payloads_of_mem_children hc hp)) herr
      exact ⟨x, .tail hx hc, hformless⟩

/-! ### What a tree is converted to -/

mutual

/-- The numbers of arguments of the calls in a Go tree, outer calls first, from left to right. -/
def Node.arities : Node → List Nat
  | .missing => []
  | .ident .. => []
  | .literal .. => []
  | .selector x _ _ => x.arities
  | .binary _ x y _ => x.arities ++ y.arities
  | .unary _ x _ => x.arities
  | .paren x _ _ => x.arities
  | .call fn args _ _ _ => args.length :: (fn.arities ++ Node.aritiesAll args)
  | .other _ parts => Node.aritiesAll parts

/-- The numbers of arguments of the calls in several Go trees. -/
def Node.aritiesAll : List Node → List Nat
  | [] => []
  | x :: xs => x.arities ++ Node.aritiesAll xs

end

mutual

/-- The numbers of arguments of the calls in an expression tree, in the same order; with those in
the Go expressions that foreign nodes carry. -/
def arities : Expr Payload → List Nat
  | .absent _ => []
  | .ident .. => []
  | .literal .. => []
  | .binary _ l r _ => arities l ++ arities r
  | .prefixed _ x _ => arities x
  | .group es _ => aritiesAll es
  | .call f args _ => args.length :: (arities f ++ aritiesArgs args)
  | .assign t v _ => arities t ++ arities v
  | .foreign _ (some (.node x)) _ => x.arities
  | .foreign .. => []

/-- The numbers of arguments of the calls in several trees. -/
def aritiesAll : List (Expr Payload) → List Nat
  | [] => []
  | e :: es => arities e ++ aritiesAll es

/-- The numbers of arguments of the calls in arguments. -/
def aritiesArgs : List (Bytes × Expr Payload) → List Nat
  | [] => []
  | (_, e) :: args => arities e ++ aritiesArgs args

end

theorem arities_ofName (name : Bytes) : (Node.ofName name).arities = [] :=
  Node.ofName_induct (motive := fun x => x.arities = []) (fun _ => rfl) (fun _ _ hx => hx) name

theorem aritiesAll_of_forall₂ {args : List (Bytes × Expr Payload)} {ys : List Node}
    (h : List.Forall₂ (fun a y => y.arities = arities a.2) args ys) :
    Node.aritiesAll ys = aritiesArgs args := by
  induction h with
  | nil => rfl
  | cons hy _ ih => rw [Node.aritiesAll, aritiesArgs, hy, ih]

/-- Each call is converted to a call with as many arguments. -/
theorem arities_of_ofExpr {e : Expr Payload} {y : Node}
    (hcarried : ∀ p ∈ e.payloads, ∃ x, p = some (.node x)) (h : Node.ofExpr e = .ok y) :
    y.arities = arities e := by
  induction e generalizing y with
  | absent k => rcases k with _ | _ | _ <;> cases h
  | ident name s =>
    cases h
    exact arities_ofName name
  | literal =>
    cases h
    rfl
  | binary op l r s hl hr =>
    obtain ⟨x, z, hx, hz, rfl⟩ := parts_of_ofExpr_binary h
    have hleft := hl (fun p hp => hcarried p (List.mem_append_left _ hp)) hx
    have hright := hr (fun p hp => hcarried p (List.mem_append_right _ hp)) hz
    rw [Node.arities, arities, hleft, hright]
  | prefixed op e s he =>
    obtain ⟨x, hx, rfl⟩ := part_of_ofExpr_prefixed h
    rw [Node.arities, arities, he hcarried hx]
  | group es s hes =>
    by_cases hlength : es.length = 1
    · obtain ⟨e, rfl⟩ := List.length_eq_one_iff.mp hlength
      obtain ⟨x, hx, rfl⟩ := part_of_ofExpr_group h
      have hinner := hes e List.mem_cons_self
        (fun p hp => hcarried p (List.mem_append_left _ hp)) hx
      rw [Node.arities, arities, aritiesAll, aritiesAll, hinner, List.append_nil]
    · rw [ofExpr_tuple hlength] at h
      cases h
  | call f args s hf hargs =>
    obtain ⟨fn, ys, hfn, hys, rfl⟩ := parts_of_ofExpr_call h
    have hcallee := hf (fun p hp => hcarried p (List.mem_append_left _ hp)) hfn
    have hpairs := forall₂_of_ofArgs hys
    have hvalues : ∀ a ∈ args, ∀ y, Node.ofExpr a.2 = .ok y → y.arities = arities a.2 := by
      intro a ha y hy
      refine hargs a ha (fun p hp => hcarried p (List.mem_append_right _ ?_)) hy
      rw [payloadsArgs_eq_flatMap]
      exact List.mem_flatMap.mpr ⟨a, ha, hp⟩
    have hall := ((List.forall₂_and_left args ys).mpr ⟨hvalues, hpairs⟩).imp
      fun _ _ hy => hy.1 _ hy.2.2
    rw [Node.arities, arities, hcallee, aritiesAll_of_forall₂ hall, hpairs.length_eq]
  | assign => cases h
  | foreign text p s =>
    obtain ⟨x, rfl⟩ := hcarried p (List.mem_singleton_self p)
    cases h
    rfl

theorem not_missing_inside {y : Node} (hy : y ≠ .missing)
    (hparts : ∀ z ∈ y.parts, ¬Node.missing.Inside z) : ¬Node.missing.Inside y := by
  intro h
  rcases Node.inside_iff.mp h with heq | ⟨z, hmem, hz⟩
  · exact hy heq.symm
  · exact hparts z hmem hz

theorem not_missing_inside_literal (k : LiteralKind) (raw : Bytes) (p w : Nat) :
    ¬Node.missing.Inside (.literal k raw p w) :=
  not_missing_inside nofun nofun

theorem not_missing_inside_ofName (name : Bytes) : ¬Node.missing.Inside (Node.ofName name) :=
  Node.ofName_induct (motive := fun x => ¬Node.missing.Inside x)
    (fun _ => not_missing_inside nofun nofun)
    (fun _ _ hx => not_missing_inside nofun (List.forall_mem_singleton.mpr hx)) name

/-- Nothing is missing in what a tree is converted to, but for what is missing in a construct that
is only carried along. -/
theorem missing_inside_iff_of_ofExpr {e : Expr Payload} {y : Node}
    (hcarried : ∀ p ∈ e.payloads, ∃ x, p = some (.node x)) (h : Node.ofExpr e = .ok y) :
    Node.missing.Inside y ↔ ∃ x, some (.node x) ∈ e.payloads ∧ Node.missing.Inside x := by
  induction e using induct_children generalizing y with
  | h e ih =>
    by_cases hparts : e.children = []
    · cases e with
      | absent k => rcases k with _ | _ | _ <;> cases h
      | ident name s =>
        cases h
        exact iff_of_false (not_missing_inside_ofName name) (by simp [payloads])
      | literal =>
        cases h
        exact iff_of_false (not_missing_inside_literal _ _ _ _) (by simp [payloads])
      | foreign text p s =>
        obtain ⟨x, rfl⟩ := hcarried p (List.mem_singleton_self p)
        cases h
        simp [payloads]
      | group es s =>
        cases hparts
        cases h
      | binary | prefixed | call | assign => cases hparts
    · obtain ⟨hmissing, hpairs⟩ := forall₂_parts_of_ofExpr h hparts
      have hpart : ∀ c ∈ e.children, ∀ z, Node.ofExpr c = .ok z → (Node.missing.Inside z ↔
          ∃ x, some (.node x) ∈ c.payloads ∧ Node.missing.Inside x) := fun c hc z hz =>
        ih c hc (fun p hp => hcarried p (mem_payloads_of_mem_children hc hp)) hz
      rw [Node.inside_iff, or_iff_right hmissing.symm, payloads_eq_flatMap hparts]
      constructor
      · rintro ⟨z, hz, hinside⟩
        obtain ⟨c, hc, hcz⟩ := exists_of_mem_left hpairs.flip z hz
        obtain ⟨x, hx, hlacks⟩ := (hpart c hc z hcz).mp hinside
        exact ⟨x, List.mem_flatMap.mpr ⟨c, hc, hx⟩, hlacks⟩
      · rintro ⟨x, hx, hlacks⟩
        obtain ⟨c, hc, hcx⟩ := List.mem_flatMap.mp hx
        obtain ⟨z, hz, hcz⟩ := exists_of_mem_left hpairs c hc
        exact ⟨z, hz, (hpart c hc z hcz).mpr ⟨x, hcx, hlacks⟩⟩

/-- **A tree is not converted exactly if something in it has no Go form.** For a tree without stubs
whose foreign nodes all carry a Go expression: conversion fails if and only if some node, at any
depth and inside callees as well, is missing, is an assignment, is a grouping of none or several,
has an argument with a label, or has an operator that is none of Go's; the error tells which of
these it is.  If it succeeds, no part of the Go expression is missing that is not missing in what
the tree carries, and each call has as many arguments as in the tree. -/
theorem ofExpr_fails_iff_formless_inside {e : Expr Payload} (hstubs : e.containsStub = false)
    (hcarried : ∀ p ∈ e.payloads, ∃ x, p = some (.node x)) :
    ((∃ err, Node.ofExpr e = .error err) ↔ ∃ x err, x.Inside e ∧ Formless x err) ∧
    (∀ err, Node.ofExpr e = .error err → ∃ x, x.Inside e ∧ Formless x err) ∧
    ∀ y, Node.ofExpr e = .ok y →
      (Node.missing.Inside y ↔ ∃ x, some (.node x) ∈ e.payloads ∧ Node.missing.Inside x) ∧
      y.arities = arities e := by
  have hcause (err : ConversionError) (h : Node.ofExpr e = .error err) :
      ∃ x, x.Inside e ∧ Formless x err := exists_formless_of_error hstubs hcarried h
  refine ⟨⟨?_, ?_⟩, hcause, ?_⟩
  · rintro ⟨err, h⟩
    obtain ⟨x, hx, hformless⟩ := hcause err h
    exact ⟨x, err, hx, hformless⟩
  · rintro ⟨x, err, hx, hformless⟩
    cases h : Node.ofExpr e with
    | error err' => exact ⟨err', rfl⟩
    | ok y => exact absurd hformless (not_formless_of_inside h hx err)
  · intro y h
    exact ⟨missing_inside_iff_of_ofExpr hcarried h, arities_of_ofExpr hcarried h⟩

/-- An element of a table. -/
def elementExample : Node :=
  .other (.index 4 6) [.ident (utf8 "t") 3 false, .ident (utf8 "i") 5 false]

/-- The tree of `f(t[i])(…)` with some argument; the element is only carried along. -/
def appliedTo (e : Expr Payload) : Expr Payload :=
  let element := Expr.foreign (utf8 "t[i]") (some (.node elementExample)) ⟨3, 7⟩
  .call (.call (.ident (utf8 "f") ⟨1, 2⟩) [([], element)] ⟨1, 8⟩) [([], e)] ⟨1, 20⟩

/-- The tree of `(a, b)`. -/
def tupleExample : Expr Payload :=
  .group [.ident (utf8 "a") ⟨10, 11⟩, .ident (utf8 "b") ⟨13, 14⟩] ⟨9, 15⟩

/-- With a tuple for the argument there is an error; with a name there is none, nothing is missing,
and both calls have one argument. -/
theorem ofExpr_fails_iff_formless_inside_appliedTo :
    (appliedTo tupleExample).containsStub = false ∧
    (∀ p ∈ (appliedTo tupleExample).payloads, ∃ x, p = some (.node x)) ∧
    (∃ err, Node.ofExpr (appliedTo tupleExample) = .error err) ∧
    ∃ y, Node.ofExpr (appliedTo (.ident (utf8 "x.y") ⟨9, 12⟩)) = .ok y ∧
      ¬Node.missing.Inside y ∧ y.arities = [1, 1] := by
  have hcarried : ∀ p ∈ (appliedTo tupleExample).payloads, ∃ x, p = some (.node x) :=
    List.forall_mem_singleton.mpr ⟨elementExample, rfl⟩
  refine ⟨rfl, hcarried, ?_, _, rfl, ?_⟩
  · have htuple : tupleExample.Inside (appliedTo tupleExample) :=
      .single (List.mem_cons_of_mem _ List.mem_cons_self)
    exact (ofExpr_fails_iff_formless_inside rfl hcarried).1.mpr ⟨_, _, htuple, .group (by decide)⟩
  · have hcomplete : ¬Node.missing.Inside elementExample := by
      refine not_missing_inside nofun ?_
      simp only [elementExample, Node.parts, List.forall_mem_cons]
      exact ⟨not_missing_inside nofun nofun, not_missing_inside nofun nofun, nofun⟩
    have hboth := (ofExpr_fails_iff_formless_inside (e := appliedTo (.ident (utf8 "x.y") ⟨9, 12⟩))
      rfl (List.forall_mem_singleton.mpr ⟨elementExample, rfl⟩)).2.2 _ rfl
    refine ⟨?_, hboth.2⟩
    rw [hboth.1]
    rintro ⟨x, hx, hlacks⟩
    cases List.mem_singleton.mp hx
    exact hcomplete hlacks

end Host
end RelaxArith
