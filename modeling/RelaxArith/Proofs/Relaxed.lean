/-
What a relaxed tree looks like.

The rules are responsible for relaxing what they put into a tree: each one gets operands that are
relaxed already, copies them, negates them or wraps them into calls, and nobody looks at the result
again.  That this is enough is said by a normal form: in a relaxed tree the rule for every operation
is to keep it, outside the callees of calls, which are never entered.

  * Relaxing gives a relaxed tree, whatever the tree, if no rule makes operations.
  * A relaxed tree is left alone, spans included.

So operators that have a rule do not survive, and relaxing a part of a tree before the whole makes
no difference.
-/
import RelaxArith.Relax
import RelaxArith.Proofs.Rules
import RelaxArith.Proofs.Printing.Parentheses
import RelaxArith.Proofs.Stubs

namespace RelaxArith

open RelaxArith.Expr

variable {π : Type}

/-! ### Lists of trees -/

theorem Relaxer.relaxAll_eq_map (rx : Relaxer) (es : List (Expr π)) :
    rx.relaxAll es = es.map rx.relax := by
  induction es with
  | nil => rfl
  | cons e es ih => rw [relaxAll, ih, List.map_cons]

theorem Relaxer.relaxArgs_eq_map (rx : Relaxer) (args : List (Bytes × Expr π)) :
    rx.relaxArgs args = args.map fun a => (a.1, rx.relax a.2) := by
  induction args with
  | nil => rfl
  | cons a args ih => rw [relaxArgs, ih, List.map_cons]

/-! ### The standard rules -/

/-- With the standard table a compound assignment is made an assignment, another operation is
replaced or kept. -/
theorem Relaxer.ruleFor_standard_cases {rx : Relaxer} (htable : rx.table = .standard)
    (op : Bytes) :
    (op ∈ Table.compounds ∧ ∃ c ∈ Combine.arithmetic, rx.ruleFor op = .compound c) ∨
    (op ∉ Table.compounds ∧ ∃ c ∈ Combine.arithmetic, rx.ruleFor op = .binary c) ∨
    (op ∉ Table.compounds ∧ rx.ruleFor op = .keep) := by
  rw [ruleFor, htable]
  rcases Table.get?_standard_cases op with ⟨hop, c, hc, hget⟩ | ⟨hop, c, hc, hget⟩ | ⟨hop, hget⟩
  · exact .inl ⟨hop, c, hc, by rw [hget]; rfl⟩
  · exact .inr (.inl ⟨hop, c, hc, by rw [hget]; rfl⟩)
  · exact .inr (.inr ⟨hop, by rw [hget]; rfl⟩)

/-! ### What the standard rules put together -/

/-- A combination of the standard table is a call of one of the relaxed functions, with the right
operand or its negation. -/
theorem Relaxer.combine_eq_relaxedCall (rx : Relaxer) {c : Combine}
    (hc : c ∈ Combine.arithmetic) (l r : Expr π) :
    ∃ name ∈ [rx.sum, rx.product], ∃ x, (x = r ∨ x = r.negate) ∧
      rx.combine c l r = relaxedCall name l x := by
  rcases Combine.mem_arithmetic.mp hc with rfl | rfl | rfl
  · exact ⟨rx.sum, by simp, r, .inl rfl, rfl⟩
  · exact ⟨rx.sum, by simp, r.negate, .inr rfl, rfl⟩
  · exact ⟨rx.product, by simp, r, .inl rfl, rfl⟩

/-- What calls of the relaxed functions and negations have if their operands do, the combinations of
the standard table have as well. -/
theorem Relaxer.combine_of_closed {P : Expr π → Prop} {rx : Relaxer} {c : Combine}
    (hc : c ∈ Combine.arithmetic)
    (hcall : ∀ name ∈ [rx.sum, rx.product], ∀ l r, P l → P r → P (relaxedCall name l r))
    (hnegate : ∀ e, P e → P e.negate) {l r : Expr π} (hl : P l) (hr : P r) :
    P (rx.combine c l r) := by
  obtain ⟨name, hname, x, hx, hcombine⟩ := rx.combine_eq_relaxedCall hc l r
  rw [hcombine]
  refine hcall name hname l x hl ?_
  rcases hx with rfl | rfl
  · exact hr
  · exact hnegate r hr

/-- What does not change by negating, and depends on the call of a relaxed function only through
its operands, the combinations of the standard table have of their operands. -/
theorem Relaxer.combine_of_negate {α : Type} {f : Expr π → α} {g : α → α → α} {rx : Relaxer}
    {c : Combine} (hc : c ∈ Combine.arithmetic)
    (hcall : ∀ name l r, f (relaxedCall name l r) = g (f l) (f r))
    (hnegate : ∀ e : Expr π, f e.negate = f e) (l r : Expr π) :
    f (rx.combine c l r) = g (f l) (f r) := by
  obtain ⟨name, _, x, hx, hcombine⟩ := rx.combine_eq_relaxedCall hc l r
  rw [hcombine, hcall]
  rcases hx with rfl | rfl
  · rfl
  · rw [hnegate]

/-! ### The normal form -/

/-- A tree in which a relaxer has nothing to do. Assignments and operators in front of an operand
are looked into only if the relaxer enters them, callees never. -/
inductive IsRelaxed (rx : Relaxer) : Expr π → Prop
  | absent : IsRelaxed rx (.absent none)
  | ident (n : Bytes) (s : Span) : IsRelaxed rx (.ident n s)
  | literal (t : LiteralType) (raw : Bytes) (s : Span) : IsRelaxed rx (.literal t raw s)
  | foreign (t : Bytes) (p : Option π) (s : Span) : IsRelaxed rx (.foreign t p s)
  | binary {op : Bytes} {l r : Expr π} {s : Span} (hop : rx.ruleFor op = .keep)
      (hl : IsRelaxed rx l) (hr : IsRelaxed rx r) : IsRelaxed rx (.binary op l r s)
  | prefixed {op : Bytes} {x : Expr π} {s : Span} (hx : rx.nested = true → IsRelaxed rx x) :
      IsRelaxed rx (.prefixed op x s)
  | group {es : List (Expr π)} {s : Span} (hes : ∀ e ∈ es, IsRelaxed rx e) :
      IsRelaxed rx (.group es s)
  | call {f : Expr π} {args : List (Bytes × Expr π)} {s : Span}
      (hargs : ∀ a ∈ args, IsRelaxed rx a.2) : IsRelaxed rx (.call f args s)
  | assign {t v : Expr π} {s : Span} (ht : rx.nested = true → IsRelaxed rx t)
      (hv : rx.nested = true → IsRelaxed rx v) : IsRelaxed rx (.assign t v s)

namespace IsRelaxed

variable {rx : Relaxer}

/-- A relaxed tree is left alone. -/
theorem relax_eq {e : Expr π} (h : IsRelaxed rx e) : rx.relax e = e := by
  induction h with
  | absent | ident | literal | foreign => rfl
  | binary hop _ _ ihl ihr => rw [Relaxer.relax, hop, Relaxer.applyRule, ihl, ihr]
  | prefixed hx ih =>
    rw [Relaxer.relax]
    by_cases hnested : rx.nested = true
    · rw [if_pos hnested, ih hnested]
    · rw [if_neg hnested]
  | group hes ih =>
    have hsame := List.map_congr_left (g := id) ih
    rw [Relaxer.relax, Relaxer.relaxAll_eq_map, hsame, List.map_id]
  | @call f args s hargs ih =>
    have hsame : args.map (fun a => (a.1, rx.relax a.2)) = args.map id :=
      List.map_congr_left fun a ha => congrArg (Prod.mk a.1) (ih a ha)
    rw [Relaxer.relax, Relaxer.relaxArgs_eq_map, hsame, List.map_id]
  | assign ht hv iht ihv =>
    rw [Relaxer.relax]
    by_cases hnested : rx.nested = true
    · rw [if_pos hnested, iht hnested, ihv hnested]
    · rw [if_neg hnested]

/-! ### What rules put together is relaxed -/

theorem withSpan {e : Expr π} (h : IsRelaxed rx e) (s : Span) :
    IsRelaxed rx (Relaxer.withSpan s e) := by
  cases h with
  | call hargs => exact call hargs
  | absent => exact absent
  | ident n s => exact ident n s
  | literal t raw s => exact literal t raw s
  | foreign t p s => exact foreign t p s
  | binary hop hl hr => exact binary hop hl hr
  | prefixed hx => exact prefixed hx
  | group hes => exact group hes
  | assign ht hv => exact assign ht hv

theorem negate {e : Expr π} (h : IsRelaxed rx e) : IsRelaxed rx e.negate := by
  refine prefixed fun _ => ?_
  split
  · exact group fun x hx => by rwa [List.mem_singleton.mp hx]
  · exact h

/-- The copy of a relaxed target is relaxed. -/
theorem withoutStubs {e : Expr π} (h : IsRelaxed rx e) : IsRelaxed rx e.withoutStubs := by
  induction h with
  | absent => exact absent
  | ident n s => exact ident n s
  | literal t raw s => exact literal t raw s
  | foreign t p s => exact foreign t p s
  | binary hop _ _ ihl ihr => exact binary hop ihl ihr
  | prefixed _ ih => exact prefixed ih
  | group _ ih =>
    rw [Expr.withoutStubs, withoutStubsAll_eq_map]
    refine group fun e he => ?_
    obtain ⟨x, hx, rfl⟩ := List.mem_map.mp he
    exact ih x hx
  | call _ ih =>
    rw [Expr.withoutStubs, withoutStubsArgs_eq_map]
    refine call fun a ha => ?_
    obtain ⟨b, hb, rfl⟩ := List.mem_map.mp ha
    exact ih b hb
  | assign _ _ iht ihv => exact assign iht ihv

theorem relaxedCall {l r : Expr π} (hl : IsRelaxed rx l) (hr : IsRelaxed rx r) (name : Bytes) :
    IsRelaxed rx (Relaxer.relaxedCall name l r) := by
  refine call fun a ha => ?_
  obtain ⟨x, hx, rfl⟩ := List.mem_map.mp ha
  rcases List.mem_cons.mp hx with rfl | hx
  · exact hl
  · rwa [List.mem_singleton.mp hx]

theorem combine {c : Combine} {l r : Expr π} (hc : c.makesOperation = false)
    (hl : IsRelaxed rx l) (hr : IsRelaxed rx r) : IsRelaxed rx (rx.combine c l r) := by
  cases c with
  | sum => exact hl.relaxedCall hr rx.sum
  | difference => exact hl.relaxedCall hr.negate rx.sum
  | product => exact hl.relaxedCall hr rx.product
  | left => exact hl
  | right => exact hr
  | nothing => exact absent
  | callOf name => exact hl.relaxedCall hr name
  | operation op => cases hc

/-- The step at an operation: a rule that makes no operation puts relaxed operands together to a
relaxed tree. -/
theorem applyRule {rule : Rule} {op : Bytes} {l r : Expr π} (hrule : rule.makesOperation = false)
    (hop : rule = .keep → rx.ruleFor op = .keep) (s : Span) (hl : IsRelaxed rx l)
    (hr : IsRelaxed rx r) : IsRelaxed rx (rx.applyRule rule op s l r) := by
  cases rule with
  | keep => exact binary (hop rfl) hl hr
  | binary c => exact (combine hrule hl hr).withSpan s
  | compound c =>
    exact assign (fun _ => hl) fun _ => (combine hrule hl.withoutStubs hr).withSpan s

end IsRelaxed

namespace Relaxer

theorem makesOperation_ruleFor {rx : Relaxer} (h : rx.table.MakesNoOperation) (op : Bytes) :
    (rx.ruleFor op).makesOperation = false := by
  rw [ruleFor]
  cases hrule : rx.table.get? op with
  | none => rfl
  | some rule => exact h op rule hrule

/-- **Relaxing gives a relaxed tree.** -/
theorem isRelaxed_relax {rx : Relaxer} (h : rx.table.MakesNoOperation) (e : Expr π) :
    IsRelaxed rx (rx.relax e) := by
  induction e with
  | absent k => exact .absent
  | ident n s => exact .ident n s
  | literal t raw s => exact .literal t raw s
  | binary op l r s hl hr =>
    exact .applyRule (makesOperation_ruleFor h op) id s hl hr
  | prefixed op x s hx =>
    rw [relax]
    by_cases hnested : rx.nested = true
    · rw [if_pos hnested]
      exact .prefixed fun _ => hx
    · rw [if_neg hnested]
      exact .prefixed fun hn => absurd hn hnested
  | group es s hes =>
    rw [relax, relaxAll_eq_map]
    refine .group fun e he => ?_
    obtain ⟨x, hx, rfl⟩ := List.mem_map.mp he
    exact hes x hx
  | call f args s _ hargs =>
    rw [relax, relaxArgs_eq_map]
    refine .call fun a ha => ?_
    obtain ⟨b, hb, rfl⟩ := List.mem_map.mp ha
    exact hargs b hb
  | assign t v s ht hv =>
    rw [relax]
    by_cases hnested : rx.nested = true
    · rw [if_pos hnested]
      exact .assign (fun _ => ht) fun _ => hv
    · rw [if_neg hnested]
      exact .assign (fun hn => absurd hn hnested) fun hn => absurd hn hnested
  | foreign t p s => exact .foreign t p s

theorem relax_relax {rx : Relaxer} (h : rx.table.MakesNoOperation) (e : Expr π) :
    rx.relax (rx.relax e) = rx.relax e :=
  (isRelaxed_relax h e).relax_eq

end Relaxer

/-! ### Places in a tree -/

/-- A tree with a hole at some place. No place is inside a callee. -/
inductive Context (π : Type) where
  | hole
  | leftOperand (op : Bytes) (c : Context π) (right : Expr π) (span : Span)
  | rightOperand (op : Bytes) (left : Expr π) (c : Context π) (span : Span)
  | operand (op : Bytes) (c : Context π) (span : Span)
  | element (before : List (Expr π)) (c : Context π) (behind : List (Expr π)) (span : Span)
  | argument (callee : Expr π) (before : List (Bytes × Expr π)) (label : Bytes) (c : Context π)
      (behind : List (Bytes × Expr π)) (span : Span)
  | target (c : Context π) (value : Expr π) (span : Span)
  | value (target : Expr π) (c : Context π) (span : Span)

namespace Context

/-- The tree with something put into the hole. -/
def fill : Context π → Expr π → Expr π
  | hole, e => e
  | leftOperand op c r s, e => .binary op (c.fill e) r s
  | rightOperand op l c s, e => .binary op l (c.fill e) s
  | operand op c s, e => .prefixed op (c.fill e) s
  | element before c behind s, e => .group (before ++ c.fill e :: behind) s
  | argument f before label c behind s, e =>
    .call f (before ++ (label, c.fill e) :: behind) s
  | target c v s, e => .assign (c.fill e) v s
  | value t c s, e => .assign t (c.fill e) s

/-- What stands at a place of a relaxed tree is relaxed, if everything is entered. -/
theorem isRelaxed_of_fill {rx : Relaxer} (hnested : rx.nested = true) {e : Expr π}
    (c : Context π) (h : IsRelaxed rx (c.fill e)) : IsRelaxed rx e := by
  induction c with
  | hole => exact h
  | leftOperand op c r s ih =>
    cases h with
    | binary _ hl _ => exact ih hl
  | rightOperand op l c s ih =>
    cases h with
    | binary _ _ hr => exact ih hr
  | operand op c s ih =>
    cases h with
    | prefixed hx => exact ih (hx hnested)
  | element before c behind s ih =>
    cases h with
    | group hes => exact ih (hes _ (by simp))
  | argument f before label c behind s ih =>
    cases h with
    | call hargs => exact ih (hargs (label, c.fill e) (by simp))
  | target c v s ih =>
    cases h with
    | assign ht _ => exact ih (ht hnested)
  | value t c s ih =>
    cases h with
    | assign _ hv => exact ih (hv hnested)

/-- Of what stands at a place, only the relaxed form shows in the relaxed tree. -/
theorem relax_fill_congr {rx : Relaxer} (hnested : rx.nested = true) {x y : Expr π}
    (h : rx.relax x = rx.relax y) (c : Context π) :
    rx.relax (c.fill x) = rx.relax (c.fill y) := by
  induction c with
  | hole => exact h
  | leftOperand op c r s ih => rw [fill, fill, Relaxer.relax, Relaxer.relax, ih]
  | rightOperand op l c s ih => rw [fill, fill, Relaxer.relax, Relaxer.relax, ih]
  | operand op c s ih =>
    rw [fill, fill, Relaxer.relax, Relaxer.relax, if_pos hnested, if_pos hnested, ih]
  | element before c behind s ih =>
    rw [fill, fill, Relaxer.relax, Relaxer.relax, Relaxer.relaxAll_eq_map, Relaxer.relaxAll_eq_map,
      List.map_append, List.map_append, List.map_cons, List.map_cons, ih]
  | argument f before label c behind s ih =>
    rw [fill, fill, Relaxer.relax, Relaxer.relax, Relaxer.relaxArgs_eq_map,
      Relaxer.relaxArgs_eq_map, List.map_append, List.map_append, List.map_cons, List.map_cons, ih]
  | target c v s ih =>
    rw [fill, fill, Relaxer.relax, Relaxer.relax, if_pos hnested, if_pos hnested, ih]
  | value t c s ih =>
    rw [fill, fill, Relaxer.relax, Relaxer.relax, if_pos hnested, if_pos hnested, ih]

end Context

/-! ### Operators that survive -/

theorem Relaxer.ruleFor_eq_keep_iff {rx : Relaxer} {op : Bytes} :
    rx.ruleFor op = .keep ↔ rx.table.get? op = none ∨ rx.table.get? op = some .keep := by
  rw [ruleFor]
  cases rx.table.get? op with
  | none => simp
  | some rule => simp

/-- An operation that stands somewhere in a relaxed tree, outside callees, is one to keep. -/
theorem Context.keep_of_relax_eq_fill {rx : Relaxer} (hnested : rx.nested = true)
    (htable : rx.table.MakesNoOperation) {e l r : Expr π} {op : Bytes} {s : Span} {c : Context π}
    (h : rx.relax e = c.fill (.binary op l r s)) :
    rx.table.get? op = none ∨ rx.table.get? op = some .keep := by
  have hwhole : IsRelaxed rx (c.fill (.binary op l r s)) := by
    rw [← h]
    exact Relaxer.isRelaxed_relax htable e
  have hpart := c.isRelaxed_of_fill hnested hwhole
  cases hpart with
  | binary hop _ _ => exact Relaxer.ruleFor_eq_keep_iff.mp hop

/-- **No operator that has a rule survives.** Every operation in a relaxed tree, at any place but
inside a callee, has a symbol that the table does not mention or says to keep; with the standard
table it is none of those for sums, differences and products. -/
theorem operations_of_relax {rx : Relaxer} (hnested : rx.nested = true)
    (htable : rx.table.Built) (e : Expr π) :
    (∀ (c : Context π) (op : Bytes) (l r : Expr π) (s : Span),
      rx.relax e = c.fill (.binary op l r s) →
        rx.table.get? op = none ∨ rx.table.get? op = some .keep) ∧
    (rx.table = .standard → ∀ (c : Context π) (op : Bytes) (l r : Expr π) (s : Span),
      rx.relax e = c.fill (.binary op l r s) →
        op ∉ [utf8 "+", utf8 "-", utf8 "*", utf8 "+=", utf8 "-=", utf8 "*="]) := by
  refine ⟨?_, ?_⟩
  · intro c op l r s h
    exact c.keep_of_relax_eq_fill hnested htable.makesNoOperation h
  · intro hstandard c op l r s h hop
    have hreplaced : ∀ sym ∈ [utf8 "+", utf8 "-", utf8 "*", utf8 "+=", utf8 "-=", utf8 "*="],
        Table.standard.get? sym ≠ none ∧ Table.standard.get? sym ≠ some .keep := by
      decide
    have hkept := c.keep_of_relax_eq_fill hnested htable.makesNoOperation h
    rw [hstandard] at hkept
    obtain ⟨hmentioned, hchanged⟩ := hreplaced op hop
    exact hkept.elim hmentioned hchanged

/-- The standard relaxer without a rule for products, and with one by which a quotient is assigned
to its left operand. -/
def quotientRelaxer : Relaxer :=
  { Relaxer.standard with
    table := (Table.standard.delete (utf8 "*")).add (utf8 "/") (.compound (.callOf (utf8 "div"))) }

/-- The tree of `!(x += a * (b / …))`, with a part missing behind the quotient. -/
def quotientExample : Expr Empty :=
  .prefixed (utf8 "!")
    (.group [.binary (utf8 "+=") (.ident (utf8 "x") ⟨2, 3⟩)
      (.binary (utf8 "*") (.ident (utf8 "a") ⟨7, 8⟩)
        (.group [.binary (utf8 "/") (.ident (utf8 "b") ⟨12, 13⟩) (.absent (some .call)) ⟨12, 17⟩]
          ⟨11, 18⟩) ⟨7, 18⟩) ⟨2, 18⟩] ⟨1, 19⟩) ⟨0, 19⟩

theorem built_quotientRelaxer : quotientRelaxer.table.Built :=
  .add (.delete .standard) rfl

/-- The second argument of the sum that is assigned to `x` in the relaxed tree. -/
def quotientPlace : Context Empty :=
  .operand (utf8 "!")
    (.element []
      (.value (.ident (utf8 "x") ⟨2, 3⟩)
        (.argument (.ident Relaxer.defaultSum .null) [([], .ident (utf8 "x") ⟨2, 3⟩)] [] .hole []
          ⟨2, 18⟩) ⟨2, 18⟩) [] ⟨1, 19⟩) ⟨0, 19⟩

/-- The product stays at its place; the quotient inside it does not. -/
theorem relax_quotientExample :
    quotientRelaxer.relax quotientExample = quotientPlace.fill
      (.binary (utf8 "*") (.ident (utf8 "a") ⟨7, 8⟩)
        (.group [.assign (.ident (utf8 "b") ⟨12, 13⟩)
          (.call (.ident (utf8 "div") .null) [([], .ident (utf8 "b") ⟨12, 13⟩), ([], .absent none)]
            ⟨12, 17⟩) ⟨12, 17⟩] ⟨11, 18⟩) ⟨7, 18⟩) :=
  rfl

theorem operations_of_relax_quotientExample :
    quotientRelaxer.nested = true ∧ quotientRelaxer.table.Built ∧
    (∃ l r s, quotientRelaxer.relax quotientExample
      = quotientPlace.fill (.binary (utf8 "*") l r s)) ∧
    (quotientRelaxer.table.get? (utf8 "*") = none ∨
      quotientRelaxer.table.get? (utf8 "*") = some .keep) := by
  have hall := operations_of_relax rfl built_quotientRelaxer quotientExample
  exact ⟨rfl, built_quotientRelaxer, ⟨_, _, _, relax_quotientExample⟩,
    hall.1 quotientPlace _ _ _ _ relax_quotientExample⟩

/-! ### Parts before the whole -/

/-- **A part of a tree may be relaxed before the whole.** Whatever is relaxed at a place first, at
any place but inside a callee, the relaxed tree is the same to the last span. Of the tree as a
whole this holds also if assignments and operators in front of an operand are not entered. -/
theorem relax_fill_relax {rx : Relaxer} (htable : rx.table.MakesNoOperation) (y : Expr π) :
    (rx.nested = true → ∀ c : Context π,
      rx.relax (c.fill (rx.relax y)) = rx.relax (c.fill y)) ∧
    rx.relax (rx.relax y) = rx.relax y := by
  have htwice : rx.relax (rx.relax y) = rx.relax y := Relaxer.relax_relax htable y
  refine ⟨?_, htwice⟩
  intro hnested c
  exact c.relax_fill_congr hnested htwice

theorem relax_fill_relax_quotientExample :
    quotientRelaxer.table.MakesNoOperation ∧ quotientRelaxer.nested = true ∧
    quotientRelaxer.relax quotientExample ≠ quotientExample ∧
    quotientRelaxer.relax ((Context.leftOperand (utf8 "-") .hole quotientExample ⟨0, 30⟩).fill
        (quotientRelaxer.relax quotientExample))
      = quotientRelaxer.relax ((Context.leftOperand (utf8 "-") .hole quotientExample ⟨0, 30⟩).fill
        quotientExample) ∧
    quotientRelaxer.relax (quotientRelaxer.relax quotientExample)
      = quotientRelaxer.relax quotientExample := by
  have htable := built_quotientRelaxer.makesNoOperation
  have hboth := relax_fill_relax htable quotientExample
  refine ⟨htable, rfl, ?_, hboth.1 rfl _, hboth.2⟩
  intro h
  cases h

end RelaxArith
