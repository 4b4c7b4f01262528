/-
Relaxing sees what equality sees.

Equality of trees ignores spans, payloads and the kinds of stubs, and relaxing decides nothing by
them: equal trees are relaxed to equal trees.  There is one place where a kind is looked at, the
negation of an operand, which takes a stub for what it stands for.  An operand has been relaxed
before it is negated, and a relaxed tree is never a stub.

So what is left of a tree without its spans and stubs tells whether relaxing changes it: a tree stays
equal exactly if that is in normal form, that is, if every operation outside callees is to be kept.
-/
import RelaxArith.Proofs.Consulted
import RelaxArith.Proofs.Equality

namespace RelaxArith

open RelaxArith.Expr

variable {π ρ : Type}

/-! ### What is forgotten along the way -/

namespace Expr

theorem erase_erase (e : Expr π) : e.erase.erase = e.erase := by
  induction e with
  | absent | ident | literal | foreign => rfl
  | binary op l r s hl hr => rw [erase, erase, hl, hr]
  | prefixed op x s hx => rw [erase, erase, hx]
  | group es s hes =>
    have hall : eraseAll (eraseAll es) = eraseAll es := by
      rw [eraseAll_eq_map, eraseAll_eq_map, List.map_map]
      exact List.map_congr_left hes
    rw [erase, erase, hall]
  | call f args s hf hargs =>
    have hall : eraseArgs (eraseArgs args) = eraseArgs args := by
      rw [eraseArgs_eq_map, eraseArgs_eq_map, List.map_map]
      exact List.map_congr_left fun a ha => congrArg (Prod.mk a.1) (hargs a ha)
    rw [erase, erase, hf, hall]
  | assign t v s ht hv => rw [erase, erase, ht, hv]

theorem erase_withSpan (s : Span) (e : Expr π) : (Relaxer.withSpan s e).erase = e.erase := by
  cases e with
  | absent | ident | literal | binary | prefixed | group | call | assign | foreign => rfl

/-- Only a stub shows a kind that erasing forgets. -/
theorem needsGrouping_erase {e : Expr π} (h : e.isStub = false) :
    e.erase.needsGrouping = e.needsGrouping := by
  cases e with
  | absent k =>
    cases k with
    | none => rfl
    | some k => cases h
  | ident | literal | binary | prefixed | group | call | assign | foreign => rfl

theorem erase_negate_congr {e : Expr π} {f : Expr ρ} (he : e.isStub = false)
    (hf : f.isStub = false) (h : e.erase = f.erase) : e.negate.erase = f.negate.erase := by
  have hgroup : e.needsGrouping = f.needsGrouping := by
    rw [← needsGrouping_erase he, h, needsGrouping_erase hf]
  rw [negate, negate, erase, erase, hgroup]
  by_cases hneeds : f.needsGrouping = true
  · rw [if_pos hneeds, if_pos hneeds, erase, erase, eraseAll, eraseAll, h, eraseAll, eraseAll]
  · rw [if_neg hneeds, if_neg hneeds, h]

end Expr

/-! ### What rules put together -/

section Congruence

variable {rx : Relaxer} {l r : Expr π} {l' r' : Expr ρ}

theorem erase_relaxedCall_congr (name : Bytes) (hl : l.erase = l'.erase)
    (hr : r.erase = r'.erase) :
    (Relaxer.relaxedCall name l r).erase = (Relaxer.relaxedCall name l' r').erase := by
  simp [Relaxer.relaxedCall, callOf, erase, eraseArgs, hl, hr]

theorem erase_combine_congr (c : Combine) (hl : l.erase = l'.erase) (hr : r.erase = r'.erase)
    (hstub : r.isStub = false) (hstub' : r'.isStub = false) :
    (rx.combine c l r).erase = (rx.combine c l' r').erase := by
  cases c with
  | sum => exact erase_relaxedCall_congr rx.sum hl hr
  | difference =>
    exact erase_relaxedCall_congr rx.sum hl (erase_negate_congr hstub hstub' hr)
  | product => exact erase_relaxedCall_congr rx.product hl hr
  | left => exact hl
  | right => exact hr
  | nothing => rfl
  | callOf name => exact erase_relaxedCall_congr name hl hr
  | operation op => rw [Relaxer.combine, Relaxer.combine, erase, erase, hl, hr]

theorem erase_applyRule_congr (rule : Rule) (op : Bytes) (s s' : Span) (hl : l.erase = l'.erase)
    (hr : r.erase = r'.erase) (hstub : r.isStub = false) (hstub' : r'.isStub = false) :
    (rx.applyRule rule op s l r).erase = (rx.applyRule rule op s' l' r').erase := by
  cases rule with
  | keep => rw [Relaxer.applyRule, Relaxer.applyRule, erase, erase, hl, hr]
  | binary c =>
    rw [Relaxer.applyRule, Relaxer.applyRule, erase_withSpan, erase_withSpan]
    exact erase_combine_congr c hl hr hstub hstub'
  | compound c =>
    have hcopy : l.withoutStubs.erase = l'.withoutStubs.erase := by
      rw [erase_withoutStubs, erase_withoutStubs, hl]
    rw [Relaxer.applyRule, Relaxer.applyRule, erase, erase, erase_withSpan, erase_withSpan, hl,
      erase_combine_congr c hcopy hr hstub hstub']

end Congruence

/-! ### Relaxing -/

section Stubs

variable {rx : Relaxer} {l r : Expr π}

theorem isStub_combine (c : Combine) (hl : l.isStub = false) (hr : r.isStub = false) :
    (rx.combine c l r).isStub = false := by
  cases c with
  | left => exact hl
  | right => exact hr
  | sum | difference | product | nothing | callOf | operation => rfl

theorem isStub_withSpan (s : Span) (e : Expr π) :
    (Relaxer.withSpan s e).isStub = e.isStub := by
  cases e with
  | absent | ident | literal | binary | prefixed | group | call | assign | foreign => rfl

/-- A relaxed tree is never a stub. -/
theorem isStub_relax (rx : Relaxer) (e : Expr π) : (rx.relax e).isStub = false := by
  induction e with
  | absent | ident | literal | foreign | group | call => rfl
  | binary op l r s hl hr =>
    rw [Relaxer.relax]
    cases rx.ruleFor op with
    | keep | compound => rfl
    | binary c =>
      rw [Relaxer.applyRule, isStub_withSpan]
      exact isStub_combine c hl hr
  | prefixed op x s _ =>
    rw [Relaxer.relax]
    by_cases hnested : rx.nested = true
    · rw [if_pos hnested]
      rfl
    · rw [if_neg hnested]
      rfl
  | assign t v s _ _ =>
    rw [Relaxer.relax]
    by_cases hnested : rx.nested = true
    · rw [if_pos hnested]
      rfl
    · rw [if_neg hnested]
      rfl

end Stubs

/-- Relaxing what is left of a tree gives what is left of the relaxed tree. -/
theorem Relaxer.erase_relax (rx : Relaxer) (e : Expr π) :
    (rx.relax e.erase).erase = (rx.relax e).erase := by
  induction e with
  | absent | ident | literal | foreign => rfl
  | binary op l r s hl hr =>
    rw [erase, relax, relax]
    exact erase_applyRule_congr _ op _ s hl hr (isStub_relax rx _) (isStub_relax rx r)
  | prefixed op x s hx =>
    rw [erase, relax, relax]
    by_cases hnested : rx.nested = true
    · rw [if_pos hnested, if_pos hnested, erase, erase, hx]
    · rw [if_neg hnested, if_neg hnested, erase, erase, erase_erase]
  | group es s hes =>
    have hall : eraseAll (rx.relaxAll (eraseAll es)) = eraseAll (rx.relaxAll es) := by
      rw [relaxAll_eq_map, relaxAll_eq_map, eraseAll_eq_map, eraseAll_eq_map, eraseAll_eq_map,
        List.map_map, List.map_map, List.map_map]
      exact List.map_congr_left hes
    rw [erase, relax, relax, erase, erase, hall]
  | call f args s _ hargs =>
    have hall : eraseArgs (rx.relaxArgs (eraseArgs args)) = eraseArgs (rx.relaxArgs args) := by
      rw [relaxArgs_eq_map, relaxArgs_eq_map, eraseArgs_eq_map, eraseArgs_eq_map, eraseArgs_eq_map,
        List.map_map, List.map_map, List.map_map]
      exact List.map_congr_left fun a ha => congrArg (Prod.mk a.1) (hargs a ha)
    rw [erase, relax, relax, erase, erase, hall, erase_erase]
  | assign t v s ht hv =>
    rw [erase, relax, relax]
    by_cases hnested : rx.nested = true
    · rw [if_pos hnested, if_pos hnested, erase, erase, ht, hv]
    · rw [if_neg hnested, if_neg hnested, erase, erase, erase_erase, erase_erase]

/-- **Equal trees are relaxed to equal trees.** -/
theorem Relaxer.erase_relax_congr (rx : Relaxer) {e : Expr π} {f : Expr ρ}
    (h : e.erase = f.erase) : (rx.relax e).erase = (rx.relax f).erase := by
  rw [← erase_relax rx e, h, erase_relax rx f]

/-- **Relaxing respects equality.** Whatever the table and whether or not assignments and operators
in front of an operand are entered, equal trees are relaxed to equal trees: the shape of the relaxed
tree is that of what is left of the tree, relaxed, so no span, no payload and no kind of a missing
part has a say in it. -/
theorem relax_respects_equal (rx : Relaxer) (e f : Expr π) :
    (e.equal f = true → (rx.relax e).equal (rx.relax f) = true) ∧
    (rx.relax e).erase = (rx.relax e.erase).erase := by
  refine ⟨?_, (rx.erase_relax e).symm⟩
  intro hequal
  rw [equal_iff_erase] at hequal ⊢
  exact rx.erase_relax_congr hequal

/-- A relaxer that enters no assignments, with a rule by which quotients become sums. -/
def shapeRelaxer : Relaxer :=
  { Relaxer.standard with
    table := Table.standard.add (utf8 "/") (.binary (.operation (utf8 "+"))), nested := false }

/-- The tree of `(t -= …) / (a = …)` with a part missing at both ends: the spans, the payload of `t`
and the kind of what should have stood there can be chosen. -/
def shapeExample (s : Span) (payload : Option Nat) (kind : Option Kind) : Expr Nat :=
  .binary (utf8 "/")
    (.binary (utf8 "-=") (.foreign (utf8 "t") payload s) (.absent kind) s)
    (.assign (.ident (utf8 "a") ⟨12, 13⟩) (.absent kind) s) s

theorem relax_respects_equal_shapeExample :
    (shapeExample ⟨0, 17⟩ (some 7) none).equal (shapeExample .null none (some .identifier)) = true ∧
    (shapeRelaxer.relax (shapeExample ⟨0, 17⟩ (some 7) none)).equal
      (shapeRelaxer.relax (shapeExample .null none (some .identifier))) = true := by
  have hequal : (shapeExample ⟨0, 17⟩ (some 7) none).equal
      (shapeExample .null none (some .identifier)) = true := by
    decide
  exact ⟨hequal, (relax_respects_equal shapeRelaxer _ _).1 hequal⟩

/-! ### Trees that stay equal -/

/-- What is left of a relaxed tree is relaxed. -/
theorem IsRelaxed.erase {rx : Relaxer} {e : Expr π} (h : IsRelaxed rx e) :
    IsRelaxed rx e.erase := by
  induction h with
  | absent => exact .absent
  | ident n s => exact .ident n .null
  | literal t raw s => exact .literal t raw .null
  | foreign t p s => exact .foreign t none .null
  | binary hop _ _ ihl ihr => exact .binary hop ihl ihr
  | prefixed _ ih => exact .prefixed ih
  | group _ ih =>
    rw [Expr.erase, eraseAll_eq_map]
    refine .group fun e he => ?_
    obtain ⟨x, hx, rfl⟩ := List.mem_map.mp he
    exact ih x hx
  | call _ ih =>
    rw [Expr.erase, eraseArgs_eq_map]
    refine .call fun a ha => ?_
    obtain ⟨b, hb, rfl⟩ := List.mem_map.mp ha
    exact ih b hb
  | assign _ _ iht ihv => exact .assign iht ihv

/-- What is left of a tree is relaxed exactly if all operations outside callees are to be kept. -/
theorem isRelaxed_erase_iff {rx : Relaxer} (hnested : rx.nested = true) {e : Expr π} :
    IsRelaxed rx e.erase ↔ ∀ op ∈ e.operations, rx.ruleFor op = .keep := by
  induction e with
  | absent => exact ⟨fun _ => List.forall_mem_nil _, fun _ => .absent⟩
  | ident n s => exact ⟨fun _ => List.forall_mem_nil _, fun _ => .ident n .null⟩
  | literal t raw s => exact ⟨fun _ => List.forall_mem_nil _, fun _ => .literal t raw .null⟩
  | foreign t p s => exact ⟨fun _ => List.forall_mem_nil _, fun _ => .foreign t none .null⟩
  | binary op l r s ihl ihr =>
    rw [operations, List.forall_mem_cons, List.forall_mem_append, ← ihl, ← ihr, Expr.erase]
    constructor
    · intro h
      cases h with
      | binary hop hl hr => exact ⟨hop, hl, hr⟩
    · rintro ⟨hop, hl, hr⟩
      exact .binary hop hl hr
  | prefixed op x s ih =>
    rw [operations, ← ih, Expr.erase]
    constructor
    · intro h
      cases h with
      | prefixed hx => exact hx hnested
    · intro hx
      exact .prefixed fun _ => hx
  | group es s ih =>
    rw [operations, operationsAll_eq_flatMap, List.forall_mem_flatMap, Expr.erase, eraseAll_eq_map]
    constructor
    · intro h e he
      cases h with
      | group hes => exact (ih e he).mp (hes _ (List.mem_map_of_mem he))
    · intro h
      refine .group fun y hy => ?_
      obtain ⟨e, he, rfl⟩ := List.mem_map.mp hy
      exact (ih e he).mpr (h e he)
  | call f args s _ ih =>
    rw [operations, operationsArgs_eq_flatMap, List.forall_mem_flatMap, Expr.erase,
      eraseArgs_eq_map]
    constructor
    · intro h a ha
      cases h with
      | call hargs => exact (ih a ha).mp (hargs _ (List.mem_map_of_mem ha))
    · intro h
      refine .call fun y hy => ?_
      obtain ⟨a, ha, rfl⟩ := List.mem_map.mp hy
      exact (ih a ha).mpr (h a ha)
  | assign t v s iht ihv =>
    rw [operations, List.forall_mem_append, ← iht, ← ihv, Expr.erase]
    constructor
    · intro h
      cases h with
      | assign ht hv => exact ⟨ht hnested, hv hnested⟩
    · rintro ⟨ht, hv⟩
      exact .assign (fun _ => ht) fun _ => hv

/-- The relaxed tree equals the tree exactly if every operation outside callees is to be kept. -/
theorem Relaxer.equal_relax_iff {rx : Relaxer} (hnested : rx.nested = true)
    (htable : rx.table.MakesNoOperation) (e : Expr π) :
    (rx.relax e).equal e = true ↔
      ∀ (c : Context π) (op : Bytes) (l r : Expr π) (s : Span),
        e = c.fill (.binary op l r s) → rx.ruleFor op = .keep := by
  rw [equal_iff_erase, ← forall_mem_operations_iff, ← isRelaxed_erase_iff hnested]
  constructor
  · intro hequal
    rw [← hequal]
    exact (isRelaxed_relax htable e).erase
  · intro hrelaxed
    calc (rx.relax e).erase = (rx.relax e.erase).erase := (erase_relax rx e).symm
      _ = e.erase.erase := by rw [hrelaxed.relax_eq]
      _ = e.erase := erase_erase e

/-- **A tree is left alone exactly if there is nothing to relax in it.** With the standard table the
relaxed tree equals the tree if and only if no sum, difference or product, plain or as a compound
assignment, stands in it at any place but inside a callee, whatever the relaxed functions are
called. -/
theorem equal_relax_iff_no_arithmetic (sum product : Bytes) (e : Expr π) :
    ((Relaxer.mk sum product .standard true).relax e).equal e = true ↔
      ∀ (c : Context π) (op : Bytes) (l r : Expr π) (s : Span), e = c.fill (.binary op l r s) →
        op ∉ [utf8 "+", utf8 "-", utf8 "*", utf8 "+=", utf8 "-=", utf8 "*="] := by
  have hkept : ∀ op, (Relaxer.mk sum product .standard true).ruleFor op = .keep ↔
      op ∉ [utf8 "+", utf8 "-", utf8 "*", utf8 "+=", utf8 "-=", utf8 "*="] := by
    intro op
    rw [Relaxer.ruleFor_eq_keep_iff, Table.get?_standard_eq_none_iff, or_iff_left]
    intro hkeep
    obtain ⟨c, _, hrule | hrule⟩ := Table.exists_of_get?_standard hkeep <;> cases hrule
  simp only [← hkept]
  exact Relaxer.equal_relax_iff rfl Table.standard_makesNoOperation e

end RelaxArith
