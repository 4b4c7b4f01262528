/-
Relaxed text is text again.

Relaxing puts calls where sums stood, assignments where compound assignments stood and signs in
front of operands, and it does not ask how tightly anything binds.  Still the relaxed form of a
tree that was parsed can be written down without any parentheses of its own:

  * every node of it could have been written down;
  * whatever is put in the place of an operation binds at least as tightly as the operation did.
    A call binds most tightly of all; a plain assignment binds like the compound one; a sign is
    only ever put in front of something that delimits itself, and stands as an argument.

So its text is parsed to an equal tree.  Relaxing sees no more of a tree than equality does, and it
leaves relaxed trees alone: relaxing the text once more changes nothing.
-/
import RelaxArith.Proofs.Congruence
import RelaxArith.Proofs.Printing.Parsed

namespace RelaxArith

open RelaxArith.Expr

variable {π : Type}

/-! ### Every node could have been written down -/

theorem Expr.WellFormed.withSpan {e : Expr π} (h : e.WellFormed) (s : Span) :
    (Relaxer.withSpan s e).WellFormed := by
  cases e with
  | absent | ident | literal | binary | prefixed | group | call | assign | foreign => exact h

theorem Expr.WellFormed.negate {e : Expr π} (h : e.WellFormed) : e.negate.WellFormed := by
  refine ⟨rfl, ?_⟩
  by_cases hgroup : e.needsGrouping = true
  · rw [if_pos hgroup]
    exact ⟨List.cons_ne_nil _ _, h, trivial⟩
  · rw [if_neg hgroup]
    exact h

theorem Expr.WellFormed.relaxedCall {l r : Expr π} (hl : l.WellFormed) (hr : r.WellFormed)
    {name : Bytes} (hname : ScansAs .name name) : (Relaxer.relaxedCall name l r).WellFormed := by
  refine ⟨?_, hname, hl, hr, trivial⟩
  intro a ha
  obtain ⟨x, _, rfl⟩ := List.mem_map.mp ha
  exact Or.inl rfl

/-- A relaxer with the standard table, for functions whose names can be written down. -/
structure Relaxer.Writes (rx : Relaxer) : Prop where
  table : rx.table = .standard
  sum : ScansAs .name rx.sum
  product : ScansAs .name rx.product

namespace Relaxer.Writes

variable {rx : Relaxer}

theorem makesNoOperation (hrx : rx.Writes) : rx.table.MakesNoOperation := by
  rw [hrx.table]
  exact Table.standard_makesNoOperation

/-- The three ways in which the standard table treats an operation. One that it makes an assignment
binds most loosely, and to the right. -/
theorem ruleFor_cases (hrx : rx.Writes) (op : Bytes) :
    rx.ruleFor op = .keep ∨
    (∃ c ∈ Combine.arithmetic, rx.ruleFor op = .binary c) ∨
    (∃ c ∈ Combine.arithmetic, rx.ruleFor op = .compound c) ∧
      Binding.ofAny op = ⟨1, .right⟩ := by
  have hbinding : ∀ op ∈ Table.compounds, Binding.ofAny op = ⟨1, .right⟩ := by decide
  rcases ruleFor_standard_cases hrx.table op with
    ⟨hop, c, hc, hrule⟩ | ⟨_, c, hc, hrule⟩ | ⟨_, hrule⟩
  · exact .inr (.inr ⟨⟨c, hc, hrule⟩, hbinding op hop⟩)
  · exact .inr (.inl ⟨c, hc, hrule⟩)
  · exact .inl hrule

theorem wellFormed_combine (hrx : rx.Writes) {c : Combine} (hc : c ∈ Combine.arithmetic)
    {l r : Expr π} (hl : l.WellFormed) (hr : r.WellFormed) : (rx.combine c l r).WellFormed := by
  have hnames : ∀ name ∈ [rx.sum, rx.product], ScansAs .name name := by
    simpa using ⟨hrx.sum, hrx.product⟩
  exact combine_of_closed hc (fun name hname _ _ hl hr => hl.relaxedCall hr (hnames name hname))
    (fun _ he => he.negate) hl hr

theorem wellFormed_relax (hrx : rx.Writes) {e : Expr π} (h : e.WellFormed) :
    (rx.relax e).WellFormed := by
  induction e with
  | absent | ident | literal | foreign => exact h
  | binary op l r s ihl ihr =>
    have hl := ihl h.2.1
    have hr := ihr h.2.2
    rw [relax]
    rcases hrx.ruleFor_cases op with hrule | ⟨c, hc, hrule⟩ | ⟨⟨c, hc, hrule⟩, _⟩
    · rw [hrule]
      exact ⟨h.1, hl, hr⟩
    · rw [hrule]
      exact (hrx.wellFormed_combine hc hl hr).withSpan s
    · rw [hrule, applyRule, withoutStubs_eq hl.containsStub]
      exact ⟨trivial, hl, (hrx.wellFormed_combine hc hl hr).withSpan s⟩
  | prefixed op x s ih =>
    rw [relax]
    by_cases hnested : rx.nested = true
    · rw [if_pos hnested]
      exact ⟨h.1, ih h.2⟩
    · rw [if_neg hnested]
      exact h
  | group es s ih =>
    have hall := allOf_iff.mp h.2
    rw [relax, relaxAll_eq_map]
    refine ⟨mt List.map_eq_nil_iff.mp h.1, allOf_iff.mpr ?_⟩
    intro e he
    obtain ⟨x, hx, rfl⟩ := List.mem_map.mp he
    exact ih x hx (hall x hx)
  | call f args s _ ih =>
    have hall := allArgs_iff.mp h.2.2
    rw [relax, relaxArgs_eq_map]
    refine ⟨?_, h.2.1, allArgs_iff.mpr ?_⟩
    · intro a ha
      obtain ⟨b, hb, rfl⟩ := List.mem_map.mp ha
      exact h.1 b hb
    · intro a ha
      obtain ⟨b, hb, rfl⟩ := List.mem_map.mp ha
      exact ih b hb (hall b hb)
  | assign t v s iht ihv =>
    rw [relax]
    by_cases hnested : rx.nested = true
    · rw [if_pos hnested]
      exact ⟨h.1, iht h.2.1, ihv h.2.2⟩
    · rw [if_neg hnested]
      exact h

end Relaxer.Writes

/-! ### No parentheses to insert -/

namespace Expr

theorem parenthesize_binary_iff {level : Nat} {op : Bytes} {l r : Expr π} {s : Span} :
    (binary op l r s).parenthesize level = binary op l r s ↔
      level ≤ (Binding.ofAny op).precedence ∧
      l.parenthesize (Binding.ofAny op).leftLevel = l ∧
      r.parenthesize (Binding.ofAny op).rightLevel = r := by
  rw [parenthesize]
  by_cases hlevel : level ≤ (Binding.ofAny op).precedence
  · simp [grouped_of_le hlevel, hlevel]
  · simp [grouped, Nat.lt_of_not_le hlevel, hlevel]

theorem parenthesize_prefixed_iff {level : Nat} {op : Bytes} {x : Expr π} {s : Span} :
    (prefixed op x s).parenthesize level = prefixed op x s ↔
      level ≤ Binding.prefixLevel ∧ x.parenthesize Binding.prefixLevel = x := by
  rw [parenthesize]
  by_cases hlevel : level ≤ Binding.prefixLevel
  · simp [grouped_of_le hlevel, hlevel]
  · simp [grouped, Nat.lt_of_not_le hlevel, hlevel]

theorem parenthesize_assign_iff {level : Nat} {t v : Expr π} {s : Span} :
    (assign t v s).parenthesize level = assign t v s ↔
      level ≤ 1 ∧ t.parenthesize 2 = t ∧ v.parenthesize 1 = v := by
  rw [parenthesize]
  by_cases hlevel : level ≤ 1
  · simp [grouped_of_le hlevel, hlevel]
  · simp [grouped, Nat.lt_of_not_le hlevel, hlevel]

theorem parenthesize_group_iff {level : Nat} {es : List (Expr π)} {s : Span} :
    (group es s).parenthesize level = group es s ↔ ∀ e ∈ es, e.parenthesize 0 = e := by
  rw [parenthesize, parenthesizeAll_eq_map]
  constructor
  · intro h e he
    have hmap : es.map (parenthesize 0) = es.map id := by
      rw [List.map_id]
      exact (Expr.group.inj h).1
    exact List.map_inj_left.mp hmap e he
  · intro h
    have hmap : es.map (parenthesize 0) = es.map id := List.map_congr_left h
    rw [hmap, List.map_id]

theorem parenthesize_call_iff {level : Nat} {f : Expr π} {args : List (Bytes × Expr π)}
    {s : Span} :
    (call f args s).parenthesize level = call f args s ↔
      f.parenthesize Binding.postfixLevel = f ∧ ∀ a ∈ args, a.2.parenthesize 0 = a.2 := by
  rw [parenthesize, parenthesizeArgs_eq_map]
  constructor
  · intro h
    obtain ⟨hf, hargs, _⟩ := Expr.call.inj h
    refine ⟨hf, fun a ha => ?_⟩
    have hmap : args.map (fun a => (a.1, a.2.parenthesize 0)) = args.map id := by
      rw [List.map_id]
      exact hargs
    exact congrArg Prod.snd (List.map_inj_left.mp hmap a ha)
  · rintro ⟨hf, hargs⟩
    have hmap : args.map (fun a => (a.1, a.2.parenthesize 0)) = args.map id :=
      List.map_congr_left fun a ha => congrArg (Prod.mk a.1) (hargs a ha)
    rw [hf, hmap, List.map_id]

/-- What needs no parentheses at a place needs none where less is asked for. -/
theorem parenthesize_mono {level level' : Nat} {e : Expr π} (h : e.parenthesize level = e)
    (hle : level' ≤ level) : e.parenthesize level' = e := by
  cases e with
  | absent | ident | literal | foreign => rfl
  | binary op l r s =>
    obtain ⟨hlevel, hparts⟩ := parenthesize_binary_iff.mp h
    exact parenthesize_binary_iff.mpr ⟨Nat.le_trans hle hlevel, hparts⟩
  | prefixed op x s =>
    obtain ⟨hlevel, hx⟩ := parenthesize_prefixed_iff.mp h
    exact parenthesize_prefixed_iff.mpr ⟨Nat.le_trans hle hlevel, hx⟩
  | group es s => exact parenthesize_group_iff.mpr (parenthesize_group_iff.mp h)
  | call f args s => exact parenthesize_call_iff.mpr (parenthesize_call_iff.mp h)
  | assign t v s =>
    obtain ⟨hlevel, hparts⟩ := parenthesize_assign_iff.mp h
    exact parenthesize_assign_iff.mpr ⟨Nat.le_trans hle hlevel, hparts⟩

/-- A negation stands without parentheses in front of what delimits itself or was put into a
grouping. -/
theorem parenthesize_negate {e : Expr π} (h : e.parenthesize 0 = e) :
    e.negate.parenthesize 0 = e.negate := by
  refine parenthesize_prefixed_iff.mpr ⟨Nat.zero_le _, ?_⟩
  by_cases hgroup : e.needsGrouping = true
  · rw [if_pos hgroup]
    exact parenthesize_group_iff.mpr (List.forall_mem_singleton.mpr h)
  rw [if_neg hgroup]
  cases e with
  | ident | literal => rfl
  | group es s => exact parenthesize_group_iff.mpr (parenthesize_group_iff.mp h)
  | call f args s => exact parenthesize_call_iff.mpr (parenthesize_call_iff.mp h)
  | absent | foreign => rfl
  | binary | prefixed | assign => exact absurd rfl hgroup

theorem parenthesize_relaxedCall {l r : Expr π} (hl : l.parenthesize 0 = l)
    (hr : r.parenthesize 0 = r) (name : Bytes) (level : Nat) :
    (Relaxer.relaxedCall name l r).parenthesize level = Relaxer.relaxedCall name l r := by
  refine parenthesize_call_iff.mpr ⟨rfl, fun a ha => ?_⟩
  obtain ⟨x, hx, rfl⟩ := List.mem_map.mp ha
  rcases List.mem_cons.mp hx with rfl | hx
  · exact hl
  · rw [List.mem_singleton.mp hx]
    exact hr

theorem parenthesize_combine {rx : Relaxer} {c : Combine} (hc : c ∈ Combine.arithmetic)
    {l r : Expr π} (hl : l.parenthesize 0 = l) (hr : r.parenthesize 0 = r) (level : Nat) :
    (rx.combine c l r).parenthesize level = rx.combine c l r := by
  obtain ⟨name, _, x, hx, hcombine⟩ := rx.combine_eq_relaxedCall hc l r
  rw [hcombine]
  refine parenthesize_relaxedCall hl ?_ name level
  rcases hx with rfl | rfl
  · exact hr
  · exact parenthesize_negate hr

theorem parenthesize_withSpan {level : Nat} {e : Expr π} (h : e.parenthesize level = e)
    (s : Span) : (Relaxer.withSpan s e).parenthesize level = Relaxer.withSpan s e := by
  cases e with
  | call f args s' => exact parenthesize_call_iff.mpr (parenthesize_call_iff.mp h)
  | absent | ident | literal | binary | prefixed | group | assign | foreign => exact h

end Expr

/-- **Relaxing leaves nothing to parenthesize.** The induction carries the level of the place. -/
theorem Relaxer.Writes.parenthesize_relax {rx : Relaxer} (hrx : rx.Writes) {e : Expr π}
    (hwf : e.WellFormed) {level : Nat} (h : e.parenthesize level = e) :
    (rx.relax e).parenthesize level = rx.relax e := by
  induction e generalizing level with
  | absent | ident | literal | foreign => rfl
  | binary op l r s ihl ihr =>
    obtain ⟨hlevel, hleft, hright⟩ := parenthesize_binary_iff.mp h
    have hl := ihl hwf.2.1 hleft
    have hr := ihr hwf.2.2 hright
    have hl0 := parenthesize_mono hl (Nat.zero_le _)
    have hr0 := parenthesize_mono hr (Nat.zero_le _)
    rw [relax]
    rcases hrx.ruleFor_cases op with hrule | ⟨c, hc, hrule⟩ | ⟨⟨c, hc, hrule⟩, hbinding⟩
    · rw [hrule]
      exact parenthesize_binary_iff.mpr ⟨hlevel, hl, hr⟩
    · rw [hrule]
      exact parenthesize_withSpan (parenthesize_combine hc hl0 hr0 level) s
    · -- the assignment binds exactly like the operator that it replaces
      rw [hrule, applyRule, withoutStubs_eq (hrx.wellFormed_relax hwf.2.1).containsStub]
      rw [hbinding] at hlevel hl
      exact parenthesize_assign_iff.mpr
        ⟨hlevel, hl, parenthesize_withSpan (parenthesize_combine hc hl0 hr0 1) s⟩
  | prefixed op x s ih =>
    rw [relax]
    by_cases hnested : rx.nested = true
    · obtain ⟨hlevel, hx⟩ := parenthesize_prefixed_iff.mp h
      rw [if_pos hnested]
      exact parenthesize_prefixed_iff.mpr ⟨hlevel, ih hwf.2 hx⟩
    · rw [if_neg hnested]
      exact h
  | group es s ih =>
    have hall := allOf_iff.mp hwf.2
    have hes := parenthesize_group_iff.mp h
    rw [relax, relaxAll_eq_map]
    refine parenthesize_group_iff.mpr fun e he => ?_
    obtain ⟨x, hx, rfl⟩ := List.mem_map.mp he
    exact ih x hx (hall x hx) (hes x hx)
  | call f args s _ ih =>
    have hall := allArgs_iff.mp hwf.2.2
    obtain ⟨hf, hargs⟩ := parenthesize_call_iff.mp h
    rw [relax, relaxArgs_eq_map]
    refine parenthesize_call_iff.mpr ⟨hf, fun a ha => ?_⟩
    obtain ⟨b, hb, rfl⟩ := List.mem_map.mp ha
    exact ih b hb (hall b hb) (hargs b hb)
  | assign t v s iht ihv =>
    rw [relax]
    by_cases hnested : rx.nested = true
    · obtain ⟨hlevel, ht, hv⟩ := parenthesize_assign_iff.mp h
      rw [if_pos hnested]
      exact parenthesize_assign_iff.mpr ⟨hlevel, iht hwf.2.1 ht, ihv hwf.2.2 hv⟩
    · rw [if_neg hnested]
      exact h

/-! ### Parsing, relaxing and formatting -/

/-- A tree that can be written down as it is comes back from its infix form. -/
theorem Expr.WellFormed.parse_infixForm {e : Expr π} (hwf : e.WellFormed)
    (h : e.parenthesize 0 = e) :
    e.format = .ok e.infixForm ∧ e.infixForm? = .ok e.infixForm ∧
    ∃ e' : Expr π, parse e.infixForm = .ok e' ∧ e'.erase = e.erase := by
  have htext : e.textAt 0 = e.infixForm := by
    rw [textAt, h]
  obtain ⟨e', hparse, herase⟩ := hwf.parse_textAt
  rw [htext] at hparse
  rw [h] at herase
  refine ⟨by rw [hwf.format, htext], ?_, e', hparse, herase⟩
  rw [infixForm?, hwf.node.isAbsent]
  rfl

/-- The relaxed form of a tree that was parsed can be written down as it is. -/
theorem Relaxer.Writes.of_parse {rx : Relaxer} (hrx : rx.Writes) {s : Bytes} {e : Expr π}
    (h : parse s = .ok e) :
    (rx.relax e).WellFormed ∧ (rx.relax e).parenthesize 0 = rx.relax e := by
  obtain ⟨hwf, hparenthesized, _⟩ := RelaxArith.of_parse h
  exact ⟨hrx.wellFormed_relax hwf, hrx.parenthesize_relax hwf hparenthesized⟩

/-- **Relaxed text is text again.** The relaxed form of a tree that was parsed is formatted
without parentheses of its own, its text is parsed to an equal tree, and relaxing that text once
more gives the same text. -/
theorem format_relax_parse {rx : Relaxer} (htable : rx.table = .standard)
    (hsum : ScansAs .name rx.sum) (hproduct : ScansAs .name rx.product) {s : Bytes} {e : Expr π}
    (h : parse s = .ok e) :
    (rx.relax e).format = .ok (rx.relax e).infixForm ∧
    (rx.relax e).infixForm? = .ok (rx.relax e).infixForm ∧
    ∃ e' : Expr π, parse (rx.relax e).infixForm = .ok e' ∧ e'.equal (rx.relax e) = true ∧
      (rx.relax e').format = (rx.relax e).format := by
  have hrx : rx.Writes := ⟨htable, hsum, hproduct⟩
  obtain ⟨hwf, hparenthesized⟩ := hrx.of_parse h
  obtain ⟨hformat, hinfix, e', hparse, herase⟩ := hwf.parse_infixForm hparenthesized
  obtain ⟨hwf', hparenthesized'⟩ := hrx.of_parse hparse
  obtain ⟨hformat', _, _⟩ := hwf'.parse_infixForm hparenthesized'
  have htwice : (rx.relax e').erase = (rx.relax e).erase := by
    rw [rx.erase_relax_congr herase,
      Relaxer.relax_relax hrx.makesNoOperation]
  refine ⟨hformat, hinfix, e', hparse, equal_iff_erase.mpr herase, ?_⟩
  rw [hformat, hformat', ← infixForm_erase, htwice, infixForm_erase]

/-- The tree of the text `x-=a*(-b-c)`. -/
def relaxedExample : Expr Unit :=
  .binary (utf8 "-=") (.ident (utf8 "x") ⟨0, 1⟩)
    (.binary (utf8 "*") (.ident (utf8 "a") ⟨3, 4⟩)
      (.group [.binary (utf8 "-") (.prefixed (utf8 "-") (.ident (utf8 "b") ⟨7, 8⟩) ⟨6, 8⟩)
        (.ident (utf8 "c") ⟨9, 10⟩) ⟨6, 10⟩] ⟨5, 11⟩) ⟨3, 11⟩) ⟨0, 11⟩

example : (Relaxer.standard.relax relaxedExample).infixForm =
    utf8 "x = fastmath.Sum(x, -fastmath.Product(a, (fastmath.Sum(-b, -c))))" := rfl

theorem format_relax_parse_relaxedExample :
    Relaxer.standard.table = .standard ∧ ScansAs .name Relaxer.standard.sum ∧
    ScansAs .name Relaxer.standard.product ∧ parse (utf8 "x-=a*(-b-c)") = .ok relaxedExample ∧
    (Relaxer.standard.relax relaxedExample).format
      = .ok (Relaxer.standard.relax relaxedExample).infixForm ∧
    (Relaxer.standard.relax relaxedExample).infixForm?
      = .ok (Relaxer.standard.relax relaxedExample).infixForm ∧
    ∃ e' : Expr Unit, parse (Relaxer.standard.relax relaxedExample).infixForm = .ok e' ∧
      e'.equal (Relaxer.standard.relax relaxedExample) = true ∧
      (Relaxer.standard.relax e').format = (Relaxer.standard.relax relaxedExample).format := by
  have hsum : ScansAs .name Relaxer.standard.sum := scansAs_of_longest (by decide)
  have hproduct : ScansAs .name Relaxer.standard.product := scansAs_of_longest (by decide)
  have hparse : parse (utf8 "x-=a*(-b-c)") = .ok relaxedExample := by cbv
  exact ⟨rfl, hsum, hproduct, hparse, format_relax_parse rfl hsum hproduct hparse⟩

end RelaxArith
