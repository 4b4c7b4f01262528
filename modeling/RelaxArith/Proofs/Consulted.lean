/-
Relaxing consults the rules for the operations of a tree, and no others.

A rule gets relaxed operands and may put new operations together, of copies and with any symbol.
Nobody looks up a rule for those: an operation is looked up once, where it stands in the tree, and
one that stands in a callee is not looked up at all.  So the relaxed tree is a matter of the rules
for the symbols that are there, and a table may be changed at all others.
-/
import RelaxArith.Proofs.Relaxed

namespace RelaxArith

variable {π : Type}

namespace Expr

mutual

/-- The symbols of the operations in a tree, from left to right, but for those in callees. -/
def operations : Expr π → List Bytes
  | absent _ => []
  | ident .. => []
  | literal .. => []
  | binary op l r _ => op :: (l.operations ++ r.operations)
  | prefixed _ x _ => x.operations
  | group es _ => operationsAll es
  | call _ args _ => operationsArgs args
  | assign t v _ => t.operations ++ v.operations
  | foreign .. => []

/-- The symbols of the operations in several trees. -/
def operationsAll : List (Expr π) → List Bytes
  | [] => []
  | e :: es => e.operations ++ operationsAll es

/-- The symbols of the operations in arguments. -/
def operationsArgs : List (Bytes × Expr π) → List Bytes
  | [] => []
  | (_, e) :: args => e.operations ++ operationsArgs args

end

theorem operationsAll_eq_flatMap (es : List (Expr π)) :
    operationsAll es = es.flatMap operations := by
  induction es with
  | nil => rfl
  | cons e es ih => rw [operationsAll, ih, List.flatMap_cons]

theorem operationsArgs_eq_flatMap (args : List (Bytes × Expr π)) :
    operationsArgs args = args.flatMap fun a => a.2.operations := by
  induction args with
  | nil => rfl
  | cons a args ih => rw [operationsArgs, ih, List.flatMap_cons]

/-- A symbol is listed exactly if an operation with it stands somewhere in the tree, at any place
but inside a callee. -/
theorem mem_operations_iff {op : Bytes} {e : Expr π} :
    op ∈ e.operations ↔
      ∃ (c : Context π) (l r : Expr π) (s : Span), e = c.fill (.binary op l r s) := by
  constructor
  · intro h
    induction e with
    | absent | ident | literal | foreign => cases h
    | binary o l r s hl hr =>
      rw [operations, List.mem_cons, List.mem_append] at h
      rcases h with rfl | h | h
      · exact ⟨.hole, l, r, s, rfl⟩
      · obtain ⟨c, l', r', s', rfl⟩ := hl h
        exact ⟨.leftOperand o c r s, l', r', s', rfl⟩
      · obtain ⟨c, l', r', s', rfl⟩ := hr h
        exact ⟨.rightOperand o l c s, l', r', s', rfl⟩
    | prefixed o x s hx =>
      obtain ⟨c, l', r', s', rfl⟩ := hx h
      exact ⟨.operand o c s, l', r', s', rfl⟩
    | group es s hes =>
      rw [operations, operationsAll_eq_flatMap, List.mem_flatMap] at h
      obtain ⟨e, he, h⟩ := h
      obtain ⟨c, l', r', s', rfl⟩ := hes e he h
      obtain ⟨before, behind, rfl⟩ := List.append_of_mem he
      exact ⟨.element before c behind s, l', r', s', rfl⟩
    | call f args s _ hargs =>
      rw [operations, operationsArgs_eq_flatMap, List.mem_flatMap] at h
      obtain ⟨⟨label, e⟩, he, h⟩ := h
      obtain ⟨c, l', r', s', rfl⟩ := hargs (label, e) he h
      obtain ⟨before, behind, rfl⟩ := List.append_of_mem he
      exact ⟨.argument f before label c behind s, l', r', s', rfl⟩
    | assign t v s ht hv =>
      rw [operations, List.mem_append] at h
      rcases h with h | h
      · obtain ⟨c, l', r', s', rfl⟩ := ht h
        exact ⟨.target c v s, l', r', s', rfl⟩
      · obtain ⟨c, l', r', s', rfl⟩ := hv h
        exact ⟨.value t c s, l', r', s', rfl⟩
  · rintro ⟨c, l, r, s, rfl⟩
    induction c with
    | hole => simp [Context.fill, operations]
    | leftOperand | rightOperand | operand | target | value => simp_all [Context.fill, operations]
    | element => simp_all [Context.fill, operations, operationsAll_eq_flatMap]
    | argument => simp_all [Context.fill, operations, operationsArgs_eq_flatMap]

theorem forall_mem_operations_iff {p : Bytes → Prop} {e : Expr π} :
    (∀ op ∈ e.operations, p op) ↔
      ∀ (c : Context π) (op : Bytes) (l r : Expr π) (s : Span),
        e = c.fill (.binary op l r s) → p op := by
  constructor
  · intro h c op l r s he
    exact h op (mem_operations_iff.mpr ⟨c, l, r, s, he⟩)
  · intro h op hop
    obtain ⟨c, l, r, s, he⟩ := mem_operations_iff.mp hop
    exact h c op l r s he

end Expr

/-! ### Rules that do the same -/

namespace Relaxer

/-- Rules see no more of a relaxer than the names of its functions. -/
theorem applyRule_congr {rx ry : Relaxer} (hsum : rx.sum = ry.sum)
    (hproduct : rx.product = ry.product) (rule : Rule) (op : Bytes) (s : Span) (l r : Expr π) :
    rx.applyRule rule op s l r = ry.applyRule rule op s l r := by
  have hcombine : ∀ (c : Combine) (l r : Expr π), rx.combine c l r = ry.combine c l r := by
    intro c l r
    cases c with
    | sum | difference => rw [combine, combine, hsum]
    | product => rw [combine, combine, hproduct]
    | left | right | nothing | callOf | operation => rfl
  cases rule with
  | keep => rfl
  | binary c => rw [applyRule, applyRule, hcombine]
  | compound c => rw [applyRule, applyRule, hcombine]

/-- Two relaxers relax a tree alike if their rules for its operations do the same. -/
theorem relax_congr {rx ry : Relaxer} (hnested : rx.nested = ry.nested) {e : Expr π}
    (h : ∀ op ∈ e.operations, ∀ (s : Span) (l r : Expr π),
      rx.applyRule (rx.ruleFor op) op s l r = ry.applyRule (ry.ruleFor op) op s l r) :
    rx.relax e = ry.relax e := by
  induction e with
  | absent | ident | literal | foreign => rfl
  | binary op l r s hl hr =>
    rw [Expr.operations, List.forall_mem_cons, List.forall_mem_append] at h
    obtain ⟨hop, hleft, hright⟩ := h
    rw [relax, relax, hl hleft, hr hright, hop]
  | prefixed op x s hx =>
    rw [relax, relax, hnested, hx h]
  | group es s hes =>
    rw [Expr.operations, Expr.operationsAll_eq_flatMap, List.forall_mem_flatMap] at h
    rw [relax, relax, relaxAll_eq_map, relaxAll_eq_map]
    exact congrArg (Expr.group · s) (List.map_congr_left fun e he => hes e he (h e he))
  | call f args s _ hargs =>
    rw [Expr.operations, Expr.operationsArgs_eq_flatMap, List.forall_mem_flatMap] at h
    rw [relax, relax, relaxArgs_eq_map, relaxArgs_eq_map]
    refine congrArg (Expr.call f · s) (List.map_congr_left fun a ha => ?_)
    rw [hargs a ha (h a ha)]
  | assign t v s ht hv =>
    rw [Expr.operations, List.forall_mem_append] at h
    rw [relax, relax, hnested, ht h.1, hv h.2]

/-- Of two tables, only the rules for the operations of a tree matter to it. -/
theorem relax_congr_of_ruleFor {rx ry : Relaxer} (hsum : rx.sum = ry.sum)
    (hproduct : rx.product = ry.product) (hnested : rx.nested = ry.nested) {e : Expr π}
    (h : ∀ op ∈ e.operations, rx.ruleFor op = ry.ruleFor op) : rx.relax e = ry.relax e := by
  refine relax_congr hnested fun op hop s l r => ?_
  rw [h op hop, applyRule_congr hsum hproduct]

end Relaxer

/-- **Relaxing consults only the rules for the operations that are there.** Two relaxers that differ
in nothing but their tables give the same tree, to the last span, if they have the same rules for
the symbols of all operations outside callees, where none is the rule to keep. So rules for other
symbols may be added and deleted, even for those that the rules themselves put in. -/
theorem relax_consults_own_operations (rx : Relaxer) (e : Expr π) :
    (∀ ry : Relaxer, ry.sum = rx.sum → ry.product = rx.product → ry.nested = rx.nested →
      (∀ op ∈ e.operations, ry.ruleFor op = rx.ruleFor op) → ry.relax e = rx.relax e) ∧
    (∀ table, rx.table.Amended (· ∉ e.operations) table →
      { rx with table := table }.relax e = rx.relax e) := by
  have hconsulted : ∀ ry : Relaxer, ry.sum = rx.sum → ry.product = rx.product →
      ry.nested = rx.nested → (∀ op ∈ e.operations, ry.ruleFor op = rx.ruleFor op) →
      ry.relax e = rx.relax e := by
    intro ry hsum hproduct hnested hrules
    exact Relaxer.relax_congr_of_ruleFor hsum hproduct hnested hrules
  refine ⟨hconsulted, ?_⟩
  intro table htable
  refine hconsulted { rx with table := table } rfl rfl rfl fun op hop => ?_
  rw [Relaxer.ruleFor, Relaxer.ruleFor, htable.get?_eq (not_not_intro hop)]

/-- The relaxer with a table of one rule, by which a sum is assigned to the left operand of `/=`. -/
def consultedRelaxer : Relaxer :=
  { Relaxer.standard with
    table := Table.empty.add (utf8 "/=") (.compound (.operation (utf8 "+"))) }

/-- The standard relaxer with that rule. It has a rule for what the rule puts in. -/
def summingRelaxer : Relaxer :=
  { Relaxer.standard with
    table := Table.standard.add (utf8 "/=") (.compound (.operation (utf8 "+"))) }

/-- The tree of `(f - g)(x /= (y /= z))`. -/
def consultedExample : Expr Empty :=
  .call (.group [.binary (utf8 "-") (.ident (utf8 "f") ⟨1, 2⟩) (.ident (utf8 "g") ⟨5, 6⟩) ⟨1, 6⟩]
      ⟨0, 7⟩)
    [([], .binary (utf8 "/=") (.ident (utf8 "x") ⟨8, 9⟩)
      (.group [.binary (utf8 "/=") (.ident (utf8 "y") ⟨14, 15⟩) (.ident (utf8 "z") ⟨19, 20⟩)
        ⟨14, 20⟩] ⟨13, 21⟩) ⟨8, 21⟩)] ⟨0, 22⟩

theorem relax_consults_own_operations_consultedExample :
    summingRelaxer.sum = consultedRelaxer.sum ∧
    summingRelaxer.product = consultedRelaxer.product ∧
    summingRelaxer.nested = consultedRelaxer.nested ∧
    (∀ op ∈ consultedExample.operations,
      summingRelaxer.ruleFor op = consultedRelaxer.ruleFor op) ∧
    summingRelaxer.ruleFor (utf8 "+") ≠ consultedRelaxer.ruleFor (utf8 "+") ∧
    summingRelaxer.relax consultedExample = consultedRelaxer.relax consultedExample ∧
    consultedRelaxer.table.Amended (· ∉ consultedExample.operations)
      (consultedRelaxer.table.add (utf8 "+") (.binary .nothing)) ∧
    { consultedRelaxer with
        table := consultedRelaxer.table.add (utf8 "+") (.binary .nothing) }.relax consultedExample
      = consultedRelaxer.relax consultedExample := by
  have hboth := relax_consults_own_operations consultedRelaxer consultedExample
  have hrules : ∀ op ∈ consultedExample.operations,
      summingRelaxer.ruleFor op = consultedRelaxer.ruleFor op := by
    decide
  have htable : consultedRelaxer.table.Amended (· ∉ consultedExample.operations)
      (consultedRelaxer.table.add (utf8 "+") (.binary .nothing)) :=
    .add .same (by decide)
  exact ⟨rfl, rfl, rfl, hrules, by decide, hboth.1 summingRelaxer rfl rfl rfl hrules, htable,
    hboth.2 _ htable⟩

end RelaxArith
