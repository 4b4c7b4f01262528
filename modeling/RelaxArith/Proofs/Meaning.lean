/-
Relaxing keeps the meaning of a tree.

A tree is given a meaning that runs from left to right over a state and may fail.  Names and
foreign constructs read the state, assignments write it, and calls do whatever they do; what is
fixed is only that `+`, `-` and `*` are arithmetic, that a difference is the sum with the negated
right operand, and that the relaxed functions, given two arguments without labels, are sum and
product.  Then a tree and its relaxed form mean the same, whether or not assignments and
operators in front of an operand are entered: operands are still evaluated once each, in the
order in which they were written.

A compound assignment names its target once, and the plain assignment it becomes names it
twice.  That is harmless where reading the target has no effect, so targets are taken to be
leaves.
-/
import RelaxArith.Relax
import RelaxArith.Proofs.Erasure
import RelaxArith.Proofs.Rules

namespace RelaxArith

/-- A tree that an assignment can write to: a name, a constant or a foreign construct. -/
inductive Place where
  | name (n : Bytes)
  | literal (type : LiteralType) (raw : Bytes)
  | foreign (text : Bytes)
deriving DecidableEq

/-- The place a leaf stands for. -/
def Expr.place? {π : Type} : Expr π → Option Place
  | .ident n _ => some (.name n)
  | .literal t r _ => some (.literal t r)
  | .foreign t _ _ => some (.foreign t)
  | _ => none

/-- The operations that have relaxed forms. -/
inductive Arithmetic where
  | add
  | sub
  | mul
deriving DecidableEq

namespace Arithmetic

/-- The operation of an operator symbol. -/
def plain? (op : Bytes) : Option Arithmetic :=
  if op = utf8 "+" then some .add
  else if op = utf8 "-" then some .sub
  else if op = utf8 "*" then some .mul
  else none

/-- The operation of a compound assignment. -/
def compound? (op : Bytes) : Option Arithmetic :=
  if op = utf8 "+=" then some .add
  else if op = utf8 "-=" then some .sub
  else if op = utf8 "*=" then some .mul
  else none

end Arithmetic

/-- A computation over a state `σ` that gives a value or fails. -/
abbrev Computation (σ ν : Type) := StateT σ Option ν

/-- What the parts of trees mean, with values of type `ν` and states of type `σ`, for relaxed
functions of two given names. -/
structure Meaning (σ ν : Type) (sum product : Bytes) where
  /-- Names and foreign constructs read the state and leave it as it is. -/
  read : Place → σ → Option ν
  /-- Constants. -/
  constant : LiteralType → Bytes → ν
  /-- Writing a value to a place; the assignment may have any value. -/
  write : Place → ν → Computation σ ν
  add : ν → ν → ν
  sub : ν → ν → ν
  mul : ν → ν → ν
  neg : ν → ν
  /-- Every other binary operator, which may evaluate its operands as it likes. -/
  binary : Bytes → Computation σ ν → Computation σ ν → Computation σ ν
  /-- Every other operator in front of an operand. -/
  prefixed : Bytes → Computation σ ν → Computation σ ν
  /-- Groupings of no element or of several. -/
  tuple : List (Computation σ ν) → Computation σ ν
  /-- Assignments to anything but a leaf. -/
  assign : Computation σ ν → Computation σ ν → Computation σ ν
  /-- Calls: of a callee, with labels and values of arguments. -/
  call : Expr Empty → List Bytes → List ν → Computation σ ν
  sub_eq : ∀ a b, sub a b = add a (neg b)
  call_sum : ∀ a b, call (.ident sum .null) [[], []] [a, b] = pure (add a b)
  call_product : ∀ a b, call (.ident product .null) [[], []] [a, b] = pure (mul a b)

namespace Meaning

variable {σ ν π : Type} {sum product : Bytes} (m : Meaning σ ν sum product)

/-- Arithmetic on values. -/
def apply : Arithmetic → ν → ν → ν
  | .add => m.add
  | .sub => m.sub
  | .mul => m.mul

/-- Reading a place. -/
def fetch : Place → Computation σ ν
  | .literal t r => pure (m.constant t r)
  | p => fun s => (m.read p s).map fun v => (v, s)

/-- Two operands from left to right, and arithmetic on their values. -/
def operate (a : Arithmetic) (left right : Computation σ ν) : Computation σ ν := do
  let x ← left
  let y ← right
  pure (m.apply a x y)

/-- An operation between two operands, the left of which may be a place. -/
def operation (op : Bytes) (place : Option Place) (left right : Computation σ ν) :
    Computation σ ν :=
  match Arithmetic.plain? op with
  | some a => m.operate a left right
  | none =>
    match Arithmetic.compound? op, place with
    | some a, some p => do
      let x ← m.fetch p
      let y ← right
      m.write p (m.apply a x y)
    | _, _ => m.binary op left right

/-- A grouping: one element stands for itself. -/
def grouping : List (Computation σ ν) → Computation σ ν
  | [x] => x
  | xs => m.tuple xs

/-- An operator in front of an operand. -/
def front (op : Bytes) (x : Computation σ ν) : Computation σ ν :=
  if op = utf8 "-" then m.neg <$> x else m.prefixed op x

/-- An assignment: the value is computed before it is written. -/
def assignment (place : Option Place) (target value : Computation σ ν) : Computation σ ν :=
  match place with
  | some p => do
    let v ← value
    m.write p v
  | none => m.assign target value

mutual

/-- The meaning of a tree. -/
def denote : Expr π → Computation σ ν
  | .absent _ => failure
  | .ident n _ => m.fetch (.name n)
  | .literal t r _ => m.fetch (.literal t r)
  | .binary op l r _ => m.operation op l.place? (denote l) (denote r)
  | .prefixed op x _ => m.front op (denote x)
  | .group es _ => m.grouping (denoteAll es)
  | .call f args _ => do
    let vs ← denoteArgs args
    m.call f.erase (args.map Prod.fst) vs
  | .assign t v _ => m.assignment t.place? (denote t) (denote v)
  | .foreign t _ _ => m.fetch (.foreign t)

/-- The meanings of several trees. -/
def denoteAll : List (Expr π) → List (Computation σ ν)
  | [] => []
  | e :: es => denote e :: denoteAll es

/-- The values of arguments, from left to right. -/
def denoteArgs : List (Bytes × Expr π) → Computation σ (List ν)
  | [] => pure []
  | (_, e) :: args => do
    let v ← denote e
    let vs ← denoteArgs args
    pure (v :: vs)

end

attribute [local simp] denote denoteAll denoteArgs

variable {m}

/-! ### Pieces of relaxed trees -/

theorem denote_of_place {e : Expr π} {p : Place} (h : e.place? = some p) :
    m.denote e = m.fetch p := by
  cases e with
  | ident n s => rw [← Option.some.inj h, denote]
  | literal t r s => rw [← Option.some.inj h, denote]
  | foreign t q s => rw [← Option.some.inj h, denote]
  | absent | binary | prefixed | group | call | assign => exact absurd h (by simp [Expr.place?])

/-- A leaf has nothing to relax and no stubs to lose. -/
theorem relax_of_place {e : Expr π} {p : Place} (rx : Relaxer) (h : e.place? = some p) :
    rx.relax e = e ∧ e.withoutStubs = e := by
  cases e with
  | ident | literal | foreign => exact ⟨by rw [Relaxer.relax], by rw [Expr.withoutStubs]⟩
  | absent | binary | prefixed | group | call | assign => exact absurd h (by simp [Expr.place?])

@[simp]
theorem denote_withSpan (s : Span) (e : Expr π) : m.denote (Relaxer.withSpan s e) = m.denote e := by
  cases e <;> simp [Relaxer.withSpan]

/-- Negating a tree negates its value, in parentheses or not. -/
theorem denote_negate (e : Expr π) : m.denote e.negate = m.neg <$> m.denote e := by
  rw [Expr.negate, denote, front, if_pos rfl]
  split
  · rw [denote, denoteAll, denoteAll, grouping]
  · rfl

theorem denote_relaxedCall (name : Bytes) (l r : Expr π) :
    m.denote (Relaxer.relaxedCall name l r) = (do
      let x ← m.denote l
      let y ← m.denote r
      m.call (.ident name .null) [[], []] [x, y]) := by
  simp [Relaxer.relaxedCall, Expr.callOf, Expr.erase]

/-- How a relaxed operation combines its operands. -/
def combineOf : Arithmetic → Combine
  | .add => .sum
  | .sub => .difference
  | .mul => .product

theorem denote_combine (nested : Bool) (a : Arithmetic) (l r : Expr π) :
    m.denote (Relaxer.combine ⟨sum, product, .standard, nested⟩ (combineOf a) l r)
      = m.operate a (m.denote l) (m.denote r) := by
  cases a with
  | add =>
    rw [combineOf, Relaxer.combine, denote_relaxedCall]
    simp only [m.call_sum]
    rfl
  | sub =>
    rw [combineOf, Relaxer.combine, denote_relaxedCall]
    simp only [m.call_sum, denote_negate, operate, apply, m.sub_eq, bind_map_left]
  | mul =>
    rw [combineOf, Relaxer.combine, denote_relaxedCall]
    simp only [m.call_product]
    rfl

/-! ### The standard rules -/

/-- The rule for the operation that a symbol stands for. A symbol that stands for none is kept. -/
def ruleOf (op : Bytes) : Rule :=
  match Arithmetic.plain? op, Arithmetic.compound? op with
  | some a, _ => .binary (combineOf a)
  | none, some a => .compound (combineOf a)
  | none, none => .keep

/-- The standard table relaxes the operations that symbols stand for, and no others. -/
theorem ruleFor_standard (nested : Bool) (op : Bytes) :
    Relaxer.ruleFor ⟨sum, product, .standard, nested⟩ op = ruleOf op := by
  refine Table.get?_standard_of_entries (P := fun op rule => rule.getD .keep = ruleOf op)
    (by decide) (fun op hop => ?_) op
  simp only [List.mem_cons, List.not_mem_nil, or_false, not_or] at hop
  simp [ruleOf, Arithmetic.plain?, Arithmetic.compound?, hop]

theorem ruleFor_plain (nested : Bool) {op : Bytes} {a : Arithmetic}
    (h : Arithmetic.plain? op = some a) :
    Relaxer.ruleFor ⟨sum, product, .standard, nested⟩ op = .binary (combineOf a) := by
  rw [ruleFor_standard, ruleOf, h]

theorem ruleFor_compound (nested : Bool) {op : Bytes} {a : Arithmetic}
    (hplain : Arithmetic.plain? op = none) (hcompound : Arithmetic.compound? op = some a) :
    Relaxer.ruleFor ⟨sum, product, .standard, nested⟩ op = .compound (combineOf a) := by
  rw [ruleFor_standard, ruleOf, hplain, hcompound]

theorem ruleFor_other (nested : Bool) {op : Bytes} (hplain : Arithmetic.plain? op = none)
    (hcompound : Arithmetic.compound? op = none) :
    Relaxer.ruleFor ⟨sum, product, .standard, nested⟩ op = .keep := by
  rw [ruleFor_standard, ruleOf, hplain, hcompound]

/-! ### The meaning of an operation -/

theorem operation_plain {op : Bytes} {a : Arithmetic} (h : Arithmetic.plain? op = some a)
    (p : Option Place) (l r : Computation σ ν) : m.operation op p l r = m.operate a l r := by
  simp only [operation, h]

theorem operation_compound {op : Bytes} {a : Arithmetic} (hplain : Arithmetic.plain? op = none)
    (hcompound : Arithmetic.compound? op = some a) (p : Place) (l r : Computation σ ν) :
    m.operation op (some p) l r = (m.operate a (m.fetch p) r >>= m.write p) := by
  simp only [operation, hplain, hcompound, operate, bind_assoc, pure_bind]

theorem operation_other {op : Bytes} (hplain : Arithmetic.plain? op = none)
    (hcompound : Arithmetic.compound? op = none) (p : Option Place) (l r : Computation σ ν) :
    m.operation op p l r = m.binary op l r := by
  simp only [operation, hplain, hcompound]

/-! ### The meaning of a relaxed tree -/

/-- What a node assigns to, if it assigns to anything, is a leaf. -/
def TargetIsLeaf : Expr π → Prop
  | .assign t _ _ => t.place?.isSome
  | .binary op l _ _ => (Arithmetic.compound? op).isSome → l.place?.isSome
  | _ => True

/-- The step at an operation: relaxing its operands kept their meanings, and the rule for its
symbol keeps the meaning of the whole. -/
theorem denote_relax_binary (nested : Bool) {op : Bytes} {l r : Expr π} {s : Span}
    (htarget : TargetIsLeaf (.binary op l r s))
    (hl : m.denote (Relaxer.relax ⟨sum, product, .standard, nested⟩ l) = m.denote l)
    (hr : m.denote (Relaxer.relax ⟨sum, product, .standard, nested⟩ r) = m.denote r) :
    m.denote (Relaxer.relax ⟨sum, product, .standard, nested⟩ (.binary op l r s))
      = m.denote (.binary op l r s) := by
  rw [Relaxer.relax, denote]
  cases hplain : Arithmetic.plain? op with
  | some a =>
    rw [ruleFor_plain nested hplain, Relaxer.applyRule, denote_withSpan, denote_combine, hl, hr,
      operation_plain hplain]
  | none =>
    cases hcompound : Arithmetic.compound? op with
    | some a =>
      -- The target is a leaf: both of its copies read the same place, and reading has no effect.
      obtain ⟨p, hp⟩ := Option.isSome_iff_exists.mp (htarget (by rw [hcompound]; rfl))
      obtain ⟨hrelax, hstubs⟩ := relax_of_place ⟨sum, product, .standard, nested⟩ hp
      rw [ruleFor_compound nested hplain hcompound, Relaxer.applyRule, hrelax, hstubs, denote, hp,
        assignment, denote_withSpan, denote_combine, hr, denote_of_place hp,
        operation_compound hplain hcompound]
    | none =>
      rw [ruleFor_other nested hplain hcompound, Relaxer.applyRule, denote, hl, hr,
        operation_other hplain hcompound, operation_other hplain hcompound]

theorem denoteAll_relaxAll (rx : Relaxer) {es : List (Expr π)}
    (h : ∀ e ∈ es, m.denote (rx.relax e) = m.denote e) :
    m.denoteAll (rx.relaxAll es) = m.denoteAll es := by
  induction es with
  | nil => rw [Relaxer.relaxAll]
  | cons e es ih =>
    rw [Relaxer.relaxAll, denoteAll, denoteAll, h e (by simp), ih fun x hx => h x (by simp [hx])]

theorem denoteArgs_relaxArgs (rx : Relaxer) {args : List (Bytes × Expr π)}
    (h : ∀ a ∈ args, m.denote (rx.relax a.2) = m.denote a.2) :
    m.denoteArgs (rx.relaxArgs args) = m.denoteArgs args := by
  induction args with
  | nil => rw [Relaxer.relaxArgs]
  | cons a args ih =>
    obtain ⟨label, e⟩ := a
    rw [Relaxer.relaxArgs, denoteArgs, denoteArgs, h (label, e) (by simp),
      ih fun x hx => h x (by simp [hx])]

theorem relaxArgs_labels (rx : Relaxer) (args : List (Bytes × Expr π)) :
    (rx.relaxArgs args).map Prod.fst = args.map Prod.fst := by
  induction args with
  | nil => rfl
  | cons a args ih =>
    obtain ⟨label, e⟩ := a
    rw [Relaxer.relaxArgs, List.map_cons, List.map_cons, ih]

/-- **A relaxed tree means what the tree means**, for functions of any names and whether or not
assignments and operators in front of an operand are entered. -/
theorem denote_relax (m : Meaning σ ν sum product) (nested : Bool) (e : Expr π)
    (h : e.All TargetIsLeaf) :
    m.denote (Relaxer.relax ⟨sum, product, .standard, nested⟩ e) = m.denote e := by
  induction e with
  | absent k => rw [Relaxer.relax, denote, denote]
  | ident n s => rw [Relaxer.relax]
  | literal t r s => rw [Relaxer.relax]
  | binary op l r s hl hr =>
    obtain ⟨htarget, hleft, hright⟩ := h
    exact denote_relax_binary nested htarget (hl hleft) (hr hright)
  | prefixed op x s hx =>
    rw [Relaxer.relax]
    split
    · rw [denote, denote, hx h.2]
    · rfl
  | group es s hes =>
    have hall := Expr.allOf_iff.mp h.2
    rw [Relaxer.relax, denote, denote, denoteAll_relaxAll _ fun e he => hes e he (hall e he)]
  | call f args s hf hargs =>
    have hall := Expr.allArgs_iff.mp h.2.2
    rw [Relaxer.relax, denote, denote, relaxArgs_labels,
      denoteArgs_relaxArgs _ fun a ha => hargs a ha (hall a ha)]
  | assign t v s ht hv =>
    obtain ⟨htarget, hleft, hright⟩ := h
    obtain ⟨p, hp⟩ := Option.isSome_iff_exists.mp htarget
    rw [Relaxer.relax]
    split
    · rw [denote, denote, (relax_of_place _ hp).1, hv hright]
    · rfl
  | foreign t p s => rw [Relaxer.relax]

/-- Integers, with variables that hold them and no functions but the relaxed ones. -/
def integers : Meaning (Bytes → Int) Int Relaxer.defaultSum Relaxer.defaultProduct where
  read
    | .name n, s => some (s n)
    | _, _ => none
  constant _ raw := raw.length
  write
    | .name n, v => fun s => some (v, fun x => if x = n then v else s x)
    | _, _ => failure
  add := (· + ·)
  sub := (· - ·)
  mul := (· * ·)
  neg := (- ·)
  binary _ _ _ := failure
  prefixed _ _ := failure
  tuple _ := failure
  assign _ _ := failure
  call
    | .ident n _, [[], []], [a, b] =>
      if n = Relaxer.defaultSum then pure (a + b)
      else if n = Relaxer.defaultProduct then pure (a * b)
      else failure
    | _, _, _ => failure
  sub_eq _ _ := Int.sub_eq_add_neg
  call_sum _ _ := rfl
  call_product _ _ := rfl

/-- The tree of `x -= a * (x + b)`. -/
def compoundExample : Expr Empty :=
  .binary (utf8 "-=") (.ident (utf8 "x") .null)
    (.binary (utf8 "*") (.ident (utf8 "a") .null)
      (.group [.binary (utf8 "+") (.ident (utf8 "x") .null) (.ident (utf8 "b") .null) .null] .null)
      .null) .null

theorem denote_relax_compoundExample :
    compoundExample.All TargetIsLeaf ∧
    integers.denote (Relaxer.standard.relax compoundExample) = integers.denote compoundExample ∧
    (integers.denote compoundExample fun _ => 3).map Prod.fst = some (-15) := by
  have h : compoundExample.All TargetIsLeaf := by
    simp [compoundExample, Expr.All, Expr.AllOf, TargetIsLeaf, Expr.place?]
  exact ⟨h, denote_relax integers true compoundExample h, rfl⟩

end Meaning
end RelaxArith
