/-
Relaxing trees: operations become calls of functions that are free to reassociate.

Operations are handed to the rule for their symbol after their operands have been relaxed.
Groupings and the arguments of calls are relaxed one by one; callees never are.  Assignments
and operators in front of an operand are entered only if the relaxer is told to.  Everything
else stays as it is, and missing parts become plain ones.
-/
import RelaxArith.Expr.Equality
import RelaxArith.Expr.Negation
import RelaxArith.Rules

namespace RelaxArith

/-- How to relax: the names of the relaxed functions, the rules, and whether to enter
assignments and operators in front of an operand. -/
structure Relaxer where
  sum : Bytes
  product : Bytes
  table : Table
  nested : Bool
deriving DecidableEq, Repr

namespace Relaxer

/-- The usual name of the relaxed sum. -/
def defaultSum : Bytes := utf8 "fastmath.Sum"

/-- The usual name of the relaxed product. -/
def defaultProduct : Bytes := utf8 "fastmath.Product"

/-- The usual relaxer. -/
def standard : Relaxer := ⟨defaultSum, defaultProduct, .standard, true⟩

variable {π : Type}

/-- The call of a relaxed function. -/
def relaxedCall (name : Bytes) (left right : Expr π) : Expr π :=
  .callOf (.ident name .null) [left, right]

/-- A combination of two relaxed operands. -/
def combine (rx : Relaxer) (c : Combine) (left right : Expr π) : Expr π :=
  match c with
  | .sum => relaxedCall rx.sum left right
  | .difference => relaxedCall rx.sum left right.negate
  | .product => relaxedCall rx.product left right
  | .left => left
  | .right => right
  | .nothing => .absent none
  | .callOf name => relaxedCall name left right
  | .operation op => .binary op left right .null

/-- A call without a span of its own takes the span of the operation that it replaces. -/
def withSpan (span : Span) : Expr π → Expr π
  | .call f args s => .call f args (if s.isNull then span else s)
  | e => e

/-- Applies a rule to an operation whose operands have been relaxed. -/
def applyRule (rx : Relaxer) (rule : Rule) (op : Bytes) (span : Span) (left right : Expr π) :
    Expr π :=
  match rule with
  | .keep => .binary op left right span
  | .binary c => withSpan span (rx.combine c left right)
  | .compound c => .assign left (withSpan span (rx.combine c left.withoutStubs right)) span

/-- The rule for a symbol; an unknown operator is kept. -/
def ruleFor (rx : Relaxer) (op : Bytes) : Rule := (rx.table.get? op).getD .keep

mutual

/-- The relaxed tree. -/
def relax (rx : Relaxer) : Expr π → Expr π
  | .absent _ => .absent none
  | .ident n s => .ident n s
  | .literal t r s => .literal t r s
  | .binary op l r s => rx.applyRule (rx.ruleFor op) op s (rx.relax l) (rx.relax r)
  | .prefixed op x s => if rx.nested then .prefixed op (rx.relax x) s else .prefixed op x s
  | .group es s => .group (rx.relaxAll es) s
  | .call f args s => .call f (rx.relaxArgs args) s
  | .assign t v s =>
    if rx.nested then .assign (rx.relax t) (rx.relax v) s else .assign t v s
  | .foreign t p s => .foreign t p s

/-- Several trees, relaxed one by one. -/
def relaxAll (rx : Relaxer) : List (Expr π) → List (Expr π)
  | [] => []
  | e :: es => rx.relax e :: rx.relaxAll es

/-- Arguments with their values relaxed. -/
def relaxArgs (rx : Relaxer) : List (Bytes × Expr π) → List (Bytes × Expr π)
  | [] => []
  | (l, e) :: args => (l, rx.relax e) :: rx.relaxArgs args

end

/-- A name, or the usual one in place of an empty one. -/
def nameOr (name usual : Bytes) : Bytes := if name.isEmpty then usual else name

/-- The relaxer with the standard table and functions of some names; empty names stand for the
usual ones. -/
def ofNames (sum product : Bytes) (nested : Bool) : Relaxer :=
  ⟨nameOr sum defaultSum, nameOr product defaultProduct, .standard, nested⟩

end Relaxer

/-- The choices for a relaxer. An empty name stands for the usual one; the rules are added to
the standard table. -/
structure Options where
  sum : Bytes := []
  product : Bytes := []
  nested : Bool := true
  rules : List (Bytes × Option Rule) := []

/-- The relaxer that was chosen. -/
def Options.relaxer (o : Options) : Except TableFault Relaxer :=
  (Table.standard.addAll o.rules).map fun table =>
    { Relaxer.ofNames o.sum o.product o.nested with table := table }

end RelaxArith
