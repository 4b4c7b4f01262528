/-
Relaxing, with every look into a stub made to fail.

Relaxing takes all missing parts alike before it looks into a tree.  Two of its steps look into a
tree again after it was relaxed: a negation reads the span of its operand, and a call is asked
whether it has a span before it takes that of an operation.  Neither can be done to a stub.  Here
both fail on one, so that a relaxer that let a stub get there would fail as well.
-/
import RelaxArith.Relax

namespace RelaxArith.Relaxer

variable {π : Type}

/-- A combination of two operands. A stub cannot be negated. -/
def combine? (rx : Relaxer) (c : Combine) (left right : Expr π) : Except Fault (Expr π) :=
  match c with
  | .difference => do
    let negated ← right.negate?
    return relaxedCall rx.sum left negated
  | c => .ok (rx.combine c left right)

/-- A call without a span of its own takes the span of an operation. The stub of a call cannot be
asked for its span. -/
def withSpan? (span : Span) : Expr π → Except Fault (Expr π)
  | .absent (some .call) => .error .missingNode
  | e => .ok (withSpan span e)

/-- Applies a rule to an operation whose operands have been relaxed. -/
def applyRule? (rx : Relaxer) (rule : Rule) (op : Bytes) (span : Span) (left right : Expr π) :
    Except Fault (Expr π) :=
  match rule with
  | .keep => .ok (.binary op left right span)
  | .binary c => do
    let replacement ← rx.combine? c left right
    withSpan? span replacement
  | .compound c => do
    let combined ← rx.combine? c left.withoutStubs right
    let value ← withSpan? span combined
    return .assign left value span

mutual

/-- The relaxed tree, unless a stub was looked into. -/
def relax? (rx : Relaxer) : Expr π → Except Fault (Expr π)
  | .absent _ => .ok (.absent none)
  | .ident n s => .ok (.ident n s)
  | .literal t r s => .ok (.literal t r s)
  | .binary op l r s => do
    let left ← rx.relax? l
    let right ← rx.relax? r
    rx.applyRule? (rx.ruleFor op) op s left right
  | .prefixed op x s =>
    if rx.nested then do
      let operand ← rx.relax? x
      return .prefixed op operand s
    else .ok (.prefixed op x s)
  | .group es s => do
    let elements ← rx.relaxAll? es
    return .group elements s
  | .call f args s => do
    let relaxed ← rx.relaxArgs? args
    return .call f relaxed s
  | .assign t v s =>
    if rx.nested then do
      let target ← rx.relax? t
      let value ← rx.relax? v
      return .assign target value s
    else .ok (.assign t v s)
  | .foreign t p s => .ok (.foreign t p s)

/-- Several trees, relaxed one by one. -/
def relaxAll? (rx : Relaxer) : List (Expr π) → Except Fault (List (Expr π))
  | [] => .ok []
  | e :: es => do
    let first ← rx.relax? e
    let rest ← rx.relaxAll? es
    return first :: rest

/-- Arguments with their values relaxed. -/
def relaxArgs? (rx : Relaxer) : List (Bytes × Expr π) → Except Fault (List (Bytes × Expr π))
  | [] => .ok []
  | (l, e) :: args => do
    let value ← rx.relax? e
    let rest ← rx.relaxArgs? args
    return (l, value) :: rest

end

end RelaxArith.Relaxer
