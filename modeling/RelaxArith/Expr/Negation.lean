/-
Negation of a tree.

Names, constants, groupings and calls delimit themselves.  Everything else is put into
parentheses before the sign goes in front, whatever its operator: this may be more than is
needed, but is never less.
-/
import RelaxArith.Expr

namespace RelaxArith.Expr

variable {π : Type}

/-- Must a tree be put into parentheses before an operator goes in front of it? -/
def needsGrouping (e : Expr π) : Bool :=
  match e.kind? with
  | some .identifier | some .literal | some .grouping | some .call => false
  | _ => true

/-- The negation of a tree. -/
def negate (e : Expr π) : Expr π :=
  .prefixed (utf8 "-") (if e.needsGrouping then .group [e] e.span else e) e.span

/-- The negation of a tree whose span can be read. -/
def negate? (e : Expr π) : Except Fault (Expr π) :=
  if e.isStub then .error .missingNode else .ok e.negate

end RelaxArith.Expr
