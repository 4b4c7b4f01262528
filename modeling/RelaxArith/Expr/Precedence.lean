/-
The binary operators of expression text, how tightly each binds and to which side it groups, and
the operators that may stand in front of an operand.
-/
import RelaxArith.Text

namespace RelaxArith

/-- The side to which a chain of operators of one precedence groups. -/
inductive Grouping where
  | left
  | right
deriving DecidableEq, Repr

/-- Precedence and grouping of a binary operator. -/
structure Binding where
  precedence : Nat
  grouping : Grouping
deriving DecidableEq, Repr

namespace Binding

/-- The binary operators. -/
def table : List (Bytes × Binding) :=
  [(utf8 "=", ⟨1, .right⟩), (utf8 "+=", ⟨1, .right⟩), (utf8 "-=", ⟨1, .right⟩),
   (utf8 "*=", ⟨1, .right⟩), (utf8 "/=", ⟨1, .right⟩), (utf8 "%=", ⟨1, .right⟩),
   (utf8 "||", ⟨2, .left⟩),
   (utf8 "&&", ⟨3, .left⟩),
   (utf8 "==", ⟨4, .left⟩), (utf8 "!=", ⟨4, .left⟩), (utf8 "<", ⟨4, .left⟩),
   (utf8 ">", ⟨4, .left⟩), (utf8 "<=", ⟨4, .left⟩), (utf8 ">=", ⟨4, .left⟩),
   (utf8 "+", ⟨5, .left⟩), (utf8 "-", ⟨5, .left⟩),
   (utf8 "*", ⟨6, .left⟩), (utf8 "/", ⟨6, .left⟩), (utf8 "%", ⟨6, .left⟩)]

/-- How a symbol binds, if it is a binary operator. -/
def of? (op : Bytes) : Option Binding := table.lookup op

/-- How a symbol binds when it is written between operands: an unknown one binds most loosely. -/
def ofAny (op : Bytes) : Binding := (of? op).getD ⟨0, .left⟩

/-- The least precedence of an operator inside the left operand. -/
def leftLevel (b : Binding) : Nat :=
  match b.grouping with
  | .left => b.precedence
  | .right => b.precedence + 1

/-- The least precedence of an operator inside the right operand. -/
def rightLevel (b : Binding) : Nat :=
  match b.grouping with
  | .left => b.precedence + 1
  | .right => b.precedence

/-- The level of operators in front of an operand. -/
def prefixLevel : Nat := 7

/-- The level of what a call is made of. -/
def postfixLevel : Nat := 8

end Binding

/-- May a symbol stand in front of an operand? -/
def isPrefixOperator (op : Bytes) : Bool := [utf8 "-", utf8 "+", utf8 "!"].contains op

end RelaxArith
