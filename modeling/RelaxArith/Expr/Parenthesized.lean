/-
Trees as source text.

Unlike the infix form, the formatted text respects precedence: where the shape of a tree is not
expressed by its groupings, parentheses are inserted.  A level says how tightly an operator must
bind to stand in a place without them.  A part that is missing is written as such, but a stub
cannot be looked into, and formatting fails where it comes to one.
-/
import RelaxArith.Expr
import RelaxArith.Expr.Precedence

namespace RelaxArith.Expr

variable {π : Type}

/-- Parentheses around a text, if wanted. -/
def parens (wanted : Bool) (s : Bytes) : Bytes :=
  if wanted then utf8 "(" ++ s ++ utf8 ")" else s

mutual

/-- The text of a tree at a place of some level, unless a stub was looked into. -/
def formatAt (level : Nat) : Expr π → Except Fault Bytes
  | absent none => .ok (utf8 "<nil>")
  | absent (some _) => .error .missingNode
  | ident name _ => .ok name
  | literal _ raw _ => .ok raw
  | binary op l r _ => do
    let b := Binding.ofAny op
    let left ← l.formatAt b.leftLevel
    let right ← r.formatAt b.rightLevel
    return parens (b.precedence < level) (left ++ utf8 " " ++ op ++ utf8 " " ++ right)
  | prefixed op x _ => do
    let operand ← x.formatAt Binding.prefixLevel
    return parens (Binding.prefixLevel < level) (op ++ operand)
  | group es _ => do
    let elements ← formatAll es
    return utf8 "(" ++ Bytes.join (utf8 ", ") elements ++ utf8 ")"
  | call f args _ => do
    let callee ← f.formatAt Binding.postfixLevel
    let arguments ← formatArgs args
    return callee ++ utf8 "(" ++ Bytes.join (utf8 ", ") arguments ++ utf8 ")"
  | assign t v _ => do
    let target ← t.formatAt 2
    let value ← v.formatAt 1
    return parens (1 < level) (target ++ utf8 " = " ++ value)
  | foreign text _ _ => .ok text

/-- The texts of several trees. -/
def formatAll : List (Expr π) → Except Fault (List Bytes)
  | [] => .ok []
  | e :: es => do
    let first ← e.formatAt 0
    let rest ← formatAll es
    return first :: rest

/-- The texts of arguments, each behind its label if it has one. -/
def formatArgs : List (Bytes × Expr π) → Except Fault (List Bytes)
  | [] => .ok []
  | (label, e) :: args => do
    let value ← e.formatAt 0
    let rest ← formatArgs args
    return ((if label.isEmpty then [] else label ++ utf8 ": ") ++ value) :: rest

end

/-- The source text of a tree. -/
def format (e : Expr π) : Except Fault Bytes := e.formatAt 0

end RelaxArith.Expr
