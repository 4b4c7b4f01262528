/-
Two plain ways to write a tree down.

The infix form shows a tree as it is: groupings are the only source of parentheses.  The list
form shows the structure, with an operator or a tag at the head of each list.  In both a missing
part is written as such, stub or not.
-/
import RelaxArith.Expr

namespace RelaxArith.Expr

variable {π : Type}

mutual

/-- The infix form of a tree. -/
def infixForm : Expr π → Bytes
  | absent _ => utf8 "<nil>"
  | ident name _ => name
  | literal _ raw _ => raw
  | binary op l r _ => l.infixForm ++ utf8 " " ++ op ++ utf8 " " ++ r.infixForm
  | prefixed op x _ => op ++ x.infixForm
  | group es _ => utf8 "(" ++ Bytes.join (utf8 ", ") (infixForms es) ++ utf8 ")"
  | call f args _ =>
    f.infixForm ++ utf8 "(" ++ Bytes.join (utf8 ", ") (infixArgs args) ++ utf8 ")"
  | assign t v _ => t.infixForm ++ utf8 " = " ++ v.infixForm
  | foreign text _ _ => text

/-- The infix forms of several trees. -/
def infixForms : List (Expr π) → List Bytes
  | [] => []
  | e :: es => e.infixForm :: infixForms es

/-- The infix forms of arguments, each behind its label if it has one. -/
def infixArgs : List (Bytes × Expr π) → List Bytes
  | [] => []
  | (label, e) :: args =>
    ((if label.isEmpty then [] else label ++ utf8 ": ") ++ e.infixForm) :: infixArgs args

end

/-- The infix form of a tree that has to be there. -/
def infixForm? (e : Expr π) : Except Fault Bytes :=
  if e.isAbsent then .error .missingNode else .ok e.infixForm

mutual

/-- The list form of a tree. -/
def listForm : Expr π → Bytes
  | absent _ => utf8 "nil"
  | ident name _ => name
  | literal _ raw _ => raw
  | binary op l r _ => utf8 "(" ++ op ++ utf8 " " ++ l.listForm ++ utf8 " " ++ r.listForm ++ utf8 ")"
  | prefixed op x _ => utf8 "(#prefix " ++ op ++ utf8 " " ++ x.listForm ++ utf8 ")"
  | group es _ => utf8 "(#group" ++ listForms es ++ utf8 ")"
  | call f args _ => utf8 "(#call " ++ f.listForm ++ listArgs args ++ utf8 ")"
  | assign t v _ => utf8 "(#assign " ++ t.listForm ++ utf8 " " ++ v.listForm ++ utf8 ")"
  | foreign text _ _ => utf8 "#<" ++ text ++ utf8 ">"

/-- The list forms of several trees, each behind a blank. -/
def listForms : List (Expr π) → Bytes
  | [] => []
  | e :: es => utf8 " " ++ e.listForm ++ listForms es

/-- The list forms of arguments, each behind a blank and its label. -/
def listArgs : List (Bytes × Expr π) → Bytes
  | [] => []
  | (label, e) :: args =>
    utf8 " " ++ (if label.isEmpty then [] else label ++ utf8 ":") ++ e.listForm ++ listArgs args

end

end RelaxArith.Expr
