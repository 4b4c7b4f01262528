/-
Between Go expressions and expression trees.

Names and selections of names, literals, binary and unary operations, parentheses and ordinary
calls have counterparts in the tree model.  Every other Go expression becomes a foreign node that
carries it along.  On the way back some trees have no Go form; an error says why.
-/
import RelaxArith.Expr.Forms
import RelaxArith.Host.Statements
import RelaxArith.Text.Quoted

namespace RelaxArith.Host

/-- What foreign nodes carry: a Go expression, or a remark of someone else. -/
inductive Payload where
  | remark (text : Bytes)
  | node (x : Node)
deriving Inhabited

/-! ### From Go -/

mutual

/-- The tree of a Go expression, with its positions as spans. -/
def Node.toExpr : Node → Expr Payload
  | .missing => .absent none
  | .ident name p res =>
    .ident name ⟨(Node.ident name p res).pos, (Node.ident name p res).stop⟩
  | .literal kind raw p w =>
    let type : LiteralType := if kind = .text || kind = .char then .text else .number
    .literal type raw ⟨(Node.literal kind raw p w).pos, (Node.literal kind raw p w).stop⟩
  | .selector x sel p =>
    let node := Node.selector x sel p
    match node.qualifiedName? with
    | some q => .ident q ⟨node.pos, node.stop⟩
    | none => .foreign node.short (some (.node node)) ⟨node.pos, node.stop⟩
  | .binary op x y p =>
    let node := Node.binary op x y p
    .binary op x.toExpr y.toExpr ⟨node.pos, node.stop⟩
  | .unary op x p =>
    let node := Node.unary op x p
    .prefixed op x.toExpr ⟨node.pos, node.stop⟩
  | .paren x p q =>
    let node := Node.paren x p q
    .group [x.toExpr] ⟨node.pos, node.stop⟩
  | .call fn args p e q =>
    let node := Node.call fn args p e q
    if e = 0 then .call fn.toExpr (Node.toArgs args) ⟨node.pos, node.stop⟩
    else .foreign node.short (some (.node node)) ⟨node.pos, node.stop⟩
  | .other form parts =>
    let node := Node.other form parts
    .foreign node.short (some (.node node)) ⟨node.pos, node.stop⟩

/-- The trees of arguments, without labels. -/
def Node.toArgs : List Node → List (Bytes × Expr Payload)
  | [] => []
  | x :: xs => ([], x.toExpr) :: Node.toArgs xs

end

/-! ### To Go -/

/-- Why a tree has no Go form. -/
inductive ConversionError where
  | empty
  | operator (op : Bytes)
  | prefixOperator (op : Bytes)
  | tuple (text : Bytes)
  | label (name : Bytes)
  | assignment (text : Bytes)
  /-- The text of a foreign node is no Go expression. -/
  | malformed (text : Bytes)
  | fault (f : Fault)
deriving DecidableEq, Repr

/-- The wording of an error. -/
def ConversionError.message : ConversionError → Bytes
  | .empty => utf8 "cannot convert empty expression"
  | .operator op => utf8 "operator " ++ Quoted.quote op ++ utf8 " has no Go expression form"
  | .prefixOperator op =>
    utf8 "prefix operator " ++ Quoted.quote op ++ utf8 " has no Go expression form"
  | .tuple t => utf8 "tuple " ++ t ++ utf8 " has no Go expression form"
  | .label l => utf8 "labeled argument " ++ l ++ utf8 " has no Go form"
  | .assignment t => utf8 "assignment " ++ t ++ utf8 " is not a Go expression"
  | .malformed t => utf8 "cannot convert " ++ Quoted.quote t
  | .fault f => f.message

/-- The binary operators of Go expressions. -/
def binaryOperators : List Bytes :=
  ["+", "-", "*", "/", "%", "&", "|", "^", "<<", ">>", "&^", "&&", "||", "==", "!=", "<", "<=", ">",
   ">="].map utf8

/-- The operators in front of Go expressions. -/
def unaryOperators : List Bytes := ["+", "-", "!", "^", "&", "<-"].map utf8

/-- A qualified name as a chain of selections. -/
def Node.ofName (name : Bytes) : Node :=
  match Bytes.splitOnByte 0x2E name with
  | [] => .ident [] 0 false
  | first :: sels => sels.foldl (fun x sel => .selector x sel 0) (.ident first 0 false)

/-- The kind of a literal, read off its text. -/
def literalKind (type : LiteralType) (raw : Bytes) : LiteralKind :=
  match type with
  | .text => if raw.head? == some 0x27 then .char else .text
  | .number =>
    if raw.getLast? == some 0x69 then .imaginary
    else if Bytes.startsWith raw (utf8 "0x") || Bytes.startsWith raw (utf8 "0X") then
      if raw.any fun b => b == 0x70 || b == 0x50 then .float else .int
    else if raw.any fun b => b == 0x2E || b == 0x65 || b == 0x45 then .float
    else .int

mutual

/-- The Go expression of a tree. Inserted nodes have no position. -/
def Node.ofExpr : Expr Payload → Except ConversionError Node
  | .absent none => .error .empty
  | .absent (some .assignment) => .error (.assignment (utf8 "<nil>"))
  | .absent (some _) => .error (.fault .missingNode)
  | .ident name _ => .ok (Node.ofName name)
  | .literal type raw _ => .ok (.literal (literalKind type raw) raw 0 raw.length)
  | .binary op l r _ =>
    if binaryOperators.contains op then
      match Node.ofExpr l with
      | .error e => .error e
      | .ok x =>
        match Node.ofExpr r with
        | .error e => .error e
        | .ok y => .ok (.binary op x y 0)
    else .error (.operator op)
  | .prefixed op e _ =>
    if unaryOperators.contains op then
      match Node.ofExpr e with
      | .error e => .error e
      | .ok x => .ok (.unary op x 0)
    else .error (.prefixOperator op)
  | .group es s =>
    match es with
    | [e] =>
      match Node.ofExpr e with
      | .error e => .error e
      | .ok x => .ok (.paren x 0 0)
    | es => .error (.tuple (Expr.group es s).infixForm)
  | .call f args _ =>
    match Node.ofExpr f with
    | .error e => .error e
    | .ok fn =>
      match Node.ofArgs args with
      | .error e => .error e
      | .ok xs => .ok (.call fn xs 0 0 0)
  | .assign t v s => .error (.assignment (Expr.assign t v s).infixForm)
  | .foreign _ (some (.node x)) _ => .ok x
  | .foreign text _ _ =>
    match parseExpression text with
    | some x => .ok x
    | none => .error (.malformed text)

/-- The Go expressions of arguments, which may have no labels. -/
def Node.ofArgs : List (Bytes × Expr Payload) → Except ConversionError (List Node)
  | [] => .ok []
  | (label, e) :: args =>
    if label.isEmpty then
      match Node.ofExpr e with
      | .error e => .error e
      | .ok x =>
        match Node.ofArgs args with
        | .error e => .error e
        | .ok xs => .ok (x :: xs)
    else .error (.label label)

end

end RelaxArith.Host
