/-
Go syntax trees.

The forms that conversion to and from expression trees understands have constructors of their
own.  Every other construct, be it an expression, a type, a statement or a declaration, is a
`Form` with its parts in source order; a part that may be left out and is, is `missing`.  So a
walk over a whole file treats all constructs alike.

Positions count bytes of the source from one; zero is "no position", which is what inserted nodes
have.  Where a node begins and ends is read off its parts, so it changes when they are replaced.
-/
import RelaxArith.Host.Lexeme

namespace RelaxArith.Host

/-- Directions of a channel type. -/
inductive Direction where
  | both
  | send
  | receive
deriving DecidableEq, Repr, Inhabited

/-- What a list of fields belongs to. -/
inductive FieldRole where
  | parameters
  | results
  | typeParameters
  | members
  | methods
deriving DecidableEq, Repr, Inhabited

/-- The constructs without a constructor of their own, with their positions. -/
inductive Form where
  -- expressions
  | star (pos : Nat)
  | index (lbrack rbrack : Nat)
  | indexList (lbrack rbrack : Nat)
  | slice (lbrack rbrack : Nat) (three : Bool)
  | assertion (lparen rparen : Nat)
  | composite (typed : Bool) (lbrace rbrace : Nat)
  | keyValue (colon : Nat)
  | function
  | ellipsis (pos : Nat)
  -- types
  | arrayType (pos : Nat)
  | mapType (pos : Nat)
  | chanType (pos arrow : Nat) (direction : Direction)
  /-- Type parameters, parameters and results. -/
  | funcType (pos : Nat)
  | structType (pos : Nat)
  | interfaceType (pos : Nat)
  | fieldList (role : FieldRole) (opening closing : Nat)
  /-- Names, a type and perhaps a tag, and whether a comment stands behind them. -/
  | field (names : Nat) (method tagged commented : Bool)
  -- statements
  | expression
  | send (arrow : Nat)
  | incDec (symbol : Bytes) (pos : Nat)
  /-- Targets and then values. -/
  | assign (symbol : Bytes) (pos : Nat) (targets : Nat)
  | go (pos : Nat)
  | defer (pos : Nat)
  | returnValues (pos : Nat)
  | branch (keyword : Bytes) (pos : Nat)
  | block (lbrace rbrace : Nat)
  /-- Initial statement, condition, body, alternative. -/
  | conditional (pos : Nat)
  /-- Initial statement, condition, step, body. -/
  | loop (pos : Nat)
  /-- Key, value, range, body. -/
  | range (pos symbolPos : Nat) (symbol : Bytes)
  /-- Initial statement, tag, body. -/
  | switch (pos : Nat)
  /-- Initial statement, assertion or assignment of one, body. -/
  | typeSwitch (pos : Nat)
  | select (pos : Nat)
  /-- Values and then statements. -/
  | clause (pos colon : Nat) (values : Nat) (isDefault : Bool)
  /-- A communication, missing in the default clause, and then statements. -/
  | commClause (pos colon : Nat)
  | labeled (colon : Nat)
  | emptyStatement (pos stop : Nat)
  | declaration
  -- declarations
  | group (keyword : Bytes) (pos lparen rparen : Nat) (documented : Bool)
  /-- Name and path; a changed end overrides that of the path. Groups of comments may stand before
  and behind it. -/
  | importSpec (endPos : Nat) (doc trailing : Option Nat)
  /-- Names, type and values, and whether a comment stands behind them. -/
  | valueSpec (names : Nat) (commented : Bool)
  /-- Name, type parameters and type. -/
  | typeSpec (assign : Nat)
  /-- Receiver, name, type, body. -/
  | funcDecl (pos : Nat) (documented : Bool)
  /-- Name and declarations. -/
  | file (pos : Nat)
deriving DecidableEq, Repr, Inhabited

/-- Go syntax trees. -/
inductive Node where
  | missing
  | ident (name : Bytes) (pos : Nat) (resolved : Bool)
  /-- A literal, and the number of bytes that it takes in the source. -/
  | literal (kind : LiteralKind) (raw : Bytes) (pos width : Nat)
  | selector (x : Node) (sel : Bytes) (selPos : Nat)
  | binary (op : Bytes) (x y : Node) (opPos : Nat)
  | unary (op : Bytes) (x : Node) (pos : Nat)
  | paren (x : Node) (lparen rparen : Nat)
  /-- A call; the position of the dots of a variadic one is not zero. -/
  | call (fn : Node) (args : List Node) (lparen ellipsis rparen : Nat)
  | other (form : Form) (parts : List Node)
deriving Inhabited, Repr

/-- The position at which a form begins, if it does not begin with its first part. -/
def Form.start? : Form → Option Nat
  | .star p | .ellipsis p | .arrayType p | .mapType p | .structType p | .interfaceType p
  | .go p | .defer p | .returnValues p | .conditional p | .loop p | .switch p | .typeSwitch p
  | .select p | .funcDecl p _ | .file p => some p
  | .chanType p _ _ | .branch _ p | .block p _ | .range p _ _ | .clause p _ _ _ | .commClause p _
  | .emptyStatement p _ | .group _ p _ _ _ => some p
  | .funcType p => if p = 0 then none else some p
  | .fieldList _ p _ => if p = 0 then none else some p
  | .composite typed p _ => if typed then none else some p
  | _ => none

/-- The position at which a form ends, if it does not end with its last part. -/
def Form.stop? : Form → Option Nat
  | .index _ p | .indexList _ p | .slice _ p _ | .assertion _ p | .composite _ _ p => some (p + 1)
  | .fieldList _ _ p => if p = 0 then none else some (p + 1)
  | .incDec _ p => some (p + 2)
  | .block _ p => if p = 0 then none else some (p + 1)
  | .emptyStatement _ p => some p
  | .group _ _ _ p _ => if p = 0 then none else some (p + 1)
  | .importSpec p _ _ => if p = 0 then none else some p
  | _ => none

/-- The position at which a form without parts ends. -/
def Form.bareStop : Form → Nat
  | .ellipsis p => p + 3
  | .returnValues p => p + 6
  | .branch keyword p => p + keyword.length
  | .clause _ colon _ _ | .commClause _ colon => colon + 1
  | .block p _ => p + 1
  | _ => 0

namespace Node

/-- Is a part left out? -/
def isMissing : Node → Bool
  | missing => true
  | _ => false

mutual

/-- The position at which a node begins. -/
def pos : Node → Nat
  | missing => 0
  | ident _ p _ => p
  | literal _ _ p _ => p
  | selector x _ _ => x.pos
  | binary _ x _ _ => x.pos
  | unary _ _ p => p
  | paren _ p _ => p
  | call fn _ _ _ _ => fn.pos
  | other form parts =>
    match form.start? with
    | some p => p
    | none => firstPos parts

/-- The position of the first part that is there. -/
def firstPos : List Node → Nat
  | [] => 0
  | n :: ns => if n.isMissing then firstPos ns else n.pos

end

mutual

/-- The position just behind a node. -/
def stop : Node → Nat
  | missing => 0
  | ident name p _ => p + name.length
  | literal _ _ p width => p + width
  | selector _ sel p => p + sel.length
  | binary _ _ y _ => y.stop
  | unary _ x _ => x.stop
  | paren _ _ p => p + 1
  | call _ _ _ _ p => p + 1
  | other form parts =>
    match form.stop? with
    | some p => p
    | none => lastStop form.bareStop parts

/-- The position behind the last part that is there, or another one if there is none. -/
def lastStop (bare : Nat) : List Node → Nat
  | [] => bare
  | n :: ns => lastStop (if n.isMissing then bare else n.stop) ns

end

mutual

/-- The number of nodes of a tree. -/
def size : Node → Nat
  | missing => 1
  | ident .. => 1
  | literal .. => 1
  | selector x _ _ => x.size + 1
  | binary _ x y _ => x.size + y.size + 1
  | unary _ x _ => x.size + 1
  | paren x _ _ => x.size + 1
  | call fn args _ _ _ => fn.size + sizeAll args + 1
  | other _ parts => sizeAll parts + 1

/-- The number of nodes of several trees. -/
def sizeAll : List Node → Nat
  | [] => 0
  | n :: ns => n.size + sizeAll ns

end

/-- The qualified name that a chain of selections of names spells. -/
def qualifiedName? : Node → Option Bytes
  | ident name _ _ => some name
  | selector x sel _ => x.qualifiedName?.map fun q => q ++ utf8 "." ++ sel
  | _ => none

/-- Is a node a call? -/
def isCall : Node → Bool
  | call .. => true
  | _ => false

/-- The name for the kind of an expression without a constructor of its own. -/
def formName : Form → String
  | .star _ => "StarExpr"
  | .index .. => "IndexExpr"
  | .indexList .. => "IndexListExpr"
  | .slice .. => "SliceExpr"
  | .assertion .. => "TypeAssertExpr"
  | .composite .. => "CompositeLit"
  | .keyValue _ => "KeyValueExpr"
  | .function => "FuncLit"
  | .ellipsis _ => "Ellipsis"
  | .arrayType _ => "ArrayType"
  | .mapType _ => "MapType"
  | .chanType .. => "ChanType"
  | .funcType _ => "FuncType"
  | .structType _ => "StructType"
  | .interfaceType _ => "InterfaceType"
  | _ => ""

/-- The name for the kind of an expression. -/
def typeName : Node → Bytes
  | missing => []
  | ident .. => utf8 "Ident"
  | literal .. => utf8 "BasicLit"
  | selector .. => utf8 "SelectorExpr"
  | binary .. => utf8 "BinaryExpr"
  | unary .. => utf8 "UnaryExpr"
  | paren .. => utf8 "ParenExpr"
  | call .. => utf8 "CallExpr"
  | other form _ => utf8 (formName form)

/-! ### Short form

Expressions on one line, with literals of functions and composite values cut short. -/

/-- Is a list of results a single one without a name? -/
def isLoneResult : List Node → Bool
  | [other (.field 0 _ _ _) _] => true
  | _ => false

/-- The short form of a construct, given those of its parts. -/
def shortWith (form : Form) (parts : List Node) (ts : List Bytes) : Bytes :=
  let part (i : Nat) : Bytes := ts.getD i []
  match form with
  | .star _ => utf8 "*" ++ part 0
  | .index _ _ | .indexList _ _ =>
    part 0 ++ utf8 "[" ++ Bytes.join (utf8 ", ") (ts.drop 1) ++ utf8 "]"
  | .slice _ _ three =>
    part 0 ++ utf8 "[" ++ part 1 ++ utf8 ":" ++ part 2 ++
      (if three then utf8 ":" ++ part 3 else []) ++ utf8 "]"
  | .assertion _ _ =>
    let missing := (parts.drop 1).all isMissing
    part 0 ++ utf8 ".(" ++ (if missing then utf8 "(ast: <nil>)" else part 1) ++ utf8 ")"
  | .composite typed _ _ =>
    (if typed then part 0 else utf8 "(ast: <nil>)") ++ utf8 "\x7b" ++
      (if parts.length ≤ 1 then [] else utf8 "…") ++ utf8 "\x7d"
  | .function => utf8 "(" ++ part 0 ++ utf8 " literal)"
  | .ellipsis _ => utf8 "..." ++ part 0
  | .arrayType _ => utf8 "[" ++ part 0 ++ utf8 "]" ++ part 1
  | .mapType _ => utf8 "map[" ++ part 0 ++ utf8 "]" ++ part 1
  | .chanType _ _ .both => utf8 "chan " ++ part 0
  | .chanType _ _ .send => utf8 "chan<- " ++ part 0
  | .chanType _ _ .receive => utf8 "<-chan " ++ part 0
  | .funcType _ => utf8 "func" ++ part 1 ++ part 2
  | .structType _ => utf8 "struct\x7b" ++ part 0 ++ utf8 "\x7d"
  | .interfaceType _ => utf8 "interface\x7b" ++ part 0 ++ utf8 "\x7d"
  | .fieldList .parameters _ _ => utf8 "(" ++ Bytes.join (utf8 ", ") ts ++ utf8 ")"
  | .fieldList .results _ _ =>
    if ts.isEmpty then []
    else if isLoneResult parts then utf8 " " ++ part 0
    else utf8 " (" ++ Bytes.join (utf8 ", ") ts ++ utf8 ")"
  | .fieldList _ _ _ => Bytes.join (utf8 "; ") ts
  | .field names method _ _ =>
    let type := part names
    Bytes.join (utf8 ", ") (ts.take names) ++
      (if method then type.drop 4 else if names = 0 then type else utf8 " " ++ type)
  | _ => []

mutual

/-- The short form of an expression. -/
def short : Node → Bytes
  | missing => []
  | ident name _ _ => name
  | literal _ raw _ _ => raw
  | selector x sel _ => x.short ++ utf8 "." ++ sel
  | binary op x y _ => x.short ++ utf8 " " ++ op ++ utf8 " " ++ y.short
  | unary op x _ => op ++ x.short
  | paren x _ _ => utf8 "(" ++ x.short ++ utf8 ")"
  | call fn args _ ellipsis _ =>
    fn.short ++ utf8 "(" ++ Bytes.join (utf8 ", ") (shorts args) ++
      (if ellipsis = 0 then [] else utf8 "...") ++ utf8 ")"
  | other form parts => shortWith form parts (shorts parts)

/-- The short forms of several expressions. -/
def shorts : List Node → List Bytes
  | [] => []
  | n :: ns => n.short :: shorts ns

end

end Node
end RelaxArith.Host
