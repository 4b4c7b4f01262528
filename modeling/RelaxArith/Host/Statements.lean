/-
The grammar of Go statements, declarations and files, and the knot of the whole grammar.
-/
import RelaxArith.Host.Grammar

namespace RelaxArith.Host.Grammar

variable (r : Rules)

/-! ### Statements -/

/-- Where a simple statement stands: some places admit a label or a range. -/
inductive Place where
  | plain
  | label
  | range
deriving DecidableEq

/-- The symbols of assignments. -/
def assignSymbols : List String :=
  [":=", "=", "+=", "-=", "*=", "/=", "%=", "&=", "|=", "^=", "<<=", ">>=", "&^="]

/-- An expression, an assignment, a step, a send, or a labeled statement. A range is given as an
assignment and its flag. -/
def simple (place : Place) : Parser (Node × Bool) := do
  let xs ← expressions r
  if ← atAny? assignSymbols then
    let l ← next
    if place = .range && (← at? "range") && (l.text == utf8 ":=" || l.text == utf8 "=") then
      let _ ← next
      let x ← expression r
      return (.other (.assign l.text l.pos xs.length) (xs ++ [x]), true)
    else
      let ys ← expressions r
      return (.other (.assign l.text l.pos xs.length) (xs ++ ys), false)
  match xs with
  | [x] =>
    if ← at? ":" then
      let colon := (← next).pos
      match place, x with
      | .label, .ident .. => return (.other (.labeled colon) [x, ← r.statement], false)
      | _, _ => failure
    else if ← at? "<-" then
      let arrow := (← next).pos
      return (.other (.send arrow) [x, ← expression r], false)
    else if ← atAny? ["++", "--"] then
      let l ← next
      return (.other (.incDec l.text l.pos) [x], false)
    else return (.other .expression [x], false)
  | _ => failure

/-- The expression of an expression statement; a missing statement has a missing one. -/
def condition : Node → Parser Node
  | .other .expression [x] => return x
  | .missing => return .missing
  | _ => failure

/-- Statements up to a closing brace or the next clause. -/
def statements : Parser (List Node) :=
  many (do return !((← atAny? ["case", "default", "\x7d"]) || (← atEnd?))) r.statement

/-- Statements in braces. -/
def block : Parser Node := do
  let lbrace ← expect "\x7b"
  let body ← statements r
  let rbrace ← expect "\x7d"
  return .other (.block lbrace rbrace) body

/-- Runs the parser of a control clause. -/
def inClause {α : Type} (p : Parser α) : Parser α := atLevel (fun _ => -1) p

/-- A conditional statement. -/
def conditional : Parser Node := do
  let pos ← expect "if"
  if ← at? "\x7b" then failure
  let (first, cond) ← inClause do
    let first ← if ← at? ";" then pure Node.missing else pure (← simple r .plain).1
    if ← at? "\x7b" then pure (Node.missing, ← condition first)
    else do
      let _ ← expect ";"
      if ← at? "\x7b" then failure
      pure (first, ← condition (← simple r .plain).1)
  if cond.isMissing then failure
  let body ← block r
  let alternative ←
    if ← accept "else" then
      if ← at? "if" then r.conditional
      else do
        let b ← block r
        let _ ← semicolon r
        pure b
    else do
      let _ ← semicolon r
      pure .missing
  return .other (.conditional pos) [first, cond, body, alternative]

/-- A loop of either kind. -/
def loop : Parser Node := do
  let pos ← expect "for"
  let (s₁, s₂, s₃, isRange) ← inClause do
    if ← at? "\x7b" then pure (Node.missing, Node.missing, Node.missing, false)
    else do
      let (s₂, isRange) ←
        if ← at? ";" then pure (Node.missing, false)
        else if ← at? "range" then do
          let _ ← next
          pure (Node.other (.assign [] 0 0) [← expression r], true)
        else simple r .range
      if !isRange && (← at? ";") then
        let _ ← next
        let cond ←
          if ← at? ";" then pure Node.missing
          else if ← at? "\x7b" then failure
          else pure (← simple r .plain).1
        let _ ← semicolon r
        let step ← if ← at? "\x7b" then pure Node.missing else pure (← simple r .plain).1
        pure (s₂, cond, step, false)
      else pure (Node.missing, s₂, Node.missing, isRange)
  let body ← block r
  let _ ← semicolon r
  if isRange then
    match s₂ with
    | .other (.assign symbol symbolPos targets) xs =>
      let x := xs.getLast?.getD .missing
      let form := Form.range pos symbolPos symbol
      match targets, xs with
      | 0, _ => return .other form [.missing, .missing, x, body]
      | 1, k :: _ => return .other form [k, .missing, x, body]
      | 2, k :: v :: _ => return .other form [k, v, x, body]
      | _, _ => failure
    | _ => failure
  else return .other (.loop pos) [s₁, ← condition s₂, s₃, body]

/-- A clause of a switch. -/
def clause : Parser Node := do
  if ← at? "case" then
    let pos ← expect "case"
    let values ← expressions r
    let colon ← expect ":"
    let body ← statements r
    return .other (.clause pos colon values.length false) (values ++ body)
  else
    let pos ← expect "default"
    let colon ← expect ":"
    let body ← statements r
    return .other (.clause pos colon 0 true) body

/-- Is an expression an assertion of a type that is yet to be found out? -/
def isTypeAssertion : Node → Bool
  | .other (.assertion _ _) [_, t] => t.isMissing
  | _ => false

/-- Does a statement ask for the type of something? An assignment of that declares a name. -/
def isTypeGuard : Node → Parser Bool
  | .other .expression [x] => return isTypeAssertion x
  | .other (.assign symbol _ 1) [_, y] => do
    if !isTypeAssertion y then return false
    if symbol == utf8 "=" then failure
    return symbol == utf8 ":="
  | _ => return false

/-- A switch over values or types. -/
def switch : Parser Node := do
  let pos ← expect "switch"
  let (first, tag) ← inClause do
    if ← at? "\x7b" then pure (Node.missing, Node.missing)
    else do
      let s ← if ← at? ";" then pure Node.missing else pure (← simple r .plain).1
      if ← accept ";" then
        let tag ← if ← at? "\x7b" then pure Node.missing else pure (← simple r .plain).1
        pure (s, tag)
      else pure (Node.missing, s)
  let overTypes ← isTypeGuard tag
  let lbrace ← expect "\x7b"
  let clauses ← many (atAny? ["case", "default"]) (clause r)
  let rbrace ← expect "\x7d"
  let _ ← semicolon r
  let body := Node.other (.block lbrace rbrace) clauses
  if overTypes then return .other (.typeSwitch pos) [first, tag, body]
  else return .other (.switch pos) [first, ← condition tag, body]

/-- What a clause of a selection waits for: a send, or a receive, perhaps with an assignment. -/
def communication : Parser Node := do
  let xs ← expressions r
  if ← at? "<-" then
    let arrow := (← next).pos
    match xs with
    | [x] => return .other (.send arrow) [x, ← expression r]
    | _ => failure
  else if ← atAny? ["=", ":="] then
    if 2 < xs.length then failure
    let l ← next
    return .other (.assign l.text l.pos xs.length) (xs ++ [← expression r])
  else
    match xs with
    | [x] => return .other .expression [x]
    | _ => failure

/-- A clause of a selection. -/
def commClause : Parser Node := do
  let pos := (← peek).pos
  let comm ←
    if ← accept "case" then communication r
    else do
      let _ ← expect "default"
      pure Node.missing
  let colon ← expect ":"
  return .other (.commClause pos colon) (comm :: (← statements r))

/-- A selection among communications. -/
def select : Parser Node := do
  let pos ← expect "select"
  let lbrace ← expect "\x7b"
  let clauses ← many (atAny? ["case", "default"]) (commClause r)
  let rbrace ← expect "\x7d"
  let _ ← semicolon r
  return .other (.select pos) [.other (.block lbrace rbrace) clauses]

/-- The call behind `go` and `defer`. -/
def startedCall : Parser Node := do
  match ← expression r with
  | .call fn args l e q => return .call fn args l e q
  | _ => failure

/-! ### Declarations -/

/-- A declared name, or several, with a type and values. -/
def valueSpec (constant : Bool) : Parser Node := do
  let names ← commaList name
  let t ←
    if ← at? "=" then pure Node.missing
    else if constant then do
      if ← atAny? [";", ")"] then pure Node.missing else pure ((← r.type?).getD .missing)
    else type r
  let values ← if ← accept "=" then expressions r else pure []
  let comment ← semicolon r
  return .other (.valueSpec names.length comment.isSome) (names ++ [t] ++ values)

/-- Cuts an expression in brackets behind the name of a declared type into the name of a type
parameter and the set of types behind it, if it can be read like that. It has to be if `force`
holds; otherwise the set shows that it is one. -/
def splitParameter (force : Bool) : Node → Option (Node × Option Node)
  | .ident n p res => some (.ident n p res, none)
  | .binary op x y p =>
    if op == utf8 "*" then
      match x with
      | .ident .. => if force || isTypeElement y then some (x, some (.other (.star p) [y])) else none
      | _ => none
    else if op == utf8 "|" then
      match splitParameter (force || isTypeElement y) x with
      | some (n, some t) => some (n, some (.binary op t y p))
      | _ => none
    else none
  | .call fn [x] _ 0 _ =>
    match fn with
    | .ident .. => if force || isTypeElement x then some (fn, some (unparen x)) else none
    | _ => none
  | _ => none

/-- The length of an array and the type of its elements behind an opening bracket. -/
def arrayBehind (lbrack : Nat) (length : Option Node) : Parser Node := do
  let len ←
    match length with
    | some n => pure n
    | none =>
      inBrackets do
        if ← at? "..." then
          let e := (← next).pos
          pure (Node.other (.ellipsis e) [.missing])
        else if ← at? "]" then pure Node.missing
        else expression r
  let _ ← expect "]"
  return .other (.arrayType lbrack) [len, ← type r]

/-- A type behind the name that it declares, and perhaps behind type parameters. -/
def typeBehind (n types : Node) : Parser Node := do
  let assign ← if ← at? "=" then pure (← next).pos else pure 0
  return .other (.typeSpec assign) [n, types, ← type r]

/-- An array type or type parameters behind the name of a declared type. -/
def typeInBrackets (n : Node) : Parser Node := do
  let lbrack ← expect "["
  if ← atName? then
    let x ← name
    let x ←
      if ← at? "[" then pure x
      else inBrackets do binaryFrom r (← primary r x) 1
    let comma ← at? ","
    let closed ← at? "]"
    match splitParameter comma x with
    | some (p, some t) =>
      let first : Parser Entry := do return (some p, some (← union r t))
      typeBehind r n (← typeParameters r lbrack (some first))
    | some (p, none) =>
      if closed then return .other (.typeSpec 0) [n, .missing, ← arrayBehind r lbrack (some x)]
      else typeBehind r n (← typeParameters r lbrack (some (parameter r true (some p))))
    | none => return .other (.typeSpec 0) [n, .missing, ← arrayBehind r lbrack (some x)]
  else return .other (.typeSpec 0) [n, .missing, ← arrayBehind r lbrack none]

/-- A declared type. -/
def typeSpec : Parser Node := do
  let n ← name
  let s ← if ← at? "[" then typeInBrackets r n else typeBehind r n .missing
  let _ ← semicolon r
  return s

/-- An imported path, perhaps behind a name. -/
def importSpec (listed : Bool) : Parser Node := do
  let here ← peek
  let doc := if listed then r.doc? here.pos else none
  let n ←
    if ← at? "." then
      let l ← next
      pure (Node.ident l.text l.pos false)
    else if ← atName? then name
    else pure .missing
  let l ← peek
  if l.kind != .literal .text then failure
  let _ ← next
  let comment ← semicolon r
  return .other (.importSpec 0 doc comment) [n, .literal .text l.text l.pos l.width]

/-- A declaration of one or several of a kind; the specification is told whether it is in a
list. -/
def group (keyword : String) (spec : Bool → Parser Node) : Parser Node := do
  let documented := (r.doc? (← peek).pos).isSome
  let pos ← expect keyword
  if ← at? "(" then
    let lparen ← expect "("
    let specs ← many (do return !((← at? ")") || (← atEnd?))) (spec true)
    let rparen ← expect ")"
    let _ ← semicolon r
    return .other (.group (utf8 keyword) pos lparen rparen documented) specs
  else return .other (.group (utf8 keyword) pos 0 0 documented) [← spec false]

/-- A declaration of constants, variables or types. -/
def declaration : Parser Node := do
  if ← at? "const" then group r "const" fun _ => valueSpec r true
  else if ← at? "var" then group r "var" fun _ => valueSpec r false
  else group r "type" fun _ => typeSpec r

/-- A declaration of a function or of a method, either of which may have type parameters. -/
def funcDecl : Parser Node := do
  let documented := (r.doc? (← peek).pos).isSome
  let pos ← expect "func"
  let receiver ← if ← at? "(" then parameters r .parameters else pure .missing
  let n ← name
  let types ← if ← at? "[" then typeParameters r (← expect "[") none else pure .missing
  let t ← signature r pos types
  let body ← if ← at? "\x7b" then block r else pure .missing
  let _ ← semicolon r
  if body.isMissing && (← at? "\x7b") then failure
  return .other (.funcDecl pos documented) [receiver, n, t, body]

/-- A statement. -/
def statement : Parser Node := do
  let l ← peek
  if ← atAny? ["const", "var", "type"] then return .other .declaration [← declaration r]
  else if ← at? "go" then
    let _ ← next
    let c ← startedCall r
    let _ ← semicolon r
    return .other (.go l.pos) [c]
  else if ← at? "defer" then
    let _ ← next
    let c ← startedCall r
    let _ ← semicolon r
    return .other (.defer l.pos) [c]
  else if ← at? "return" then
    let _ ← next
    let xs ← if ← atAny? [";", "\x7d"] then pure [] else expressions r
    let _ ← semicolon r
    return .other (.returnValues l.pos) xs
  else if ← atAny? ["break", "continue", "goto", "fallthrough"] then
    let _ ← next
    let label ←
      if l.text == utf8 "goto" || (l.text != utf8 "fallthrough" && (← atName?)) then pure [← name]
      else pure []
    let _ ← semicolon r
    return .other (.branch l.text l.pos) label
  else if ← at? "\x7b" then
    let b ← block r
    let _ ← semicolon r
    return b
  else if ← at? "if" then conditional r
  else if ← at? "switch" then switch r
  else if ← at? "select" then select r
  else if ← at? "for" then loop r
  else if ← at? ";" then
    let _ ← next
    return .other (.emptyStatement l.pos (if l.kind = .lineEnd then l.pos else l.pos + 1)) []
  else if ← at? "~" then failure
  else
    match ← simple r .label with
    | (.other (.labeled colon) parts, _) => return .other (.labeled colon) parts
    | (s, _) =>
      let _ ← semicolon r
      return s

/-- A labeled statement may have nothing behind its label before a closing brace. -/
def statementOrNone : Parser Node := do
  if ← at? "\x7d" then
    let p := (← peek).pos
    return .other (.emptyStatement p p) []
  else statement r

/-- A file: the clause of its package, imports, and other declarations. -/
def file : Parser Node := do
  let pos ← expect "package"
  let n ← name
  let _ ← semicolon r
  let imports ← many (at? "import") (group r "import" (importSpec r))
  let decls ← many (do return !(← atEnd?)) do
    if ← at? "func" then funcDecl r
    else if ← atAny? ["const", "var", "type"] then do
      let d ← declaration r
      pure d
    else failure
  return .other (.file pos) (n :: imports ++ decls)

/-! ### The knot -/

/-- The grammar to a depth of nesting, given a way to look up comments. -/
def rules (doc? trailing? : Nat → Option Nat) : Nat → Rules
  | 0 =>
    { expression := fun _ => failure
      unary := failure
      type? := failure
      elements := fun _ => failure
      block := failure
      statement := failure
      conditional := failure
      doc? := doc?
      trailing? := trailing? }
  | n + 1 =>
    let r := rules doc? trailing? n
    { expression := binary r
      unary := unary r
      type? := type? r
      elements := elements r
      block := block r
      statement := statementOrNone r
      conditional := conditional r
      doc? := doc?
      trailing? := trailing? }

/-- Runs a parser on the lexemes of a source, all of which it has to take. -/
def run (m : Material) (p : Rules → Parser Node) : Option Node := do
  let r := rules m.doc? m.trailing? (m.lexemes.length + 1)
  let (n, left) ← (p r).run ⟨m.lexemes, 0⟩
  match left.rest with
  | [] => pure n
  | l :: _ => if l.kind == .finish then pure n else none

end Grammar

/-- The tree of a Go expression. A line end may stand behind it. -/
def parseExpression (s : Bytes) : Option Node := do
  let m ← Material.ofSource [] s
  Grammar.run m fun r => do
    let x ← Grammar.expression r
    if (← Grammar.peek).kind == .lineEnd then let _ ← Grammar.next
    return x

/-- A source in the form of a tree, with its lines and comments. -/
structure Program where
  file : Node
  lines : Lines
  comments : List CommentGroup
deriving Inhabited

/-- The program in the Go source of a file of some name. -/
def Program.parse? (name source : Bytes) : Option Program := do
  let m ← Material.ofSource name source
  let file ← Grammar.run m Grammar.file
  pure ⟨file, m.lines, m.comments⟩

end RelaxArith.Host
