/-
The grammar of Go expressions and types.

Parsers take lexemes off the front of what is left.  A parser for a construct that may contain
itself is handed the parsers for what is inside (`Rules`); the knot is tied at the end, by the
depth to which constructs may be nested, which is never more than there are lexemes.

Behind `if`, `for` and `switch` an opening brace belongs to the body and not to a composite
value, unless it stands inside some brackets: that is what the bracket level is for.
-/
import RelaxArith.Host.Lines
import RelaxArith.Host.Node

namespace RelaxArith.Host

/-- The lexemes that are left, and the bracket level. -/
structure Input where
  rest : List Lexeme
  level : Int

/-- Parsers: they fail without a message. -/
abbrev Parser := StateT Input Option

/-- Parsers for constructs inside of others. -/
structure Rules where
  /-- An expression with operators of at least some precedence. -/
  expression : Nat → Parser Node
  unary : Parser Node
  type? : Parser (Option Node)
  /-- Elements in braces, behind a type unless it is missing. -/
  elements : Node → Parser Node
  block : Parser Node
  statement : Parser Node
  conditional : Parser Node
  /-- The comment group that documents the lexeme at a position. -/
  doc? : Nat → Option Nat
  /-- The comment group behind the lexeme before the one at a position. -/
  trailing? : Nat → Option Nat

namespace Grammar

variable (r : Rules)

/-! ### Lexemes -/

/-- The next lexeme. -/
def peek : Parser Lexeme := do
  return (← get).rest.headD ⟨.finish, [], 0, 0⟩

/-- Takes the next lexeme, whatever it is. -/
def next : Parser Lexeme := do
  match (← get).rest with
  | [] => failure
  | [l] => return l
  | l :: rest =>
    modify fun i => { i with rest := rest }
    return l

/-- Is the next lexeme a particular symbol or keyword? -/
def at? (text : String) : Parser Bool := do
  let l ← peek
  return (l.kind == .symbol || l.kind == .keyword || l.kind == .lineEnd) && l.text == utf8 text

/-- Is the next lexeme one of several symbols or keywords? -/
def atAny? (texts : List String) : Parser Bool := texts.anyM at?

/-- Is the next lexeme a name? -/
def atName? : Parser Bool := do return (← peek).kind == .name

/-- Does the source end here? -/
def atEnd? : Parser Bool := do return (← peek).kind == .finish

/-- Takes a particular symbol or keyword and gives its position. -/
def expect (text : String) : Parser Nat := do
  if ← at? text then return (← next).pos else failure

/-- Takes a particular symbol if it is there. -/
def accept (text : String) : Parser Bool := do
  if ← at? text then
    let _ ← next
    return true
  else return false

/-- The semicolon behind a statement, which may be left out before a closing bracket; with the
group of comments behind it, or before the line end that counts as one. -/
def semicolon : Parser (Option Nat) := do
  if ← atAny? [")", "\x7d"] then return none
  if !(← at? ";") then failure
  let l ← next
  if l.kind = .lineEnd then return r.trailing? l.pos
  else return r.trailing? (← peek).pos

/-- Runs a parser at another bracket level. -/
def atLevel {α : Type} (change : Int → Int) (p : Parser α) : Parser α := do
  let before := (← get).level
  modify fun i => { i with level := change before }
  let a ← p
  modify fun i => { i with level := before }
  return a

/-- Runs a parser inside brackets. -/
def inBrackets {α : Type} (p : Parser α) : Parser α := atLevel (· + 1) p

/-! ### Repetition -/

/-- Goes on with a value for as long as a parser has a next one, at most `n` times. -/
def iterate {α : Type} : Nat → α → (α → Parser (Option α)) → Parser α
  | 0, _, _ => failure
  | n + 1, a, step => do
    match ← step a with
    | some b => iterate n b step
    | none => return a

/-- Goes on with a value for as long as a parser has a next one. Each step takes a lexeme. -/
def repeated {α : Type} (a : α) (step : α → Parser (Option α)) : Parser α := do
  iterate ((← get).rest.length + 1) a step

/-- What a parser gives, again and again while a condition holds. -/
def many {α : Type} (more : Parser Bool) (p : Parser α) : Parser (List α) := do
  let collected ← repeated [] fun as => do
    if ← more then return some ((← p) :: as) else return none
  return collected.reverse

/-- One or more, with commas between them. -/
def commaList {α : Type} (p : Parser α) : Parser (List α) := do
  let first ← p
  let rest ← many (at? ",") do
    let _ ← next
    p
  return first :: rest

/-- Any number up to a closing bracket, with commas between them and perhaps one at the end. -/
def untilClosing {α : Type} (closing : String) (p : Parser α) : Parser (List α) := do
  let (_, as) ← repeated (true, ([] : List α)) fun (more, as) => do
    if !more || (← at? closing) then return none
    let a ← p
    return some (← accept ",", a :: as)
  return as.reverse

/-! ### Names -/

/-- A name. -/
def name : Parser Node := do
  if ← atName? then
    let l ← next
    return .ident l.text l.pos false
  else failure

/-- An expression. -/
def expression : Parser Node := r.expression 1

/-- A type. -/
def type : Parser Node := do
  match ← r.type? with
  | some t => return t
  | none => failure

/-- One or more expressions. -/
def expressions : Parser (List Node) := commaList (expression r)

/-! ### Fields -/

/-- A field with a type and perhaps names. -/
def fieldOf (names : List Node) (t : Node) : Node :=
  .other (.field names.length false false false) (names ++ [t])

/-- Indices or types in brackets behind an expression. -/
def indexed (x : Node) (lbrack : Nat) (args : List Node) (rbrack : Nat) : Parser Node :=
  match args with
  | [] => failure
  | [i] => return .other (.index lbrack rbrack) [x, i]
  | is => return .other (.indexList lbrack rbrack) (x :: is)

/-- Types in brackets behind the name of a type. -/
def typeInstance (x : Node) : Parser Node := do
  let lbrack ← expect "["
  let args ← inBrackets (untilClosing "]" (type r))
  let rbrack ← expect "]"
  indexed x lbrack args rbrack

/-- The name of a type behind its first part. -/
def selected (x : Node) : Parser Node := do
  if ← accept "." then
    match ← name with
    | .ident sel p _ => return .selector x sel p
    | _ => failure
  else return x

/-- The name of a type behind its first part, perhaps with types in brackets. -/
def qualified (x : Node) : Parser Node := do
  let t ← selected x
  if ← at? "[" then typeInstance r t else return t

/-- An array type behind a name, or types in brackets behind it: the name and its type, or the
type alone. -/
def arrayOrInstance (x : Node) : Parser (Option Node × Node) := do
  let lbrack ← expect "["
  if ← accept "]" then
    let elt ← type r
    return (some x, .other (.arrayType lbrack) [.missing, elt])
  let (args, comma) ← inBrackets do
    let first ← expression r
    let more ← many (at? ",") do
      let _ ← next
      if ← at? "]" then return none else return some (← expression r)
    pure (first :: more.filterMap id, more.any Option.isNone)
  let rbrack ← expect "]"
  match args with
  | [n] =>
    match ← r.type? with
    | some elt =>
      if comma then failure
      return (some x, .other (.arrayType lbrack) [n, elt])
    | none => return (none, ← indexed x lbrack args rbrack)
  | _ => return (none, ← indexed x lbrack args rbrack)

/-- A type behind dots. -/
def dotsType : Parser Node := do
  let p ← expect "..."
  let t ← type r
  return .other (.ellipsis p) [t]

/-! ### Sets of types -/

/-- A type of a union, with a tilde in front of it perhaps. -/
def unionTerm : Parser Node := do
  if ← at? "~" then
    let p := (← next).pos
    return .unary (utf8 "~") (← type r) p
  else type r

/-- The rest of a union. -/
def union (first : Node) : Parser Node :=
  repeated first fun x => do
    if ← at? "|" then
      let p := (← next).pos
      return some (.binary (utf8 "|") x (← unionTerm r) p)
    else return none

/-! ### Parameters -/

/-- An entry of a list of parameters: a name, a type, or both. -/
abbrev Entry := Option Node × Option Node

/-- What follows a name in an entry; `sets` says whether it may be a set of types. -/
def parameterBehind (sets : Bool) (n : Node) : Parser Entry := do
  if ← at? "[" then
    let (n, t) ← arrayOrInstance r n
    return (n, some t)
  else if ← at? "..." then return (some n, some (← dotsType r))
  else if ← at? "." then return (none, some (← qualified r n))
  else if sets && (← at? "~") then return (some n, some (← unionTerm r))
  else if sets && (← at? "|") then return (none, some n)
  else return (some n, ← r.type?)

/-- An entry, with its name if that has been read already. -/
def parameter (sets : Bool) (known : Option Node) : Parser Entry := do
  let entry ←
    match known with
    | some n => parameterBehind r sets n
    | none =>
      if ← atName? then parameterBehind r sets (← name)
      else if ← at? "..." then pure (none, some (← dotsType r))
      else if sets && (← at? "~") then pure (none, some (← unionTerm r))
      else pure (none, some (← type r))
  match entry with
  | (n, some t) => if sets then return (n, some (← union r t)) else return (n, some t)
  | (n, none) => return (n, none)

/-- Gives every name the type behind it, from right to left. -/
def distribute : List Entry → Option (List (List Node × Node))
  | [] => some []
  | (some n, some t) :: rest => (distribute rest).map (([n], t) :: ·)
  | (some n, none) :: rest =>
    match distribute rest with
    | some ((ns, t) :: fields) => some ((n :: ns, t) :: fields)
    | _ => none
  | (none, _) :: _ => none

/-- Are dots only in the type of the last parameter, and that a single one? -/
def dotsLast : List (List Node × Node) → Bool
  | [] => true
  | [(ns, .other (.ellipsis _) _)] => ns.length ≤ 1
  | (_, .other (.ellipsis _) _) :: _ => false
  | _ :: rest => dotsLast rest

/-- Has no parameter dots? -/
def noDots (fields : List (List Node × Node)) : Bool :=
  fields.all fun f => match f.2 with
    | .other (.ellipsis _) _ => false
    | _ => true

/-- The fields that entries stand for: types only, or names with types. Parameters that are types
have to have names; dots are for parameters of functions. -/
def parameterFields (role : FieldRole) (entries : List Entry) : Parser (List Node) := do
  let fields ←
    if role = .typeParameters || entries.any fun e => e.1.isSome && e.2.isSome then
      match distribute entries with
      | some fields => pure fields
      | none => failure
    else pure (entries.filterMap fun e => (e.2.or e.1).map fun t => ([], t))
  if !(if role = .parameters then dotsLast fields else noDots fields) then failure
  return fields.map fun f => fieldOf f.1 f.2

/-- Parameters in parentheses. -/
def parameters (role : FieldRole) : Parser Node := do
  let opening ← expect "("
  let entries ← untilClosing ")" (parameter r false none)
  let closing ← expect ")"
  return .other (.fieldList role opening closing) (← parameterFields role entries)

/-- Parameters that are types, behind an opening bracket; the first entry may have been begun. -/
def typeParameters (opening : Nat) (first : Option (Parser Entry)) : Parser Node := do
  let more := untilClosing "]" (parameter r true none)
  let entries ←
    match first with
    | none => more
    | some p => do
      let e ← p
      if ← accept "," then pure (e :: (← more)) else pure [e]
  let closing ← expect "]"
  if entries.isEmpty then failure
  let fields ← parameterFields .typeParameters entries
  return .other (.fieldList .typeParameters opening closing) fields

/-- The results of a function, if it has any. -/
def results : Parser Node := do
  if ← at? "(" then parameters r .results
  else
    match ← r.type? with
    | some t => return .other (.fieldList .results 0 0) [fieldOf [] t]
    | none => return .missing

/-- Parameters and results behind type parameters; the position is that of the keyword, if there
is one. -/
def signature (pos : Nat) (types : Node) : Parser Node := do
  let ps ← parameters r .parameters
  let rs ← results r
  return .other (.funcType pos) [types, ps, rs]

/-! ### Members and methods -/

/-- The names and the type of a field of a structure. -/
def structFieldType : Parser (List Node × Node) := do
  if ← at? "*" then
    let p := (← next).pos
    return ([], .other (.star p) [← qualified r (← name)])
  let first ← name
  if ← at? "." then return ([], ← qualified r first)
  else if (← atAny? [";", "\x7d"]) || (← peek).kind == .literal .text then return ([], first)
  else if ← at? "[" then
    let (n, t) ← arrayOrInstance r first
    return (n.toList, t)
  else
    let more ← many (at? ",") do
      let _ ← next
      name
    return (first :: more, ← type r)

/-- A field of a structure. -/
def structField : Parser Node := do
  let (names, t) ← structFieldType r
  let l ← peek
  let tag ←
    if l.kind == .literal .text then
      let _ ← next
      pure [Node.literal .text l.text l.pos l.width]
    else pure []
  let comment ← semicolon r
  let form := Form.field names.length false (!tag.isEmpty) comment.isSome
  return .other form (names ++ [t] ++ tag)

/-- Is a type that of a function? -/
def isFuncType : Node → Bool
  | .other (.funcType _) _ => true
  | _ => false

/-- Types in brackets behind a name in an interface; the first of them may be any expression. -/
def interfaceInstance (x : Node) : Parser Node := do
  let lbrack ← expect "["
  let args ← inBrackets do
    let first ← expression r
    if ← accept "," then pure (first :: (← untilClosing "]" (type r))) else pure [first]
  let rbrack ← expect "]"
  indexed x lbrack args rbrack

/-- A method of an interface, or a type in it. -/
def interfaceField : Parser Node := do
  let (names, t) ←
    if ← atName? then do
      let n ← name
      if ← at? "(" then pure ([n], ← signature r 0 .missing)
      else if ← at? "[" then pure ([], ← union r (← interfaceInstance r n))
      else pure ([], ← union r (← qualified r n))
    else pure ([], ← union r (← unionTerm r))
  let comment ← semicolon r
  return .other (.field names.length (isFuncType t) false comment.isSome) (names ++ [t])

/-- Fields in braces. -/
def fieldsInBraces (role : FieldRole) (p : Parser Node) : Parser Node := do
  let opening ← expect "\x7b"
  let fields ← many (do return !((← at? "\x7d") || (← atEnd?))) p
  let closing ← expect "\x7d"
  return .other (.fieldList role opening closing) fields

/-! ### Types -/

/-- A channel type. -/
def chanType : Parser Node := do
  if ← at? "<-" then
    let p ← expect "<-"
    let _ ← expect "chan"
    return .other (.chanType p p .receive) [← type r]
  else
    let p ← expect "chan"
    if ← at? "<-" then
      let a ← expect "<-"
      return .other (.chanType p a .send) [← type r]
    else return .other (.chanType p 0 .both) [← type r]

/-- A type, if one begins here. -/
def type? : Parser (Option Node) := do
  if ← atName? then return some (← qualified r (← name))
  else if ← at? "[" then
    let p ← expect "["
    let len ← inBrackets do
      if ← at? "..." then
        let e := (← next).pos
        pure (Node.other (.ellipsis e) [.missing])
      else if ← at? "]" then pure Node.missing
      else expression r
    let _ ← expect "]"
    return some (.other (.arrayType p) [len, ← type r])
  else if ← at? "struct" then
    let p ← expect "struct"
    return some (.other (.structType p) [← fieldsInBraces .members (structField r)])
  else if ← at? "*" then
    let p ← expect "*"
    return some (.other (.star p) [← type r])
  else if ← at? "func" then
    let p ← expect "func"
    return some (← signature r p .missing)
  else if ← at? "interface" then
    let p ← expect "interface"
    return some (.other (.interfaceType p) [← fieldsInBraces .methods (interfaceField r)])
  else if ← at? "map" then
    let p ← expect "map"
    let _ ← expect "["
    let k ← type r
    let _ ← expect "]"
    return some (.other (.mapType p) [k, ← type r])
  else if ← atAny? ["chan", "<-"] then return some (← chanType r)
  else if ← at? "(" then
    let p ← expect "("
    let t ← type r
    let q ← expect ")"
    return some (.paren t p q)
  else return none

/-! ### Expressions -/

/-- The precedence of a binary operator; other lexemes have none. -/
def precedence (op : Bytes) : Nat :=
  if op == utf8 "||" then 1
  else if op == utf8 "&&" then 2
  else if ([utf8 "==", utf8 "!=", utf8 "<", utf8 "<=", utf8 ">", utf8 ">="]).contains op then 3
  else if ([utf8 "+", utf8 "-", utf8 "|", utf8 "^"]).contains op then 4
  else if ([utf8 "*", utf8 "/", utf8 "%", utf8 "<<", utf8 ">>", utf8 "&", utf8 "&^"]).contains op
  then 5
  else 0

/-- A name, a literal, something in parentheses, a function or a type. -/
def operand : Parser Node := do
  let l ← peek
  match l.kind with
  | .name => name
  | .literal k =>
    let _ ← next
    return .literal k l.text l.pos l.width
  | _ =>
    if ← at? "(" then
      let p ← expect "("
      let x ← inBrackets (expression r)
      let q ← expect ")"
      return .paren x p q
    else if ← at? "func" then
      let p ← expect "func"
      let t ← signature r p .missing
      if ← at? "\x7b" then
        let body ← inBrackets r.block
        return .other .function [t, body]
      else return t
    else
      match ← type? r with
      | some t => return t
      | none => failure

/-- An index, indices or a slice behind an expression. -/
def indexOrSlice (x : Node) : Parser Node := do
  let lbrack ← expect "["
  if ← at? "]" then failure
  let bound : Parser Node := do
    if ← atAny? [":", "]"] then return .missing else expression r
  let (first, bounds, more) ← inBrackets do
    let first ← if ← at? ":" then pure Node.missing else expression r
    if ← at? ":" then
      let _ ← next
      let second ← bound
      if ← at? ":" then
        let _ ← next
        let third ← bound
        if second.isMissing || third.isMissing then failure
        pure (first, [second, third], [])
      else pure (first, [second], [])
    else if ← at? "," then
      let more ← many (at? ",") do
        let _ ← next
        if ← at? "]" then return none else return some (← type r)
      pure (first, [], more.filterMap id)
    else pure (first, [], [])
  let rbrack ← expect "]"
  match bounds with
  | [high] => return .other (.slice lbrack rbrack false) [x, first, high]
  | [high, max] => return .other (.slice lbrack rbrack true) [x, first, high, max]
  | _ => indexed x lbrack (first :: more) rbrack

/-- Arguments behind an expression. -/
def arguments (fn : Node) : Parser Node := do
  let lparen ← expect "("
  let (args, ellipsis) ← inBrackets do
    let (_, args, ellipsis) ← repeated (true, ([] : List Node), 0) fun (more, args, ellipsis) => do
      if !more || (← at? ")") || ellipsis != 0 then return none
      let a ← expression r
      let dots ← if ← at? "..." then pure (← next).pos else pure 0
      return some (← accept ",", a :: args, dots)
    pure (args.reverse, ellipsis)
  let rparen ← expect ")"
  return .call fn args lparen ellipsis rparen

/-- May an expression be the type of a composite value? In a control clause only a type that
cannot be anything else. -/
def isLiteralType (clause : Bool) : Node → Bool
  | .ident .. | .selector .. => !clause
  | .other (.index _ _) _ | .other (.indexList _ _) _ => !clause
  | .other (.arrayType _) _ | .other (.structType _) _ | .other (.mapType _) _ => true
  | _ => false

/-- Elements in braces, each perhaps behind a key. -/
def elements (t : Node) : Parser Node := do
  let lbrace ← expect "\x7b"
  let value : Parser Node := do
    if ← at? "\x7b" then r.elements .missing else expression r
  let es ← inBrackets (untilClosing "\x7d" do
    let x ← value
    if ← at? ":" then
      let colon := (← next).pos
      return .other (.keyValue colon) [x, ← value]
    else return x)
  let rbrace ← expect "\x7d"
  return .other (.composite (!t.isMissing) lbrace rbrace) (t :: es)

/-- An expression without the parentheses around it. -/
def unparen : Node → Node
  | .paren x _ _ => unparen x
  | n => n

/-- Is an expression in parentheses? -/
def isParen : Node → Bool
  | .paren .. => true
  | _ => false

/-- Can an expression only be a type or a set of types? -/
def isTypeElement : Node → Bool
  | .other (.arrayType _) _ | .other (.structType _) _ | .other (.funcType _) _
  | .other (.interfaceType _) _ | .other (.mapType _) _ | .other (.chanType _ _ _) _ => true
  | .binary _ x y _ => isTypeElement x || isTypeElement y
  | .unary op _ _ => op == utf8 "~"
  | .paren x _ _ => isTypeElement x
  | _ => false

/-- One step behind an operand: a selection, an assertion, an index, a call or elements. The type
of a composite value may not be in parentheses. -/
def suffix (x : Node) : Parser (Option Node) := do
  if ← at? "." then
    let _ ← next
    if ← at? "(" then
      let p ← expect "("
      let t ← if ← accept "type" then pure Node.missing else type r
      let q ← expect ")"
      return some (.other (.assertion p q) [x, t])
    else
      match ← name with
      | .ident sel p _ => return some (.selector x sel p)
      | _ => failure
  else if ← at? "[" then return some (← indexOrSlice r x)
  else if ← at? "(" then return some (← arguments r x)
  else if (← at? "\x7b") && isLiteralType ((← get).level < 0) (unparen x) then
    if isParen x then failure
    return some (← elements r x)
  else return none

/-- All steps behind an operand. -/
def primary (x : Node) : Parser Node := repeated x (suffix r)

/-- Puts an arrow in front of a channel type into it. -/
def receiving (arrow : Nat) : Node → Option Node
  | .other (.chanType _ _ .both) parts => some (.other (.chanType arrow arrow .receive) parts)
  | .other (.chanType _ inner .send) [t] =>
    (receiving inner t).map fun t => .other (.chanType arrow arrow .receive) [t]
  | _ => none

/-- An operand behind operators. -/
def unary : Parser Node := do
  if ← atAny? ["+", "-", "!", "^", "&", "~"] then
    let l ← next
    return .unary l.text (← r.unary) l.pos
  else if ← at? "<-" then
    let l ← next
    let x ← r.unary
    match x with
    | .other (.chanType _ _ _) _ =>
      match receiving l.pos x with
      | some t => return t
      | none => failure
    | _ => return .unary l.text x l.pos
  else if ← at? "*" then
    let l ← next
    return .other (.star l.pos) [← r.unary]
  else primary r (← operand r)

/-- An operand with operators of at least some precedence behind it. -/
def binaryFrom (x : Node) (least : Nat) : Parser Node :=
  repeated x fun x => do
    let l ← peek
    let p := if l.kind == .symbol then precedence l.text else 0
    if p = 0 || p < least then return none
    let _ ← next
    return some (.binary l.text x (← r.expression (p + 1)) l.pos)

/-- Operands with operators of at least some precedence between them. -/
def binary (least : Nat) : Parser Node := do binaryFrom r (← unary r) least

end Grammar
end RelaxArith.Host
