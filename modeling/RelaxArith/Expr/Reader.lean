/-
Source text as trees.

    Expr     ::=  Operand { binop Expr }       by precedence climbing
    Operand  ::=  ( '-' | '+' | '!' ) Operand  |  Postfix
    Postfix  ::=  Primary { '(' Args ')'  |  '[' Expr ']' }
    Primary  ::=  name  |  number  |  text  |  '(' Expr { ',' Expr } ')'
    Args     ::=  [ Arg { ',' Arg } ]
    Arg      ::=  [ name ':' ] Expr

Every function takes the tokens that are left and hands on a shorter list, which is why parsing
ends.  A subscript is checked but kept as text only.
-/
import RelaxArith.Expr
import RelaxArith.Expr.Precedence
import RelaxArith.Token.Stream

namespace RelaxArith

/-- An invocation: a name behind a hash sign and the arguments it is given. -/
structure Invocation (π : Type) where
  name : Bytes
  args : List (Expr π)
  span : Span
deriving Inhabited

namespace Parse

variable {π : Type}

/-- What parsing a list of tokens gives: a value, and fewer tokens. -/
abbrev Result (ts : List Token) (α : Type) :=
  Except SyntaxError (α × { rest : List Token // rest.length < ts.length })

/-- What parsing gives that need not take a token. -/
abbrev Loop (ts : List Token) (α : Type) :=
  Except SyntaxError (α × { rest : List Token // rest.length ≤ ts.length })

/-- The token at the head of a list, or the one at the end of the input. -/
def current (input : Bytes) (ts : List Token) : Token := ts.headD (Token.endAt input.length)

/-- The error for a token out of place. -/
def unexpected (t : Token) : SyntaxError := ⟨t.span, .unexpected t⟩

/-- Takes a particular mark. -/
def expect (input : Bytes) (mark : String) (ts : List Token) : Result ts Token :=
  match ts with
  | [] =>
    let t := Token.endAt input.length
    .error ⟨t.span, .expected (utf8 mark) t⟩
  | t :: rest =>
    if t.isMark (utf8 mark) then .ok (t, ⟨rest, by simp⟩)
    else .error ⟨t.span, .expected (utf8 mark) t⟩

/-- The node of a binary operator. -/
def combine (op : Bytes) (left right : Expr π) : Expr π :=
  let span := left.span.extend right.span
  if op = utf8 "=" then .assign left right span else .binary op left right span

/-- The binding of a token that may stand between operands at a level. -/
def binding? (level : Nat) (t : Token) : Option Binding :=
  if t.category == .operator then
    (Binding.of? t.lexeme).filter fun b => level ≤ b.precedence
  else none

/-- The label at the beginning of an argument. -/
def label (ts : List Token) : Bytes × { rest : List Token // rest.length ≤ ts.length } :=
  match ts with
  | t :: c :: rest =>
    if t.category == .name && c.isMark (utf8 ":") then (t.lexeme, ⟨rest, Nat.le_add_right _ 2⟩)
    else ([], ⟨t :: c :: rest, Nat.le_refl _⟩)
  | ts => ([], ⟨ts, Nat.le_refl _⟩)

mutual

/-- An expression whose operators bind at least as tightly as a level. -/
def expression (input : Bytes) (level : Nat) (ts : List Token) : Result ts (Expr π) :=
  match operand input ts with
  | .error e => .error e
  | .ok (left, ⟨r, h⟩) =>
    match climb input level left r with
    | .error e => .error e
    | .ok (e, ⟨r', h'⟩) => .ok (e, ⟨r', by omega⟩)
termination_by (ts.length, 3)

/-- Operators and right operands behind a left operand. -/
def climb (input : Bytes) (level : Nat) (left : Expr π) (ts : List Token) : Loop ts (Expr π) :=
  match ts with
  | [] => .ok (left, ⟨[], by simp⟩)
  | t :: rest =>
    match binding? level t with
    | none => .ok (left, ⟨t :: rest, by simp⟩)
    | some b =>
      match expression input b.rightLevel rest with
      | .error e => .error e
      | .ok (right, ⟨r, h⟩) =>
        match climb input level (combine t.lexeme left right) r with
        | .error e => .error e
        | .ok (e, ⟨r', h'⟩) => .ok (e, ⟨r', by simp; omega⟩)
termination_by (ts.length, 0)

/-- An operand behind any number of operators in front of it. -/
def operand (input : Bytes) (ts : List Token) : Result ts (Expr π) :=
  match ts with
  | [] => .error (unexpected (Token.endAt input.length))
  | t :: rest =>
    if t.category == .operator && isPrefixOperator t.lexeme then
      match operand input rest with
      | .error e => .error e
      | .ok (x, ⟨r, h⟩) => .ok (.prefixed t.lexeme x (t.span.extend x.span), ⟨r, by simp; omega⟩)
    else
      match primary input t rest with
      | .error e => .error e
      | .ok (e, ⟨r, h⟩) =>
        match suffixes input e r with
        | .error e => .error e
        | .ok (e, ⟨r', h'⟩) => .ok (e, ⟨r', by simp; omega⟩)
termination_by (ts.length, 2)

/-- A name, a constant or something in parentheses. -/
def primary (input : Bytes) (t : Token) (ts : List Token) : Loop ts (Expr π) :=
  match t.category with
  | .name => .ok (.ident t.lexeme t.span, ⟨ts, by simp⟩)
  | .number => .ok (.literal .number t.lexeme t.span, ⟨ts, by simp⟩)
  | .text => .ok (.literal .text t.lexeme t.span, ⟨ts, by simp⟩)
  | .punctuation =>
    if t.lexeme = utf8 "(" then
      if (current input ts).isMark (utf8 ")") then
        .error ⟨(current input ts).span, .emptyParentheses⟩
      else
        match elements input ts with
        | .error e => .error e
        | .ok (es, ⟨r, h⟩) =>
          match expect input ")" r with
          | .error e => .error e
          | .ok (close, ⟨r', h'⟩) =>
            .ok (.group es (t.span.extend close.span), ⟨r', by omega⟩)
    else .error (unexpected t)
  | _ => .error (unexpected t)
termination_by (ts.length, 5)

/-- Calls and subscripts behind a primary. -/
def suffixes (input : Bytes) (e : Expr π) (ts : List Token) : Loop ts (Expr π) :=
  match ts with
  | [] => .ok (e, ⟨[], by simp⟩)
  | t :: rest =>
    if t.isMark (utf8 "(") then
      match arguments input rest with
      | .error e => .error e
      | .ok ((args, close), ⟨r, h⟩) =>
        match suffixes input (.call e args (e.span.extend close)) r with
        | .error e => .error e
        | .ok (e, ⟨r', h'⟩) => .ok (e, ⟨r', by simp; omega⟩)
    else if t.isMark (utf8 "[") then
      match (expression input 1 rest : Result rest (Expr π)) with
      | .error e => .error e
      | .ok (_, ⟨r, h⟩) =>
        match expect input "]" r with
        | .error e => .error e
        | .ok (close, ⟨r', h'⟩) =>
          let span := e.span.extend close.span
          match suffixes input (.foreign (input.slice span.lo span.hi) none span) r' with
          | .error e => .error e
          | .ok (e, ⟨r'', h''⟩) => .ok (e, ⟨r'', by simp; omega⟩)
    else .ok (e, ⟨t :: rest, by simp⟩)
termination_by (ts.length, 0)

/-- One or more expressions with commas between them. -/
def elements (input : Bytes) (ts : List Token) : Result ts (List (Expr π)) :=
  match expression input 1 ts with
  | .error e => .error e
  | .ok (e, ⟨r, h⟩) =>
    match r with
    | [] => .ok ([e], ⟨[], by simpa using h⟩)
    | t :: rest =>
      if t.isMark (utf8 ",") then
        match elements input rest with
        | .error e => .error e
        | .ok (es, ⟨r', h'⟩) => .ok (e :: es, ⟨r', by simp at h; omega⟩)
      else .ok ([e], ⟨t :: rest, h⟩)
termination_by (ts.length, 4)
decreasing_by
  · exact Prod.Lex.right _ (by decide)
  · have : rest.length < ts.length := by simp at h; omega
    exact Prod.Lex.left _ _ this

/-- The arguments of a call and the span of the closing parenthesis. -/
def arguments (input : Bytes) (ts : List Token) :
    Result ts (List (Bytes × Expr π) × Span) :=
  match ts with
  | t :: rest =>
    if t.isMark (utf8 ")") then .ok (([], t.span), ⟨rest, by simp⟩)
    else
      match argumentList input (t :: rest) with
      | .error e => .error e
      | .ok (args, ⟨r, h⟩) =>
        match expect input ")" r with
        | .error e => .error e
        | .ok (close, ⟨r', h'⟩) => .ok ((args, close.span), ⟨r', by omega⟩)
  | [] => .error (unexpected (Token.endAt input.length))
termination_by (ts.length, 5)

/-- One or more arguments with commas between them. -/
def argumentList (input : Bytes) (ts : List Token) : Result ts (List (Bytes × Expr π)) :=
  let (name, ⟨behind, h₀⟩) := label ts
  match expression input 1 behind with
  | .error e => .error e
  | .ok (e, ⟨r, h⟩) =>
    match r with
    | [] => .ok ([(name, e)], ⟨[], by simp at h ⊢; omega⟩)
    | t :: rest =>
      if t.isMark (utf8 ",") then
        match argumentList input rest with
        | .error e => .error e
        | .ok (args, ⟨r', h'⟩) => .ok ((name, e) :: args, ⟨r', by simp at h; omega⟩)
      else .ok ([(name, e)], ⟨t :: rest, by omega⟩)
termination_by (ts.length, 4)
decreasing_by
  · exact Prod.Lex.right' _ h₀ (by decide)
  · have : rest.length < ts.length := by simp at h; omega
    exact Prod.Lex.left _ _ this

end

/-- Nothing may be left over. -/
def finish {α : Type} (value : α) : List Token → Except SyntaxError α
  | [] => .ok value
  | t :: _ => .error (unexpected t)

end Parse

/-- The tree of an expression. -/
def parse {π : Type} (input : Bytes) : Except SyntaxError (Expr π) :=
  match tokens input with
  | .error e => .error e
  | .ok ts =>
    match Parse.expression input 1 ts with
    | .error e => .error e
    | .ok (e, ⟨r, _⟩) => Parse.finish e r

/-- The invocation written in a text. Labels of arguments are dropped. -/
def parseInvocation {π : Type} (input : Bytes) : Except SyntaxError (Invocation π) :=
  match tokens input with
  | .error e => .error e
  | .ok ts =>
    match ts with
    | [] =>
      let t := Token.endAt input.length
      .error ⟨t.span, .noInvocation t⟩
    | t :: rest =>
      if t.category = .invocation then
        if (Parse.current input rest).isMark (utf8 "(") then
          match Parse.arguments input rest.tail with
          | .error e => .error e
          | .ok ((args, close), ⟨r, _⟩) =>
            Parse.finish ⟨t.lexeme.drop 1, args.map Prod.snd, t.span.extend close⟩ r
        else Parse.finish ⟨t.lexeme.drop 1, [], t.span⟩ rest
      else .error ⟨t.span, .noInvocation t⟩

end RelaxArith
