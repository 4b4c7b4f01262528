/-
The parser with its error kept in a flag.

Here the parser does not stop at an error.  It notes the first one and returns from its calls one
after the other, with a missing tree in place of what it could not read; on the way it still asks
for closing marks, puts spans together and cuts text out of the input.  It takes its tokens from a
row with the end of the input as the last one, at which it stays for ever, and its loops run as
long as no error is noted.

None of that is evidently safe, so a run can turn out in three ways.  Its calls may be nested deeper
than is allowed, in which case there is no result: a run without an end is one for which no depth is
enough.  It may break down, by asking a missing tree for its span or by cutting text out where there
is none; or it ends with a tree or an error.  Nothing in the definitions rules the first two out.
-/
import RelaxArith.Expr.Reader

namespace RelaxArith.Persistent

variable {π : Type}

/-- What a run can break down at. -/
inductive Breakdown where
  /-- A missing tree is asked for its span. -/
  | missingTree
  /-- Text is cut out that is not there. -/
  | outOfRange
deriving DecidableEq, Repr

/-- How many tokens have been taken, and the first error that was noted. -/
structure Progress where
  taken : Nat := 0
  error : Option SyntaxError := none
deriving DecidableEq, Repr

/-- A step of a run. There is no result if calls are nested too deep. -/
abbrev Run (α : Type) := StateT Progress (ExceptT Breakdown Option) α

/-- A call that is nested too deep. -/
def tooDeep {α : Type} : Run α := fun _ => none

/-! ### Tokens -/

/-- The next token of a row, or one of those behind it; behind the last token stands the last one. -/
def peek (row : List Token) (n : Nat) : Run Token := fun p =>
  some (.ok (row.getD (p.taken + n) (row.getLastD default), p))

/-- Takes a token; the last one stays. -/
def next (row : List Token) : Run Token := do
  let t ← peek row 0
  modify fun p => if p.taken < row.length - 1 then { p with taken := p.taken + 1 } else p
  return t

/-- Notes an error, unless there is one already. -/
def note (e : SyntaxError) : Run Unit :=
  modify fun p => if p.error.isNone then { p with error := some e } else p

/-- Has an error been noted? -/
def failed : Run Bool := fun p => some (.ok (p.error.isSome, p))

/-- Takes a particular mark. -/
def expect (row : List Token) (mark : String) : Run Token := do
  let t ← peek row 0
  if t.isMark (utf8 mark) then next row
  else
    note ⟨t.span, .expected (utf8 mark) t⟩
    return t

/-- The end of the input has to come. -/
def expectEnd (row : List Token) : Run Unit := do
  let t ← peek row 0
  if t.category = .endOfInput then return () else note (Parse.unexpected t)

/-- The label at the beginning of an argument. -/
def label (row : List Token) : Run Bytes := do
  let t ← peek row 0
  let c ← peek row 1
  if t.category == .name && c.isMark (utf8 ":") then
    let name ← next row
    let _ ← next row
    return name.lexeme
  else return []

/-! ### Trees -/

/-- The span of a tree that is there. -/
def spanOf (e : Expr π) : Run Span := if e.isAbsent then throw .missingTree else return e.span

/-- The text at a span that lies in the input. -/
def cut (input : Bytes) (span : Span) : Run Bytes :=
  if span.lo ≤ span.hi ∧ span.hi ≤ input.length then return input.slice span.lo span.hi
  else throw .outOfRange

/-! ### Functions

Each function is given the depth to which further calls may be nested in it. -/

mutual

/-- An expression whose operators bind at least as tightly as a level. -/
def expression (input : Bytes) (row : List Token) : (depth level : Nat) → Run (Expr π)
  | 0, _ => tooDeep
  | depth + 1, level => do
    let left ← operand input row depth
    climb input row depth level left

/-- Operators and right operands behind a left operand. -/
def climb (input : Bytes) (row : List Token) : (depth level : Nat) → Expr π → Run (Expr π)
  | 0, _, _ => tooDeep
  | depth + 1, level, left => do
    if ← failed then return .absent none
    let t ← peek row 0
    match Parse.binding? level t with
    | none => return left
    | some b =>
      let _ ← next row
      let right ← expression input row depth b.rightLevel
      if ← failed then return .absent none
      let span := (← spanOf left).extend (← spanOf right)
      climb input row depth level
        (if t.lexeme = utf8 "=" then .assign left right span
          else .binary t.lexeme left right span)

/-- An operand behind any number of operators in front of it. -/
def operand (input : Bytes) (row : List Token) : (depth : Nat) → Run (Expr π)
  | 0 => tooDeep
  | depth + 1 => do
    let t ← peek row 0
    if t.category == .operator && isPrefixOperator t.lexeme then
      let _ ← next row
      let x ← operand input row depth
      if ← failed then return .absent none
      return .prefixed t.lexeme x (t.span.extend (← spanOf x))
    else
      let e ← primary input row depth
      suffixes input row depth e

/-- Calls and subscripts behind a primary. -/
def suffixes (input : Bytes) (row : List Token) : (depth : Nat) → Expr π → Run (Expr π)
  | 0, _ => tooDeep
  | depth + 1, e => do
    if ← failed then return .absent none
    let t ← peek row 0
    if t.isMark (utf8 "(") then
      let (args, close) ← arguments input row depth
      suffixes input row depth (.call e args ((← spanOf e).extend close))
    else if t.isMark (utf8 "[") then
      let _ ← next row
      let _ ← (expression input row depth 1 : Run (Expr π))
      let close ← expect row "]"
      let span := (← spanOf e).extend close.span
      suffixes input row depth (.foreign (← cut input span) none span)
    else return e

/-- A name, a constant or something in parentheses. -/
def primary (input : Bytes) (row : List Token) : (depth : Nat) → Run (Expr π)
  | 0 => tooDeep
  | depth + 1 => do
    let t ← next row
    match t.category with
    | .name => return .ident t.lexeme t.span
    | .number => return .literal .number t.lexeme t.span
    | .text => return .literal .text t.lexeme t.span
    | .punctuation =>
      if t.lexeme = utf8 "(" then group input row depth t
      else
        note (Parse.unexpected t)
        return .absent none
    | _ =>
      note (Parse.unexpected t)
      return .absent none

/-- What stands between parentheses, behind the opening one. -/
def group (input : Bytes) (row : List Token) : (depth : Nat) → Token → Run (Expr π)
  | 0, _ => tooDeep
  | depth + 1, opening => do
    let t ← peek row 0
    if t.isMark (utf8 ")") then
      note ⟨t.span, .emptyParentheses⟩
      return .absent none
    let es ← elements input row depth []
    let close ← expect row ")"
    if ← failed then return .absent none
    return .group es (opening.span.extend close.span)

/-- Expressions with commas between them, behind some that have been read. -/
def elements (input : Bytes) (row : List Token) :
    (depth : Nat) → List (Expr π) → Run (List (Expr π))
  | 0, _ => tooDeep
  | depth + 1, es => do
    if ← failed then return es
    let e ← expression input row depth 1
    let t ← peek row 0
    if t.isMark (utf8 ",") then
      let _ ← next row
      elements input row depth (es ++ [e])
    else return es ++ [e]

/-- The arguments of a call in parentheses, and the span of the closing one. -/
def arguments (input : Bytes) (row : List Token) :
    (depth : Nat) → Run (List (Bytes × Expr π) × Span)
  | 0 => tooDeep
  | depth + 1 => do
    let _ ← expect row "("
    let t ← peek row 0
    if t.isMark (utf8 ")") then
      let close ← next row
      return ([], close.span)
    else
      let args ← argumentList input row depth []
      let close ← expect row ")"
      return (args, close.span)

/-- Arguments with commas between them, behind some that have been read. -/
def argumentList (input : Bytes) (row : List Token) :
    (depth : Nat) → List (Bytes × Expr π) → Run (List (Bytes × Expr π))
  | 0, _ => tooDeep
  | depth + 1, args => do
    if ← failed then return args
    let label ← label row
    let e ← expression input row depth 1
    let t ← peek row 0
    if t.isMark (utf8 ",") then
      let _ ← next row
      argumentList input row depth (args ++ [(label, e)])
    else return args ++ [(label, e)]

end

/-! ### Texts -/

/-- Asks a scanner for tokens up to the end of its text. Of the errors on the way, the first one is
noted. -/
def collect : (depth : Nat) → Scanner → List Token → Option SyntaxError →
    Option (List Token × Option SyntaxError)
  | 0, _, _, _ => none
  | depth + 1, scanner, row, error =>
    let (errors, t, scanner) := scanner.next
    let error := error <|> errors.head?
    if t.category = .endOfInput then some (row ++ [t], error)
    else collect depth scanner (row ++ [t]) error

/-- The name of an invocation, without the hash sign in front of it. -/
def nameOf (t : Token) : Run Bytes :=
  if t.lexeme.isEmpty then throw .outOfRange else return t.lexeme.drop 1

/-- A value, unless an error was noted. -/
def conclude {α : Type} (a : α) : Run (Except SyntaxError α) := fun p =>
  some (.ok (match p.error with
    | some e => .error e
    | none => .ok a, p))

/-- What a run gives for a text that scans without an error. -/
def answer {α : Type} (depth : Nat) (input : Bytes)
    (run : List Token → Run (Except SyntaxError α)) :
    Option (Except Breakdown (Except SyntaxError α)) := do
  let (row, error) ← collect depth (.ofText input) [] none
  match error with
  | some e => return .ok (.error e)
  | none =>
    let ended : Except Breakdown (Except SyntaxError α × Progress) ← run row {}
    return ended.map Prod.fst

/-- The tree of an expression, with calls nested to a depth. -/
def parse (depth : Nat) (input : Bytes) :
    Option (Except Breakdown (Except SyntaxError (Expr π))) :=
  answer depth input fun row => do
    let e ← expression input row depth 1
    expectEnd row
    conclude e

/-- The invocation written in a text, with calls nested to a depth. Labels of arguments are
dropped. -/
def parseInvocation (depth : Nat) (input : Bytes) :
    Option (Except Breakdown (Except SyntaxError (Invocation π))) :=
  answer depth input fun row => do
    let t ← peek row 0
    if t.category = .invocation then
      let _ ← next row
      let name ← nameOf t
      let paren ← peek row 0
      if paren.isMark (utf8 "(") then
        let (args, close) ← arguments input row depth
        expectEnd row
        conclude ⟨name, args.map Prod.snd, t.span.extend close⟩
      else
        expectEnd row
        conclude ⟨name, [], t.span⟩
    else
      note ⟨t.span, .noInvocation t⟩
      conclude default

end RelaxArith.Persistent
