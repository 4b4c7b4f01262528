/-
Tokens of expression text, and what is reported when text cannot be read.
-/
import RelaxArith.Span
import RelaxArith.Text.Quoted

namespace RelaxArith

/-- The categories of tokens. -/
inductive Category where
  | endOfInput
  | name
  | number
  | text
  | invocation
  | operator
  | punctuation
deriving DecidableEq, Repr, Inhabited

namespace Category

/-- All categories. -/
def all : List Category := [.endOfInput, .name, .number, .text, .invocation, .operator, .punctuation]

/-- The number of a category. -/
def code : Category → Int
  | .endOfInput => -1
  | .name => 0
  | .number => 1
  | .text => 2
  | .invocation => 3
  | .operator => 4
  | .punctuation => 5

/-- The name of a category in messages. -/
def title : Category → Bytes
  | .endOfInput => utf8 "EOF"
  | .name => utf8 "identifier"
  | .number => utf8 "number"
  | .text => utf8 "string"
  | .invocation => utf8 "macro"
  | .operator => utf8 "operator"
  | .punctuation => utf8 "punctuation"

/-- The name that belongs to a number, whatever the number. -/
def titleOfCode (n : Int) : Bytes :=
  match all.find? fun c => c.code = n with
  | some c => c.title
  | none => utf8 "<" ++ utf8 (toString n) ++ utf8 ">"

end Category

/-- A token: its category, its text and where it stands. -/
structure Token where
  category : Category
  lexeme : Bytes
  span : Span
deriving DecidableEq, Repr, Inhabited

namespace Token

/-- The token at the end of an input of a given length. -/
def endAt (n : Nat) : Token := ⟨.endOfInput, [], ⟨n, n⟩⟩

/-- A token as messages show it. -/
def describe (t : Token) : Bytes :=
  match t.category with
  | .endOfInput => utf8 "end of input"
  | c => c.title ++ utf8 " " ++ Quoted.quote t.lexeme

/-- Is a token an operator or a punctuation mark with this text? -/
def isMark (t : Token) (lexeme : Bytes) : Bool :=
  (t.category == .operator || t.category == .punctuation) && t.lexeme == lexeme

end Token

/-- Why a text is no expression. -/
inductive SyntaxCause where
  /-- No token begins like this. -/
  | unrecognized (chunk : Bytes)
  /-- A token that nothing can begin with, or that nothing can go on with. -/
  | unexpected (found : Token)
  /-- A particular mark is missing. -/
  | expected (mark : Bytes) (found : Token)
  /-- Parentheses with nothing between them, where no call is made. -/
  | emptyParentheses
  /-- The text does not begin with an invocation. -/
  | noInvocation (found : Token)
deriving DecidableEq, Repr

/-- A text that cannot be read, with the place that is wrong. -/
structure SyntaxError where
  span : Span
  cause : SyntaxCause
deriving DecidableEq, Repr

/-- The wording of a cause. -/
def SyntaxCause.message : SyntaxCause → Bytes
  | .unrecognized chunk => utf8 "unrecognized input " ++ Quoted.quote chunk
  | .unexpected t => utf8 "unexpected " ++ t.describe
  | .expected mark t => utf8 "expected " ++ Quoted.quote mark ++ utf8 ", found " ++ t.describe
  | .emptyParentheses => utf8 "empty parentheses"
  | .noInvocation t => utf8 "expected macro invocation, found " ++ t.describe

/-- The report of a syntax error. -/
def SyntaxError.message (e : SyntaxError) : Bytes :=
  utf8 "syntax error at " ++ e.span.render ++ utf8 ": " ++ e.cause.message

end RelaxArith
