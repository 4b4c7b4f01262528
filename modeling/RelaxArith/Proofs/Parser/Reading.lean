/-
How far an expression has been read.

Read from left to right, a row of tokens leads to a position: what has to come next, and which
parentheses and brackets are open.  A position and a token give the next position, or there is
none.  Precedence has no part in this: every operator between operands may stand behind every
operand, whatever tree comes out in the end.

Three facts make positions useful.

  * A position depends on the words alone, not on where they stand in a text.
  * Every position can be completed: an operand if one is missing, then whatever closes what is
    open.
  * The words of a completion are those of whole tokens, so they can be written down behind any
    text that is made of tokens.

So a row of tokens that leads to a position is the beginning of a complete one, and no row that
goes on behind a token without a next position is.
-/
import RelaxArith.Proofs.Printing.Parsed
import RelaxArith.Proofs.Scan.Separation

namespace RelaxArith

open Automaton Parse

/-- What is open: parentheses around elements, the arguments of a call, a subscript. -/
inductive Bracket where
  | group
  | arguments
  | subscript
deriving DecidableEq, Repr

/-- What closes a bracket. -/
def Bracket.closing : Bracket → Token
  | .group | .arguments => ⟨.punctuation, utf8 ")", .null⟩
  | .subscript => ⟨.punctuation, utf8 "]", .null⟩

/-- What has to come next. -/
inductive Stage where
  /-- An operand. -/
  | operand
  /-- The first argument of a call, or the end of its arguments. -/
  | arguments
  /-- An argument behind a comma. -/
  | argument
  /-- A name at the beginning of an argument was read: it may turn out to be a label. -/
  | argumentName
  /-- An operand was read. -/
  | behind
deriving DecidableEq, Repr

/-- Tokens that lead from a stage to an operand that was read. -/
def Stage.filler : Stage → List Token
  | .operand | .arguments | .argument => [⟨.number, utf8 "0", .null⟩]
  | .argumentName => [⟨.operator, utf8 "+", .null⟩, ⟨.number, utf8 "0", .null⟩]
  | .behind => []

/-- How far an expression has been read. -/
structure Reading where
  stage : Stage
  /-- What is open, the innermost first. -/
  opened : List Bracket
deriving DecidableEq, Repr

namespace Reading

/-- Nothing has been read. -/
def start : Reading := ⟨.operand, []⟩

/-- A whole expression has been read. -/
def whole : Reading := ⟨.behind, []⟩

/-- A token where an operand has to come. -/
def operand (opened : List Bracket) (t : Token) : Option Reading :=
  if t.category == .operator && isPrefixOperator t.lexeme then some ⟨.operand, opened⟩
  else
    match t.category with
    | .name | .number | .text => some ⟨.behind, opened⟩
    | .punctuation =>
      if t.lexeme = utf8 "(" then some ⟨.operand, .group :: opened⟩ else none
    | _ => none

/-- A token that ends what was opened last, or an element of it. -/
def close (opened : List Bracket) (t : Token) : Option Reading :=
  match opened with
  | [] => none
  | .group :: rest =>
    if t.isMark (utf8 ",") then some ⟨.operand, opened⟩
    else if t.isMark (utf8 ")") then some ⟨.behind, rest⟩ else none
  | .arguments :: rest =>
    if t.isMark (utf8 ",") then some ⟨.argument, opened⟩
    else if t.isMark (utf8 ")") then some ⟨.behind, rest⟩ else none
  | .subscript :: rest => if t.isMark (utf8 "]") then some ⟨.behind, rest⟩ else none

/-- A token behind an operand. -/
def behind (opened : List Bracket) (t : Token) : Option Reading :=
  if t.isMark (utf8 "(") then some ⟨.arguments, .arguments :: opened⟩
  else if t.isMark (utf8 "[") then some ⟨.operand, .subscript :: opened⟩
  else if (binding? 1 t).isSome then some ⟨.operand, opened⟩
  else close opened t

/-- A token at the beginning of an argument. -/
def argument (opened : List Bracket) (t : Token) : Option Reading :=
  if t.category = .name then some ⟨.argumentName, opened⟩ else operand opened t

/-- One token further. -/
def next (q : Reading) (t : Token) : Option Reading :=
  match q.stage with
  | .operand => operand q.opened t
  | .arguments =>
    if t.isMark (utf8 ")") then some ⟨.behind, q.opened.tail⟩ else argument q.opened t
  | .argument => argument q.opened t
  | .argumentName => if t.isMark (utf8 ":") then some ⟨.operand, q.opened⟩ else behind q.opened t
  | .behind => behind q.opened t

/-- The position behind a row of tokens. -/
def run (q : Reading) : List Token → Option Reading
  | [] => some q
  | t :: ts => (q.next t).bind fun q' => run q' ts

/-! ### Runs -/

theorem run_cons {q q' : Reading} {t : Token} (h : q.next t = some q') (ts : List Token) :
    q.run (t :: ts) = q'.run ts := by
  simp [run, h]

theorem run_append (q : Reading) (ts us : List Token) :
    q.run (ts ++ us) = (q.run ts).bind fun q' => q'.run us := by
  induction ts generalizing q with
  | nil => rfl
  | cons t ts ih =>
    rw [List.cons_append, run, run]
    cases q.next t with
    | none => rfl
    | some q' => exact ih q'

theorem run_append_of_some {q q' : Reading} {ts : List Token} (h : q.run ts = some q')
    (us : List Token) : q.run (ts ++ us) = q'.run us := by
  rw [run_append, h]
  rfl

/-- Only the words of the tokens matter. -/
theorem next_of_word_eq (q : Reading) {t u : Token} (h : t.word = u.word) :
    q.next t = q.next u := by
  obtain ⟨c, w, s⟩ := t
  obtain ⟨c', w', s'⟩ := u
  obtain ⟨rfl, rfl⟩ := Prod.mk.inj h
  rfl

theorem run_of_words_eq (q : Reading) {ts us : List Token}
    (h : ts.map Token.word = us.map Token.word) : q.run ts = q.run us := by
  induction ts generalizing q us with
  | nil =>
    have hnil : us = [] := List.map_eq_nil_iff.mp h.symm
    rw [hnil]
  | cons t ts ih =>
    cases us with
    | nil => simp at h
    | cons u us =>
      simp only [List.map_cons, List.cons.injEq] at h
      have hnext := q.next_of_word_eq h.1
      simp only [run, hnext]
      cases q.next u with
      | none => rfl
      | some q' => exact ih q' h.2

/-! ### Completions -/

/-- Tokens that complete what has been read. -/
def completion (q : Reading) : List Token := q.stage.filler ++ q.opened.map Bracket.closing

theorem run_filler (stage : Stage) (opened : List Bracket) :
    run ⟨stage, opened⟩ stage.filler = some ⟨.behind, opened⟩ := by
  cases stage <;> rfl

theorem next_closing (b : Bracket) (opened : List Bracket) :
    next ⟨.behind, b :: opened⟩ b.closing = some ⟨.behind, opened⟩ := by
  cases b <;> rfl

theorem run_closing (opened : List Bracket) :
    run ⟨.behind, opened⟩ (opened.map Bracket.closing) = some whole := by
  induction opened with
  | nil => rfl
  | cons b opened ih =>
    rw [List.map_cons, run_cons (next_closing b opened)]
    exact ih

/-- Every position can be completed. -/
theorem run_completion (q : Reading) : q.run q.completion = some whole := by
  unfold completion
  rw [run_append_of_some (run_filler q.stage q.opened)]
  exact run_closing q.opened

theorem isWhole_completion (q : Reading) : ∀ t ∈ q.completion, t.IsWhole := by
  intro t ht
  rcases List.mem_append.mp ht with ht | ht
  · have hfiller : ∀ stage : Stage, ∀ t ∈ stage.filler, t.IsWhole := by
      intro stage
      cases stage <;> simp [Stage.filler, Token.IsWhole] <;> decide
    exact hfiller q.stage t ht
  · obtain ⟨b, _, rfl⟩ := List.mem_map.mp ht
    unfold Token.IsWhole
    cases b <;> decide

end Reading
end RelaxArith
