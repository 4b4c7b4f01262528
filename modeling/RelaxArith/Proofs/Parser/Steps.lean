/-
What the functions of the parser do, one equation for each.

Every function of the parser hands on the tokens that are left with a proof that they are fewer.
`outcome` forgets that proof, and says of each function what it does in terms of the others.
Later files use these equations and never open the functions themselves.
-/
import RelaxArith.Proofs.Except
import RelaxArith.Proofs.Grammar

namespace RelaxArith.Parse

variable {π : Type} {α β : Type}

/-- A result without the proof that its tokens are fewer. -/
def outcome {p : List Token → Prop} :
    Except SyntaxError (α × { rest : List Token // p rest }) → Except SyntaxError (α × List Token)
  | .error e => .error e
  | .ok (a, r) => .ok (a, r.1)

@[simp]
theorem ok_bind (a : α) (f : α → Except SyntaxError β) : (Except.ok a >>= f) = f a := rfl

/-- What is known of the tokens that are left. -/
theorem rest_of_outcome {p : List Token → Prop} {a : α} {r : List Token}
    {x : Except SyntaxError (α × { rest : List Token // p rest })}
    (h : outcome x = .ok (a, r)) : p r := by
  cases x with
  | error e => cases h
  | ok y =>
    cases h
    exact y.2.2

/-! ### One equation for each function -/

theorem outcome_expression (input : Bytes) (level : Nat) (ts : List Token) :
    outcome (expression (π := π) input level ts)
      = outcome (operand input ts) >>= fun x => outcome (climb input level x.1 x.2) := by
  rw [expression]
  rcases operand (π := π) input ts with e | ⟨left, r, h⟩
  · rfl
  · simp only [outcome, ok_bind]
    rcases climb input level left r with e | ⟨e, r', h'⟩ <;> rfl

theorem outcome_climb_nil (input : Bytes) (level : Nat) (left : Expr π) :
    outcome (climb input level left []) = .ok (left, []) := by
  rw [climb]
  rfl

theorem outcome_climb_cons (input : Bytes) (level : Nat) (left : Expr π) (t : Token)
    (ts : List Token) :
    outcome (climb input level left (t :: ts))
      = match binding? level t with
        | none => .ok (left, t :: ts)
        | some b => outcome (expression input b.rightLevel ts) >>= fun x =>
            outcome (climb input level (combine t.lexeme left x.1) x.2) := by
  rw [climb]
  rcases binding? level t with _ | b
  · rfl
  · simp only
    rcases expression (π := π) input b.rightLevel ts with e | ⟨right, r, h⟩
    · rfl
    · simp only [outcome, ok_bind]
      rcases climb input level (combine t.lexeme left right) r with e | ⟨e, r', h'⟩ <;> rfl

theorem outcome_operand_nil (input : Bytes) :
    outcome (operand (π := π) input []) = .error (unexpected (Token.endAt input.length)) := by
  rw [operand]
  rfl

theorem outcome_operand_cons (input : Bytes) (t : Token) (ts : List Token) :
    outcome (operand (π := π) input (t :: ts))
      = if t.category == .operator && isPrefixOperator t.lexeme then
          outcome (operand input ts) >>= fun x =>
            .ok (.prefixed t.lexeme x.1 (t.span.extend x.1.span), x.2)
        else
          outcome (primary input t ts) >>= fun x => outcome (suffixes input x.1 x.2) := by
  rw [operand]
  split
  · rcases operand (π := π) input ts with e | ⟨x, r, h⟩ <;> rfl
  · rcases primary (π := π) input t ts with e | ⟨e, r, h⟩
    · rfl
    · simp only [outcome, ok_bind]
      rcases suffixes input e r with e | ⟨e, r', h'⟩ <;> rfl

theorem outcome_expect (input : Bytes) (mark : String) (t : Token) (ts : List Token) :
    outcome (expect input mark (t :: ts))
      = if t.isMark (utf8 mark) then .ok (t, ts) else .error ⟨t.span, .expected (utf8 mark) t⟩ := by
  rw [expect]
  split <;> rfl

theorem outcome_expect_nil (input : Bytes) (mark : String) :
    outcome (expect input mark [])
      = .error ⟨(Token.endAt input.length).span,
          .expected (utf8 mark) (Token.endAt input.length)⟩ := by
  rw [expect]
  rfl

theorem outcome_primary (input : Bytes) (t : Token) (ts : List Token) :
    outcome (primary (π := π) input t ts)
      = match t.category with
        | .name => .ok (.ident t.lexeme t.span, ts)
        | .number => .ok (.literal .number t.lexeme t.span, ts)
        | .text => .ok (.literal .text t.lexeme t.span, ts)
        | .punctuation =>
          if t.lexeme = utf8 "(" then
            if (current input ts).isMark (utf8 ")") then
              .error ⟨(current input ts).span, .emptyParentheses⟩
            else
              outcome (elements input ts) >>= fun x =>
                outcome (expect input ")" x.2) >>= fun y =>
                  .ok (.group x.1 (t.span.extend y.1.span), y.2)
          else .error (unexpected t)
        | _ => .error (unexpected t) := by
  rw [primary]
  cases t.category with
  | name | number | text | operator | invocation | endOfInput => rfl
  | punctuation =>
    simp only
    split
    · split
      · rfl
      · rcases elements (π := π) input ts with e | ⟨es, r, h⟩
        · rfl
        · simp only [outcome, ok_bind]
          rcases expect input ")" r with e | ⟨c, r', h'⟩ <;> rfl
    · rfl

theorem outcome_suffixes_nil (input : Bytes) (e : Expr π) :
    outcome (suffixes input e []) = .ok (e, []) := by
  rw [suffixes]
  rfl

theorem outcome_suffixes_cons (input : Bytes) (e : Expr π) (t : Token) (ts : List Token) :
    outcome (suffixes input e (t :: ts))
      = if t.isMark (utf8 "(") then
          outcome (arguments input ts) >>= fun x =>
            outcome (suffixes input (.call e x.1.1 (e.span.extend x.1.2)) x.2)
        else if t.isMark (utf8 "[") then
          outcome (expression (π := π) input 1 ts) >>= fun x =>
            outcome (expect input "]" x.2) >>= fun y =>
              outcome (suffixes input
                (.foreign (input.slice (e.span.extend y.1.span).lo (e.span.extend y.1.span).hi) none
                  (e.span.extend y.1.span)) y.2)
        else .ok (e, t :: ts) := by
  rw [suffixes]
  split
  · rcases arguments (π := π) input ts with e | ⟨⟨args, close⟩, r, h⟩
    · rfl
    · simp only [outcome, ok_bind]
      rcases suffixes input (.call e args (e.span.extend close)) r with e | ⟨e, r', h'⟩ <;> rfl
  · split
    · rcases expression (π := π) input 1 ts with e | ⟨i, r, h⟩
      · rfl
      · simp only [outcome, ok_bind]
        rcases expect input "]" r with e | ⟨c, r', h'⟩
        · rfl
        · simp only [ok_bind]
          rcases suffixes input (.foreign _ none (e.span.extend c.span)) r' with e | ⟨e, r'', h''⟩
            <;> rfl
    · rfl

theorem outcome_elements (input : Bytes) (ts : List Token) :
    outcome (elements (π := π) input ts)
      = outcome (expression input 1 ts) >>= fun x =>
        match x.2 with
        | [] => .ok ([x.1], [])
        | t :: rest =>
          if t.isMark (utf8 ",") then
            outcome (elements input rest) >>= fun y => .ok (x.1 :: y.1, y.2)
          else .ok ([x.1], t :: rest) := by
  rw [elements]
  rcases expression (π := π) input 1 ts with e | ⟨e, r, h⟩
  · rfl
  · simp only [outcome, ok_bind]
    cases r with
    | nil => rfl
    | cons t rest =>
      by_cases ht : t.isMark (utf8 ",")
      · simp only [ht, if_true]
        rcases elements (π := π) input rest with e | ⟨es, r', h'⟩ <;> rfl
      · simp only [ht, if_false, Bool.false_eq_true]

theorem outcome_arguments_cons (input : Bytes) (t : Token) (ts : List Token) :
    outcome (arguments (π := π) input (t :: ts))
      = if t.isMark (utf8 ")") then .ok (([], t.span), ts)
        else outcome (argumentList input (t :: ts)) >>= fun x =>
          outcome (expect input ")" x.2) >>= fun y => .ok ((x.1, y.1.span), y.2) := by
  rw [arguments]
  split
  · rfl
  · rcases argumentList (π := π) input (t :: ts) with e | ⟨args, r, h⟩
    · rfl
    · simp only [outcome, ok_bind]
      rcases expect input ")" r with e | ⟨c, r', h'⟩ <;> rfl

theorem outcome_arguments_nil (input : Bytes) :
    outcome (arguments (π := π) input []) = .error (unexpected (Token.endAt input.length)) := by
  rw [arguments]
  rfl

/-- An argument has a label, or it is all there is. -/
theorem label_cases (ts : List Token) :
    (∃ t c rest, ts = t :: c :: rest ∧ t.category = .name ∧ c.isMark (utf8 ":") = true ∧
      (label ts).1 = t.lexeme ∧ (label ts).2.1 = rest) ∨
    ((label ts).1 = [] ∧ (label ts).2.1 = ts ∧ ∀ t ∈ ts.head?, t.category = .name →
      ∀ c ∈ ts.tail.head?, c.isMark (utf8 ":") = false) := by
  match ts with
  | [] => exact .inr ⟨rfl, rfl, by simp⟩
  | [t] => exact .inr ⟨rfl, rfl, by simp⟩
  | t :: c :: rest =>
    by_cases h : t.category = .name ∧ c.isMark (utf8 ":") = true
    · exact .inl ⟨t, c, rest, rfl, h.1, h.2, by simp [label, h], by simp [label, h]⟩
    · have hnone : ¬((t.category == .name && c.isMark (utf8 ":")) = true) := by simpa using h
      have hlabel : label (t :: c :: rest) = ([], ⟨t :: c :: rest, Nat.le_refl _⟩) := by
        rw [label, if_neg hnone]
      refine .inr ⟨by rw [hlabel], by rw [hlabel], ?_⟩
      intro u hu hname d hd
      cases hu
      cases hd
      exact eq_false_of_ne_true fun hc => h ⟨hname, hc⟩

theorem outcome_argumentList (input : Bytes) (ts : List Token) :
    outcome (argumentList (π := π) input ts)
      = outcome (expression input 1 (label ts).2.1) >>= fun x =>
        match x.2 with
        | [] => .ok ([((label ts).1, x.1)], [])
        | t :: rest =>
          if t.isMark (utf8 ",") then
            outcome (argumentList input rest) >>= fun y => .ok (((label ts).1, x.1) :: y.1, y.2)
          else .ok ([((label ts).1, x.1)], t :: rest) := by
  rw [argumentList]
  rcases label ts with ⟨name, behind, h₀⟩
  simp only
  rcases expression (π := π) input 1 behind with e | ⟨e, r, h⟩
  · rfl
  · simp only [outcome, ok_bind]
    cases r with
    | nil => rfl
    | cons t rest =>
      by_cases ht : t.isMark (utf8 ",")
      · simp only [ht, if_true]
        rcases argumentList (π := π) input rest with e | ⟨args, r', h'⟩ <;> rfl
      · simp only [ht, if_false, Bool.false_eq_true]

end RelaxArith.Parse
