/-
Where the parser stops.

The parser is followed token by token.  While one of its functions reads, the position advances
through the tokens that it takes; and where it gives up, the position has no next one for the
token at which the error points.  `Traced` says this of one call, and composes like the calls do.

The functions call each other on fewer and fewer tokens, so the statement for all of them is an
induction on their number, as in the proof of soundness.  Levels of precedence occur in one place
only: a call at a level may stop at an operator that binds too loosely, but then the next position
is there all the same, and the loop around the call goes on with it.  At level 1 no operator binds
too loosely.
-/
import RelaxArith.Proofs.Parser.Reading

namespace RelaxArith

open Parse Grammar

variable {π : Type} {α β : Type} {input : Bytes}

/-- There is no way to go on with the tokens that are left. -/
def Reading.Stuck (q : Reading) : List Token → Prop
  | [] => q ≠ .whole
  | t :: _ => q.next t = none

/-- An error points at the first token that cannot be read, or at the end of the input. -/
def Blames (input : Bytes) (q : Reading) (ts : List Token) (e : SyntaxError) : Prop :=
  ∃ us r q', ts = us ++ r ∧ q.run us = some q' ∧ e.span = (current input r).span ∧ q'.Stuck r

/-- Reading follows a result: through the tokens taken to a position with a property, or to the
place at which an error points. -/
def Traced (input : Bytes) (q : Reading) (ts : List Token) (p : List Token → Reading → Prop) :
    Except SyntaxError (α × List Token) → Prop
  | .ok (_, r) => ∃ us q', ts = us ++ r ∧ q.run us = some q' ∧ p r q'
  | .error e => Blames input q ts e

namespace Traced

variable {q q' : Reading} {t : Token} {ts : List Token} {p p' : List Token → Reading → Prop}

theorem stay {a : α} (h : p ts q) : Traced input q ts p (.ok (a, ts)) :=
  ⟨[], q, rfl, rfl, h⟩

theorem stuck {e : SyntaxError} (he : e.span = (current input ts).span) (h : q.Stuck ts) :
    Traced (α := α) input q ts p (.error e) :=
  ⟨[], ts, q, rfl, rfl, he, h⟩

theorem imp {x : Except SyntaxError (α × List Token)} (hx : Traced input q ts p x)
    (h : ∀ r q', p r q' → p' r q') : Traced input q ts p' x := by
  cases x with
  | error e => exact hx
  | ok y =>
    obtain ⟨us, q', hts, hrun, hp⟩ := hx
    exact ⟨us, q', hts, hrun, h y.2 q' hp⟩

/-- A token that is read before a function is called. -/
theorem cons (hq : q.next t = some q') {x : Except SyntaxError (α × List Token)}
    (h : Traced input q' ts p x) : Traced input q (t :: ts) p x := by
  cases x with
  | error e =>
    obtain ⟨us, r, q'', hts, hrun, he, hstuck⟩ := h
    exact ⟨t :: us, r, q'', by rw [hts]; rfl, by rw [Reading.run_cons hq, hrun], he, hstuck⟩
  | ok y =>
    obtain ⟨us, q'', hts, hrun, hp⟩ := h
    exact ⟨t :: us, q'', by rw [hts]; rfl, by rw [Reading.run_cons hq, hrun], hp⟩

/-- A call behind tokens that have been read. -/
theorem append {us : List Token} (hq : q.run us = some q')
    {x : Except SyntaxError (α × List Token)} (h : Traced input q' ts p x) :
    Traced input q (us ++ ts) p x := by
  cases x with
  | error e =>
    obtain ⟨vs, r, q'', hts, hrun, he, hstuck⟩ := h
    refine ⟨us ++ vs, r, q'', by rw [hts, List.append_assoc], ?_, he, hstuck⟩
    rw [Reading.run_append_of_some hq, hrun]
  | ok y =>
    obtain ⟨vs, q'', hts, hrun, hp⟩ := h
    refine ⟨us ++ vs, q'', by rw [hts, List.append_assoc], ?_, hp⟩
    rw [Reading.run_append_of_some hq, hrun]

/-- One call behind another. -/
theorem bind {x : Except SyntaxError (α × List Token)}
    {f : α × List Token → Except SyntaxError (β × List Token)} (hx : Traced input q ts p x)
    (hf : ∀ a r q', x = .ok (a, r) → p r q' → Traced input q' r p' (f (a, r))) :
    Traced input q ts p' (x >>= f) := by
  cases x with
  | error e => exact hx
  | ok y =>
    obtain ⟨us, q', hts, hrun, hp⟩ := hx
    rw [hts]
    exact append hrun (hf y.1 y.2 q' rfl hp)

end Traced

/-! ### Positions before and behind an operand -/

/-- Before an operand. In the arguments of a call its first name may be a label; then what comes
behind the name is no colon. -/
structure Reading.Before (q : Reading) (opened : List Bracket) (ts : List Token) : Prop where
  waits : q ≠ .whole
  next : ∀ t ∈ ts.head?, q.next t = Reading.operand opened t ∨
    (t.category = .name ∧ q.next t = some ⟨.argumentName, opened⟩ ∧ opened ≠ [] ∧
      ∀ c ∈ ts.tail.head?, c.isMark (utf8 ":") = false)

/-- Behind an operand. -/
def Reading.Behind (q : Reading) (opened : List Bracket) (r : List Token) : Prop :=
  q = ⟨.behind, opened⟩ ∨
    (q = ⟨.argumentName, opened⟩ ∧ opened ≠ [] ∧ ∀ t ∈ r.head?, t.isMark (utf8 ":") = false)

theorem Reading.before_operand (opened : List Bracket) (ts : List Token) :
    Reading.Before ⟨.operand, opened⟩ opened ts :=
  ⟨by simp [Reading.whole], fun _ _ => .inl rfl⟩

theorem Reading.Behind.next {q : Reading} {opened : List Bracket} {t : Token} {r : List Token}
    (h : q.Behind opened (t :: r)) : q.next t = Reading.behind opened t := by
  rcases h with rfl | ⟨rfl, _, hcolon⟩
  · rfl
  · simp [Reading.next, hcolon t rfl]

theorem Reading.Behind.eq_whole {q : Reading} (h : q.Behind [] []) : q = .whole := by
  rcases h with rfl | ⟨_, hne, _⟩
  · rfl
  · exact absurd rfl hne

theorem Reading.Behind.ne_whole {q : Reading} {b : Bracket} {opened : List Bracket}
    {r : List Token} (h : q.Behind (b :: opened) r) : q ≠ .whole := by
  rcases h with rfl | ⟨rfl, _, _⟩ <;> simp [Reading.whole]

/-- Behind an expression that was read at a level. -/
structure Reading.Ends (q : Reading) (level : Nat) (opened : List Bracket) (r : List Token) :
    Prop where
  behind : q.Behind opened r
  noSuffix : NoSuffix r
  noOperator : NoOperator level r

/-- Behind an expression at level 1 only a closing mark or a comma can come. -/
theorem Reading.Ends.next {q : Reading} {opened : List Bracket} {t : Token} {r : List Token}
    (h : q.Ends 1 opened (t :: r)) : q.next t = Reading.close opened t := by
  obtain ⟨hparen, hbracket⟩ := h.noSuffix t rfl
  rw [h.behind.next, Reading.behind, hparen, hbracket, h.noOperator t rfl]
  simp

/-- Parentheses are not closed before there is something in them. -/
theorem stuck_of_close {ts : List Token} {opened : List Bracket}
    (h : (current input ts).isMark (utf8 ")") = true) :
    Reading.Stuck ⟨.operand, opened⟩ ts := by
  cases ts with
  | nil => simp [Reading.Stuck, Reading.whole]
  | cons t ts =>
    have hmark : (t.category = .operator ∨ t.category = .punctuation) ∧ t.lexeme = utf8 ")" := by
      simpa [current, Token.isMark] using h
    show Reading.operand opened t = none
    obtain ⟨hcat | hcat, hlexeme⟩ := hmark
    · simp [Reading.operand, hcat, hlexeme]
      decide
    · simp [Reading.operand, hcat, hlexeme]
      decide

/-- A mark that has to come is there, or the position is stuck. -/
theorem traced_expect {q q' : Reading} {opened : List Bracket} {b : Bracket} {mark : String}
    {ts : List Token} (h : q.Ends 1 (b :: opened) ts)
    (hclose : ∀ t ∈ ts.head?, Reading.close (b :: opened) t
      = if t.isMark (utf8 mark) then some q' else none) :
    Traced input q ts (fun _ q'' => q'' = q') (outcome (expect input mark ts)) := by
  cases ts with
  | nil =>
    rw [outcome_expect_nil]
    exact .stuck rfl h.behind.ne_whole
  | cons t r =>
    have hnext := h.next.trans (hclose t rfl)
    rw [outcome_expect]
    by_cases ht : t.isMark (utf8 mark)
    · rw [if_pos ht] at hnext ⊢
      exact .cons hnext (.stay rfl)
    · rw [if_neg ht] at hnext ⊢
      exact .stuck rfl hnext

/-! ### The functions of the parser -/

/-- What reading does while the functions of the parser read `n` tokens. -/
structure Follows (π : Type) (input : Bytes) (n : Nat) : Prop where
  expression : ∀ {ts : List Token} {q : Reading} {opened : List Bracket} (level : Nat),
    ts.length = n → q.Before opened ts →
    Traced input q ts (fun r q' => q'.Ends level opened r)
      (outcome (expression (π := π) input level ts))
  climb : ∀ {ts : List Token} {q : Reading} {opened : List Bracket} (level : Nat) (left : Expr π),
    ts.length = n → q.Behind opened ts → NoSuffix ts →
    Traced input q ts (fun r q' => q'.Ends level opened r) (outcome (climb input level left ts))
  operand : ∀ {ts : List Token} {q : Reading} {opened : List Bracket},
    ts.length = n → q.Before opened ts →
    Traced input q ts (fun r q' => q'.Behind opened r ∧ NoSuffix r)
      (outcome (operand (π := π) input ts))
  suffixes : ∀ {ts : List Token} {q : Reading} {opened : List Bracket} (e : Expr π),
    ts.length = n → q.Behind opened ts →
    Traced input q ts (fun r q' => q'.Behind opened r ∧ NoSuffix r)
      (outcome (suffixes input e ts))
  elements : ∀ {ts : List Token} (opened : List Bracket), ts.length = n →
    Traced input ⟨.operand, .group :: opened⟩ ts
      (fun r q' => q'.Ends 1 (.group :: opened) r ∧ ∀ t ∈ r.head?, t.isMark (utf8 ",") = false)
      (outcome (elements (π := π) input ts))
  arguments : ∀ {ts : List Token} (opened : List Bracket), ts.length = n →
    Traced input ⟨.arguments, .arguments :: opened⟩ ts (fun _ q' => q' = ⟨.behind, opened⟩)
      (outcome (arguments (π := π) input ts))
  argumentList : ∀ {ts : List Token} {q : Reading} (opened : List Bracket), ts.length = n →
    q ≠ .whole → (∀ t ∈ ts.head?, q.next t = Reading.argument (.arguments :: opened) t) →
    Traced input q ts
      (fun r q' => q'.Ends 1 (.arguments :: opened) r ∧ ∀ t ∈ r.head?, t.isMark (utf8 ",") = false)
      (outcome (argumentList (π := π) input ts))

section Step

variable {n : Nat} (ih : ∀ m < n, Follows π input m)

include ih

theorem climb_traced {ts : List Token} {q : Reading} {opened : List Bracket} (level : Nat)
    (left : Expr π) (hlen : ts.length = n) (hq : q.Behind opened ts) (hsuffix : NoSuffix ts) :
    Traced input q ts (fun r q' => q'.Ends level opened r)
      (outcome (climb input level left ts)) := by
  cases ts with
  | nil =>
    rw [outcome_climb_nil]
    exact .stay ⟨hq, hsuffix, by simp [NoOperator]⟩
  | cons t ts =>
    rw [outcome_climb_cons]
    cases hb : binding? level t with
    | none => exact .stay ⟨hq, hsuffix, fun u hu => by cases hu; exact hb⟩
    | some b =>
      -- An operator of any level is one at level 1.
      have hone : (binding? 1 t).isSome := by
        obtain ⟨hcat, hop, _, _⟩ := of_binding? hb
        rw [binding?_of_mem hcat hop (level_of_mem hop).1]
        rfl
      have hnext : q.next t = some ⟨.operand, opened⟩ := by
        obtain ⟨hparen, hbracket⟩ := hsuffix t rfl
        rw [hq.next]
        simp [Reading.behind, hparen, hbracket, hone]
      simp only [List.length_cons] at hlen
      refine .cons hnext (.bind ((ih ts.length (by omega)).expression b.rightLevel rfl
        (Reading.before_operand opened ts)) ?_)
      intro right r q' hright hends
      have hshort := rest_of_outcome hright
      exact (ih r.length (by omega)).climb level _ rfl hends.behind hends.noSuffix

theorem suffixes_traced {ts : List Token} {q : Reading} {opened : List Bracket} (e : Expr π)
    (hlen : ts.length = n) (hq : q.Behind opened ts) :
    Traced input q ts (fun r q' => q'.Behind opened r ∧ NoSuffix r)
      (outcome (suffixes input e ts)) := by
  cases ts with
  | nil =>
    rw [outcome_suffixes_nil]
    exact .stay ⟨hq, by simp [NoSuffix]⟩
  | cons t ts =>
    simp only [List.length_cons] at hlen
    rw [outcome_suffixes_cons]
    by_cases hparen : t.isMark (utf8 "(") = true
    · rw [if_pos hparen]
      have hnext : q.next t = some ⟨.arguments, .arguments :: opened⟩ := by
        rw [hq.next]
        simp [Reading.behind, hparen]
      refine .cons hnext (.bind ((ih ts.length (by omega)).arguments opened rfl) ?_)
      intro args r q' hargs hq'
      have hshort := rest_of_outcome hargs
      exact (ih r.length (by omega)).suffixes _ rfl (.inl hq')
    rw [if_neg hparen]
    by_cases hbracket : t.isMark (utf8 "[") = true
    · rw [if_pos hbracket]
      have hnext : q.next t = some ⟨.operand, .subscript :: opened⟩ := by
        rw [hq.next]
        simp [Reading.behind, hparen, hbracket]
      refine .cons hnext (.bind ((ih ts.length (by omega)).expression 1 rfl
        (Reading.before_operand _ ts)) ?_)
      intro i r q' hi hends
      have hshort := rest_of_outcome hi
      refine .bind (traced_expect hends fun _ _ => rfl) ?_
      intro c r' q'' hc hq''
      have hshort' : r'.length < r.length := rest_of_outcome hc
      exact (ih r'.length (by omega)).suffixes _ rfl (.inl hq'')
    · rw [if_neg hbracket]
      refine .stay ⟨hq, ?_⟩
      intro u hu
      cases hu
      exact ⟨eq_false_of_ne_true hparen, eq_false_of_ne_true hbracket⟩

theorem elements_traced {ts : List Token} (opened : List Bracket) (hlen : ts.length = n)
    (hexpression : Traced input ⟨.operand, .group :: opened⟩ ts
      (fun r q' => q'.Ends 1 (.group :: opened) r) (outcome (expression (π := π) input 1 ts))) :
    Traced input ⟨.operand, .group :: opened⟩ ts
      (fun r q' => q'.Ends 1 (.group :: opened) r ∧ ∀ t ∈ r.head?, t.isMark (utf8 ",") = false)
      (outcome (elements (π := π) input ts)) := by
  rw [outcome_elements]
  refine .bind hexpression ?_
  intro e r q' he hends
  have hshort := rest_of_outcome he
  cases r with
  | nil => exact .stay ⟨hends, by simp⟩
  | cons t r =>
    simp only
    by_cases hcomma : t.isMark (utf8 ",") = true
    · rw [if_pos hcomma]
      have hnext : q'.next t = some ⟨.operand, .group :: opened⟩ := by
        rw [hends.next]
        simp [Reading.close, hcomma]
      simp only [List.length_cons] at hshort
      refine .cons hnext (.bind ((ih r.length (by omega)).elements opened rfl) ?_)
      intro es r' q'' _ hq''
      exact .stay hq''
    · rw [if_neg hcomma]
      refine .stay ⟨hends, ?_⟩
      intro u hu
      cases hu
      exact eq_false_of_ne_true hcomma

/-- Parentheses behind the opening one. -/
theorem group_traced {ts : List Token} (opened : List Bracket) (opening : Span)
    (hlen : ts.length < n) :
    Traced input ⟨.operand, .group :: opened⟩ ts (fun _ q' => q' = ⟨.behind, opened⟩)
      (if (current input ts).isMark (utf8 ")") then
        .error ⟨(current input ts).span, .emptyParentheses⟩
      else
        outcome (elements (π := π) input ts) >>= fun x =>
          outcome (expect input ")" x.2) >>= fun y =>
            .ok (Expr.group x.1 (opening.extend y.1.span), y.2)) := by
  by_cases hempty : (current input ts).isMark (utf8 ")") = true
  · rw [if_pos hempty]
    exact .stuck rfl (stuck_of_close hempty)
  · rw [if_neg hempty]
    refine .bind ((ih ts.length hlen).elements opened rfl) ?_
    intro es r q' _ hq'
    refine .bind (traced_expect hq'.1 fun u hu => ?_) fun _ _ _ _ h => .stay h
    simp [Reading.close, hq'.2 u hu]

/-- A name, a constant, or something in parentheses. -/
theorem primary_traced {t : Token} {ts : List Token} {q : Reading} {opened : List Bracket}
    (hlen : ts.length < n) (hq : q.Before opened (t :: ts))
    (hsign : ¬(t.category == .operator && isPrefixOperator t.lexeme) = true) :
    Traced input q (t :: ts) (fun r q' => q'.Behind opened r)
      (outcome (primary (π := π) input t ts)) := by
  have hplain : t.category ≠ .name → q.next t = Reading.operand opened t := by
    intro hname
    rcases hq.next t rfl with h | h
    · exact h
    · exact absurd h.1 hname
  -- What is no operand has no next position.
  have hstuck : t.category ≠ .name → Reading.operand opened t = none →
      Traced input q (t :: ts) (fun r q' => q'.Behind opened r)
        (Except.error (unexpected t) : Except SyntaxError (Expr π × List Token)) :=
    fun hname hnone => .stuck rfl ((hplain hname).trans hnone)
  rw [outcome_primary]
  cases hcat : t.category with
  | name =>
    have hname : Reading.operand opened t = some ⟨.behind, opened⟩ := by
      simp [Reading.operand, hcat]
    rcases hq.next t rfl with h | ⟨_, h, hopened, hcolon⟩
    · exact .cons (h.trans hname) (.stay (.inl rfl))
    · exact .cons h (.stay (.inr ⟨rfl, hopened, hcolon⟩))
  | number | text =>
    have hnext : q.next t = some ⟨.behind, opened⟩ := by
      rw [hplain (by simp [hcat])]
      simp [Reading.operand, hcat]
    exact .cons hnext (.stay (.inl rfl))
  | punctuation =>
    simp only
    by_cases hparen : t.lexeme = utf8 "("
    · rw [if_pos hparen]
      have hnext : q.next t = some ⟨.operand, .group :: opened⟩ := by
        rw [hplain (by simp [hcat])]
        simp [Reading.operand, hcat, hparen]
      exact .cons hnext ((group_traced ih opened t.span hlen).imp fun _ _ h => .inl h)
    · rw [if_neg hparen]
      exact hstuck (by simp [hcat]) (by simp [Reading.operand, hcat, hparen])
  | operator =>
    refine hstuck (by simp [hcat]) ?_
    rw [Reading.operand, if_neg hsign, hcat]
  | invocation | endOfInput =>
    exact hstuck (by simp [hcat]) (by simp [Reading.operand, hcat])

/-- Signs, then a primary and whatever is behind it. -/
theorem operand_traced {ts : List Token} {q : Reading} {opened : List Bracket}
    (hlen : ts.length = n) (hq : q.Before opened ts) :
    Traced input q ts (fun r q' => q'.Behind opened r ∧ NoSuffix r)
      (outcome (operand (π := π) input ts)) := by
  cases ts with
  | nil =>
    rw [outcome_operand_nil]
    exact .stuck rfl hq.waits
  | cons t ts =>
    simp only [List.length_cons] at hlen
    rw [outcome_operand_cons]
    by_cases hsign : (t.category == .operator && isPrefixOperator t.lexeme) = true
    · rw [if_pos hsign]
      have hcat : t.category = .operator := beq_iff_eq.mp (Bool.and_eq_true_iff.mp hsign).1
      have hnext : q.next t = some ⟨.operand, opened⟩ := by
        rcases hq.next t rfl with h | ⟨hname, -⟩
        · rw [h, Reading.operand, if_pos hsign]
        · rw [hcat] at hname
          cases hname
      refine .cons hnext (.bind ((ih ts.length (by omega)).operand rfl
        (Reading.before_operand opened ts)) ?_)
      intro x r q' _ hq'
      exact .stay hq'
    · rw [if_neg hsign]
      refine .bind (primary_traced ih (by omega) hq hsign) ?_
      intro e r q' he hq'
      have hshort := rest_of_outcome he
      exact (ih r.length (by omega)).suffixes e rfl hq'

theorem expression_traced {ts : List Token} {q : Reading} {opened : List Bracket} (level : Nat)
    (hlen : ts.length = n) (hq : q.Before opened ts) :
    Traced input q ts (fun r q' => q'.Ends level opened r)
      (outcome (expression (π := π) input level ts)) := by
  rw [outcome_expression]
  refine .bind (operand_traced ih hlen hq) ?_
  intro left r q' hleft hq'
  have hshort := rest_of_outcome hleft
  exact (ih r.length (by omega)).climb level left rfl hq'.1 hq'.2

theorem argumentList_traced {ts : List Token} {q : Reading} (opened : List Bracket)
    (hlen : ts.length = n) (hwaits : q ≠ .whole)
    (hq : ∀ t ∈ ts.head?, q.next t = Reading.argument (.arguments :: opened) t) :
    Traced input q ts
      (fun r q' => q'.Ends 1 (.arguments :: opened) r ∧ ∀ t ∈ r.head?, t.isMark (utf8 ",") = false)
      (outcome (argumentList (π := π) input ts)) := by
  have hexpression : Traced input q ts (fun r q' => q'.Ends 1 (.arguments :: opened) r)
      (outcome (expression (π := π) input 1 (label ts).2.1)) := by
    rcases label_cases ts with ⟨t, c, rest, rfl, hname, hcolon, -, hrest⟩ | ⟨-, hrest, hcolon⟩
    · have hnext : q.next t = some ⟨.argumentName, .arguments :: opened⟩ := by
        rw [hq t rfl, Reading.argument, if_pos hname]
      have hnext' : Reading.next ⟨.argumentName, .arguments :: opened⟩ c
          = some ⟨.operand, .arguments :: opened⟩ := by
        simp [Reading.next, hcolon]
      simp only [List.length_cons] at hlen
      rw [hrest]
      exact .cons hnext (.cons hnext' ((ih rest.length (by omega)).expression 1 rfl
        (Reading.before_operand _ rest)))
    · rw [hrest]
      refine expression_traced ih 1 hlen ⟨hwaits, ?_⟩
      intro t ht
      by_cases hname : t.category = .name
      · refine .inr ⟨hname, ?_, by simp, hcolon t ht hname⟩
        rw [hq t ht, Reading.argument, if_pos hname]
      · refine .inl ?_
        rw [hq t ht, Reading.argument, if_neg hname]
  rw [outcome_argumentList]
  refine .bind hexpression ?_
  intro e r q' he hends
  have hbehind : (label ts).2.1.length ≤ ts.length := (label ts).2.2
  have hshort : r.length < (label ts).2.1.length := rest_of_outcome he
  cases r with
  | nil => exact .stay ⟨hends, by simp⟩
  | cons t r =>
    simp only
    by_cases hcomma : t.isMark (utf8 ",") = true
    · rw [if_pos hcomma]
      have hnext : q'.next t = some ⟨.argument, .arguments :: opened⟩ := by
        rw [hends.next]
        simp [Reading.close, hcomma]
      simp only [List.length_cons] at hshort
      refine .cons hnext (.bind ((ih r.length (by omega)).argumentList opened rfl
        (by simp [Reading.whole]) fun _ _ => rfl) ?_)
      intro args r' q'' _ hq''
      exact .stay hq''
    · rw [if_neg hcomma]
      refine .stay ⟨hends, ?_⟩
      intro u hu
      cases hu
      exact eq_false_of_ne_true hcomma

theorem arguments_traced {ts : List Token} (opened : List Bracket) (hlen : ts.length = n) :
    Traced input ⟨.arguments, .arguments :: opened⟩ ts (fun _ q' => q' = ⟨.behind, opened⟩)
      (outcome (arguments (π := π) input ts)) := by
  cases ts with
  | nil =>
    rw [outcome_arguments_nil]
    exact .stuck rfl (by simp [Reading.Stuck, Reading.whole])
  | cons t ts =>
    rw [outcome_arguments_cons]
    by_cases hclose : t.isMark (utf8 ")") = true
    · rw [if_pos hclose]
      exact .cons (by simp [Reading.next, hclose]) (.stay rfl)
    · rw [if_neg hclose]
      refine .bind (argumentList_traced ih opened hlen (by simp [Reading.whole]) ?_) ?_
      · intro u hu
        cases hu
        simp [Reading.next, hclose]
      · intro args r q' _ hq'
        refine .bind (traced_expect hq'.1 fun u hu => ?_) fun _ _ _ _ h => .stay h
        simp [Reading.close, hq'.2 u hu]

end Step

/-- Reading follows every function of the parser, on any number of tokens. -/
theorem follows (input : Bytes) (n : Nat) : Follows π input n := by
  induction n using Nat.strongRecOn with
  | ind n ih =>
    exact ⟨expression_traced ih, climb_traced ih, operand_traced ih, suffixes_traced ih,
      fun opened hlen => elements_traced ih opened hlen
        (expression_traced ih 1 hlen (Reading.before_operand _ _)),
      arguments_traced ih, argumentList_traced ih⟩

/-! ### Texts -/

variable {s : Bytes} {ts : List Token}

/-- What is left behind an expression is left over, or it is nothing. -/
theorem traced_parse (hts : Spelled 0 s [] ts) :
    (∃ e : Expr π, parse s = .ok e ∧ Reading.start.run ts = some .whole) ∨
    ∃ e, (parse s : Except SyntaxError (Expr π)) = .error e ∧ Blames s .start ts e := by
  rw [parse_of_tokens (tokens_eq_ok_iff.mpr hts)]
  have htraced := (follows (π := π) s ts.length).expression 1 rfl
    (Reading.before_operand [] ts)
  cases hx : outcome (expression (π := π) s 1 ts) with
  | error e =>
    rw [hx] at htraced
    exact .inr ⟨e, rfl, htraced⟩
  | ok x =>
    obtain ⟨e, r⟩ := x
    rw [hx] at htraced
    obtain ⟨us, q, hus, hrun, hends⟩ := htraced
    cases r with
    | nil =>
      rw [List.append_nil] at hus
      rw [hends.behind.eq_whole, ← hus] at hrun
      exact .inl ⟨e, rfl, hrun⟩
    | cons t r => exact .inr ⟨unexpected t, rfl, us, t :: r, q, hus, hrun, rfl, hends.next⟩

/-- Reading arrives at the end of a whole expression exactly if the text is parsed. -/
theorem run_eq_whole_iff (hts : Spelled 0 s [] ts) :
    Reading.start.run ts = some .whole ↔ ∃ e : Expr π, parse s = .ok e := by
  rcases traced_parse (π := π) hts with ⟨e, he, hrun⟩ | ⟨e, he, us, r, q, hus, hrun, -, hstuck⟩
  · exact ⟨fun _ => ⟨e, he⟩, fun _ => hrun⟩
  · constructor
    · intro hwhole
      rw [hus, Reading.run_append_of_some hrun] at hwhole
      cases r with
      | nil => exact absurd (Option.some.inj hwhole) hstuck
      | cons t r =>
        have hnone : q.next t = none := hstuck
        simp [Reading.run, hnone] at hwhole
    · rintro ⟨e', he'⟩
      rw [he] at he'
      cases he'

/-- A row of words is that of the tokens of a text that is parsed. -/
def Accepted (π : Type) (ws : List (Category × Bytes)) : Prop :=
  ∃ (s : Bytes) (ts : List Token) (e : Expr π),
    scan s = ts.map .token ∧ ts.map Token.word = ws ∧ parse s = .ok e

theorem Accepted.run (h : Accepted π (ts.map Token.word)) :
    Reading.start.run ts = some .whole := by
  obtain ⟨s, us, e, hscan, hwords, hparse⟩ := h
  rw [← Reading.run_of_words_eq _ hwords]
  exact (run_eq_whole_iff (scan_eq_iff.mp hscan)).mpr ⟨e, hparse⟩

/-- The beginning of a row that is accepted can be read. -/
theorem Accepted.readable {ws : List (Category × Bytes)}
    (h : Accepted π (ts.map Token.word ++ ws)) : ∃ q, Reading.start.run ts = some q := by
  obtain ⟨s, us, e, hscan, hwords, hparse⟩ := h
  obtain ⟨vs, vs', rfl, hvs, -⟩ := List.map_eq_append_iff.mp hwords
  have hrun := (run_eq_whole_iff (scan_eq_iff.mp hscan)).mpr ⟨e, hparse⟩
  rw [Reading.run_append] at hrun
  obtain ⟨q, hq, -⟩ := Option.bind_eq_some_iff.mp hrun
  exact ⟨q, by rw [← Reading.run_of_words_eq _ hvs, hq]⟩

/-- What has been read is the beginning of a row that is accepted. -/
theorem accepted_completion (hts : Spelled 0 s [] ts) {q : Reading}
    (h : Reading.start.run ts = some q) :
    Accepted π (ts.map Token.word ++ q.completion.map Token.word) := by
  obtain ⟨us, hus, hwords⟩ := spelled_append_spaced hts q.isWhole_completion
  have hrun : Reading.start.run (ts ++ us) = some .whole := by
    rw [Reading.run_append_of_some h, q.run_of_words_eq hwords, q.run_completion]
  obtain ⟨e, he⟩ := (run_eq_whole_iff (π := π) hus).mp hrun
  exact ⟨_, ts ++ us, e, scan_eq_iff.mpr hus, by rw [List.map_append, hwords], he⟩

/-- **An error points at the first token that cannot continue.** If a text scans without a report
and is not parsed, the error has the span of a token, or that of the end of the input.  The tokens
before it are the beginning of a row that is accepted; no row that is accepted begins with these
tokens and the one at the error, and at the end of the input, the row itself is not accepted. -/
theorem error_at_first_unreadable_token {e : SyntaxError} (hscan : scan s = ts.map .token)
    (he : (parse s : Except SyntaxError (Expr π)) = .error e) :
    ∃ k ≤ ts.length, e.span = (current s (ts.drop k)).span ∧
      (∃ ws, Accepted π ((ts.take k).map Token.word ++ ws)) ∧
      (k < ts.length → ∀ ws, ¬Accepted π ((ts.take (k + 1)).map Token.word ++ ws)) ∧
      (k = ts.length → ¬Accepted π (ts.map Token.word)) := by
  have hts := scan_eq_iff.mp hscan
  rcases traced_parse (π := π) hts with ⟨e', he', -⟩ | ⟨e', he', us, r, q, rfl, hrun, hspan, hstuck⟩
  · rw [he] at he'
    cases he'
  rw [he] at he'
  cases he'
  obtain ⟨s₁, s₂, -, hus, -⟩ := hts.split
  refine ⟨us.length, by simp, ?_, ⟨q.completion.map Token.word, ?_⟩, ?_, ?_⟩
  · rw [List.drop_left]
    exact hspan
  · rw [List.take_left]
    exact accepted_completion hus.alone hrun
  · intro hlt ws hacc
    cases r with
    | nil => simp at hlt
    | cons t r =>
      have htake : (us ++ t :: r).take (us.length + 1) = us ++ [t] := by
        rw [List.take_append]
        simp
      rw [htake] at hacc
      obtain ⟨q', hq'⟩ := hacc.readable
      have hnone : q.next t = none := hstuck
      rw [Reading.run_append_of_some hrun] at hq'
      simp [Reading.run, hnone] at hq'
  · intro hlen hacc
    cases r with
    | nil =>
      have hwhole := hacc.run
      rw [List.append_nil, hrun] at hwhole
      exact hstuck (Option.some.inj hwhole)
    | cons t r => simp at hlen

/-- The tokens of the text `f(a: b, -)`. -/
def danglingSign : List Token :=
  [⟨.name, utf8 "f", ⟨0, 1⟩⟩, ⟨.punctuation, utf8 "(", ⟨1, 2⟩⟩, ⟨.name, utf8 "a", ⟨2, 3⟩⟩,
    ⟨.punctuation, utf8 ":", ⟨3, 4⟩⟩, ⟨.name, utf8 "b", ⟨5, 6⟩⟩, ⟨.punctuation, utf8 ",", ⟨6, 7⟩⟩,
    ⟨.operator, utf8 "-", ⟨8, 9⟩⟩, ⟨.punctuation, utf8 ")", ⟨9, 10⟩⟩]

theorem error_at_first_unreadable_token_danglingSign :
    ∃ e, scan (utf8 "f(a: b, -)") = danglingSign.map .token ∧
      (parse (utf8 "f(a: b, -)") : Except SyntaxError (Expr Unit)) = .error e ∧
      ∃ k ≤ danglingSign.length,
        e.span = (current (utf8 "f(a: b, -)") (danglingSign.drop k)).span ∧
        (∃ ws, Accepted Unit ((danglingSign.take k).map Token.word ++ ws)) ∧
        (k < danglingSign.length →
          ∀ ws, ¬Accepted Unit ((danglingSign.take (k + 1)).map Token.word ++ ws)) ∧
        (k = danglingSign.length → ¬Accepted Unit (danglingSign.map Token.word)) := by
  have hscan : scan (utf8 "f(a: b, -)") = danglingSign.map .token := by cbv
  have hparse : (parse (utf8 "f(a: b, -)") : Except SyntaxError (Expr Unit))
      = .error ⟨⟨9, 10⟩, .unexpected ⟨.punctuation, utf8 ")", ⟨9, 10⟩⟩⟩ := by cbv
  exact ⟨_, hscan, hparse, error_at_first_unreadable_token hscan hparse⟩

end RelaxArith
