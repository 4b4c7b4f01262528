/-
The parser finds every derivation.

A derivation of the grammar is a row of tokens `ts` with a tree; the parser is run on `ts ++ r`.
What it makes of that depends on how `r` begins, so each symbol of the grammar comes with the
condition on `r` under which the parser stops exactly at the end of `ts`.

The levels 2 to 7 need more than that.  In `a - b - c` the tree of `a - b` is never what a call
returns: it is the left operand with which the loop goes on.  So for these levels the statement is
that reading `ts ++ r` comes down to the loop with the tree of `ts` already on its left.  Levels 8
(calls and subscripts) are a loop of their own and are treated the same way.
-/
import RelaxArith.Proofs.Parser.Steps

namespace RelaxArith

/-- A token that an expression can begin with. -/
def Token.Opens (t : Token) : Prop :=
  t.category = .name ∨ t.category = .number ∨ t.category = .text ∨ t.IsPunctuation "(" ∨
    (t.category = .operator ∧ t.lexeme ∈ Grammar.signs)

namespace Grammar

open Parse

variable {π : Type} {input : Bytes}

/-! ### Single tokens -/

theorem isMark_of_isPunctuation {t : Token} {mark : String} (h : t.IsPunctuation mark) :
    t.isMark (utf8 mark) = true := by
  simp [Token.isMark, h.1, h.2]

/-- Tokens with different texts are different marks. -/
theorem isMark_of_ne {t : Token} {mark : Bytes} (h : t.lexeme ≠ mark) : t.isMark mark = false := by
  simp [Token.isMark, h]

theorem isMark_of_operator {t : Token} {k : Nat} {mark : Bytes} (h : t.lexeme ∈ operatorsAt k)
    (hmark : mark ∈ marks) : t.isMark mark = false := by
  refine isMark_of_ne ?_
  rintro rfl
  exact not_mark_of_mem h hmark

/-- A token that opens an expression does not close a list. -/
theorem isMark_close_of_opens {t : Token} (h : t.Opens) : t.isMark (utf8 ")") = false := by
  rcases h with h | h | h | h | ⟨_, h⟩
  · simp [Token.isMark, h]
  · simp [Token.isMark, h]
  · simp [Token.isMark, h]
  · exact isMark_of_ne (by rw [h.2]; decide)
  · have hsigns : utf8 ")" ∉ signs := by decide
    refine isMark_of_ne ?_
    intro hc
    exact hsigns (hc ▸ h)

theorem binding?_of_mem {t : Token} {j k : Nat} (hcat : t.category = .operator)
    (hop : t.lexeme ∈ operatorsAt k) (hj : j ≤ k) :
    binding? j t = some ⟨k, if k = 1 then .right else .left⟩ := by
  simp [binding?, hcat, binding_of_mem hop, Option.filter, hj]

theorem binding?_of_lt {t : Token} {j k : Nat} (hop : t.lexeme ∈ operatorsAt k) (hj : k < j) :
    binding? j t = none := by
  unfold binding?
  split
  · rw [binding_of_mem hop]
    simp [Option.filter, Nat.not_le.mpr hj]
  · rfl

theorem binding?_of_isPunctuation {t : Token} {j : Nat} {mark : String}
    (h : t.IsPunctuation mark) : binding? j t = none := by
  simp [binding?, h.1]

/-! ### What may follow -/

/-- The tokens do not begin with an operator that binds at least as tightly as a level. -/
def NoOperator (level : Nat) (r : List Token) : Prop := ∀ t ∈ r.head?, binding? level t = none

/-- The tokens do not begin with an opening parenthesis or bracket. -/
def NoSuffix (r : List Token) : Prop :=
  ∀ t ∈ r.head?, t.isMark (utf8 "(") = false ∧ t.isMark (utf8 "[") = false

theorem climb_stops {level : Nat} {r : List Token} (h : NoOperator level r) (e : Expr π) :
    outcome (climb input level e r) = .ok (e, r) := by
  cases r with
  | nil => exact outcome_climb_nil ..
  | cons t r => rw [outcome_climb_cons, h t rfl]

theorem suffixes_stop {r : List Token} (h : NoSuffix r) (e : Expr π) :
    outcome (suffixes input e r) = .ok (e, r) := by
  cases r with
  | nil => exact outcome_suffixes_nil ..
  | cons t r =>
    obtain ⟨hparen, hbracket⟩ := h t rfl
    rw [outcome_suffixes_cons, hparen, hbracket]
    rfl

theorem NoOperator.mono {j k : Nat} {r : List Token} (h : NoOperator j r) (hjk : j ≤ k) :
    NoOperator k r := by
  intro t ht
  have hj := h t ht
  unfold binding? at hj ⊢
  split
  · rename_i hcat
    rw [if_pos hcat] at hj
    rw [Option.filter_eq_none_iff] at hj ⊢
    intro b hb
    have := hj b hb
    simp only [decide_eq_true_eq] at this ⊢
    omega
  · rfl

theorem noOperator_of_operator {t : Token} {j k : Nat} (hop : t.lexeme ∈ operatorsAt k)
    (hj : k < j) (r : List Token) : NoOperator j (t :: r) := by
  intro u hu
  cases hu
  exact binding?_of_lt hop hj

theorem noSuffix_of_operator {t : Token} {k : Nat} (hop : t.lexeme ∈ operatorsAt k)
    (r : List Token) : NoSuffix (t :: r) := by
  intro u hu
  cases hu
  exact ⟨isMark_of_operator hop (by decide), isMark_of_operator hop (by decide)⟩

/-- The tokens begin with a mark that ends an expression: a comma or something that closes. -/
def Ends (r : List Token) : Prop :=
  ∃ t rest, r = t :: rest ∧
    (t.IsPunctuation "," ∨ t.IsPunctuation ")" ∨ t.IsPunctuation "]")

theorem Ends.noOperator {r : List Token} (h : Ends r) (level : Nat) : NoOperator level r := by
  obtain ⟨t, rest, rfl, ht⟩ := h
  intro u hu
  cases hu
  rcases ht with ht | ht | ht <;> exact binding?_of_isPunctuation ht

theorem Ends.noSuffix {r : List Token} (h : Ends r) : NoSuffix r := by
  obtain ⟨t, rest, rfl, ht⟩ := h
  intro u hu
  cases hu
  rcases ht with ht | ht | ht <;> constructor <;> exact isMark_of_ne (by rw [ht.2]; decide)

/-! ### How phrases begin

The parser decides by the first token whether a list is empty, and by the first two whether an
argument has a label.
-/

/-- How the tokens of a phrase begin. -/
def Begins (ts : List Token) : Phrase π → Prop
  | .expr _ _ => ∃ t rest, ts = t :: rest ∧ t.Opens ∧
      (t.category = .name → ∀ c ∈ rest.head?, c.isMark (utf8 ":") = false)
  | .arguments _ => True
  | _ => ∃ t rest, ts = t :: rest ∧ t.Opens

/-- Tokens behind an expression leave its beginning as it is, if they do not begin with a colon. -/
theorem Begins.append {ts us : List Token} {j k : Nat} {e e' : Expr π} {c : Token}
    (h : Begins ts (.expr j e)) (hc : c.isMark (utf8 ":") = false) :
    Begins (ts ++ c :: us) (.expr k e') := by
  obtain ⟨t, rest, rfl, hopens, hcolon⟩ := h
  refine ⟨t, rest ++ c :: us, rfl, hopens, ?_⟩
  intro hname d hd
  cases rest with
  | nil => cases hd; exact hc
  | cons _ _ => exact hcolon hname d hd

theorem Begins.opens {ts us : List Token} {k : Nat} {e : Expr π} (h : Begins ts (.expr k e)) :
    ∃ t rest, ts ++ us = t :: rest ∧ t.Opens := by
  obtain ⟨t, rest, rfl, hopens, _⟩ := h
  exact ⟨t, rest ++ us, rfl, hopens⟩

theorem Derives.begins {ts : List Token} {p : Phrase π} (h : Derives input ts p) : Begins ts p := by
  induction h with
  | tighter _ _ _ ih => exact ih
  | assignment _ ht _ ihl _ =>
    exact ihl.append (isMark_of_ne (by rw [ht.2]; decide))
  | compound _ _ hop _ _ ihl _ => exact ihl.append (isMark_of_operator hop (by decide))
  | operation _ _ _ _ hop _ ihl _ => exact ihl.append (isMark_of_operator hop (by decide))
  | prefixed hcat hop _ _ =>
    refine ⟨_, _, rfl, Or.inr (Or.inr (Or.inr (Or.inr ⟨hcat, hop⟩))), ?_⟩
    intro hname
    rw [hcat] at hname
    exact absurd hname (by decide)
  | call _ ho _ _ ihf _ => exact ihf.append (isMark_of_ne (by rw [ho.2]; decide))
  | subscript _ ho _ _ ihe _ => exact ihe.append (isMark_of_ne (by rw [ho.2]; decide))
  | name h => exact ⟨_, [], rfl, Or.inl h, by simp⟩
  | number h => exact ⟨_, [], rfl, Or.inr (Or.inl h), by simp⟩
  | text h => exact ⟨_, [], rfl, Or.inr (Or.inr (Or.inl h)), by simp⟩
  | group ho _ _ _ =>
    refine ⟨_, _, rfl, Or.inr (Or.inr (Or.inr (Or.inl ho))), ?_⟩
    intro hname
    rw [ho.1] at hname
    exact absurd hname (by decide)
  | lastElement _ ih =>
    obtain ⟨t, rest, hts, hopens, _⟩ := ih
    exact ⟨t, rest, hts, hopens⟩
  | nextElement _ _ _ ih _ => exact ih.opens
  | unlabeled _ ih =>
    obtain ⟨t, rest, hts, hopens, _⟩ := ih
    exact ⟨t, rest, hts, hopens⟩
  | labeled ht _ _ _ => exact ⟨_, _, rfl, Or.inl ht⟩
  | lastArgument _ ih => exact ih
  | nextArgument _ _ _ ih _ =>
    obtain ⟨t, rest, rfl, hopens⟩ := ih
    exact ⟨t, _, rfl, hopens⟩
  | noArguments => trivial
  | someArguments _ _ => trivial

/-- An expression at the beginning of an argument is not taken for a label. -/
theorem label_of_begins {ts r : List Token} {k : Nat} {e : Expr π} (h : Begins ts (.expr k e))
    (hr : Ends r) : (label (ts ++ r)).1 = [] ∧ (label (ts ++ r)).2.1 = ts ++ r := by
  obtain ⟨t, rest, rfl, _, hcolon⟩ := h
  obtain ⟨u, r', rfl, hu⟩ := hr
  -- The token behind `t`, of the expression or of what follows it, is no colon.
  obtain ⟨c, rest', hrest, hc⟩ : ∃ c rest', rest ++ u :: r' = c :: rest' ∧
      (t.category = .name → c.isMark (utf8 ":") = false) := by
    cases rest with
    | nil =>
      refine ⟨u, r', rfl, fun _ => isMark_of_ne ?_⟩
      rcases hu with hu | hu | hu <;> rw [hu.2] <;> decide
    | cons c rest => exact ⟨c, rest ++ u :: r', rfl, fun hname => hcolon hname c rfl⟩
  rw [List.cons_append, hrest]
  by_cases hname : t.category = .name
  · simp [label, hname, hc hname]
  · simp [label, hname]

/-! ### What the parser makes of a derivation -/

/-- What the parser makes of the tokens of a tree at a level, whatever stands behind them. -/
structure Reads (input : Bytes) (ts : List Token) (k : Nat) (e : Expr π) : Prop where
  whole : k = 1 → ∀ r, NoSuffix r → NoOperator 1 r →
    outcome (expression input 1 (ts ++ r)) = .ok (e, r)
  chain : 2 ≤ k → k ≤ 7 → ∀ j r, j ≤ k → NoSuffix r → NoOperator (k + 1) r →
    outcome (expression input j (ts ++ r)) = outcome (climb input j e r)
  signed : k = 7 → ∀ r, NoSuffix r → outcome (operand input (ts ++ r)) = .ok (e, r)
  called : k = 8 → ∀ r, outcome (operand input (ts ++ r)) = outcome (suffixes input e r)
  closed : k = 9 → ∃ t rest, ts = t :: rest ∧
    (t.category == .operator && isPrefixOperator t.lexeme) = false ∧
    ∀ r, outcome (primary input t (rest ++ r)) = .ok (e, r)

/-- What the parser makes of the tokens of a phrase. -/
def Accepted (input : Bytes) (ts : List Token) : Phrase π → Prop
  | .expr k e => Reads input ts k e
  | .elements es => ∀ c r, c.IsPunctuation ")" →
      outcome (elements input (ts ++ c :: r)) = .ok (es, c :: r)
  | .argument a => ∀ r, Ends r → (label (ts ++ r)).1 = a.1 ∧
      outcome (expression input 1 (label (ts ++ r)).2.1) = .ok (a.2, r)
  | .argumentList args => ∀ c r, c.IsPunctuation ")" →
      outcome (argumentList input (ts ++ c :: r)) = .ok (args, c :: r)
  | .arguments args => ∀ c r, c.IsPunctuation ")" →
      outcome (arguments input (ts ++ c :: r)) = .ok ((args, c.span), r)

/-- A tree at level 7 read to its end is where the loop begins. -/
theorem chain_of_operand {ts : List Token} {e : Expr π}
    (h : ∀ r, NoSuffix r → outcome (operand input (ts ++ r)) = .ok (e, r)) (j : Nat)
    (r : List Token) (hr : NoSuffix r) :
    outcome (expression input j (ts ++ r)) = outcome (climb input j e r) := by
  rw [outcome_expression, h r hr, ok_bind]

theorem Reads.level1 {ts : List Token} {e : Expr π}
    (h : ∀ r, NoSuffix r → NoOperator 1 r → outcome (expression input 1 (ts ++ r)) = .ok (e, r)) :
    Reads input ts 1 e :=
  ⟨fun _ => h, by omega, by omega, by omega, by omega⟩

theorem Reads.level7 {ts : List Token} {e : Expr π}
    (h : ∀ r, NoSuffix r → outcome (operand input (ts ++ r)) = .ok (e, r)) :
    Reads input ts 7 e :=
  ⟨by omega, fun _ _ j r _ hr _ => chain_of_operand h j r hr, fun _ => h, by omega, by omega⟩

theorem Reads.level8 {ts : List Token} {e : Expr π}
    (h : ∀ r, outcome (operand input (ts ++ r)) = outcome (suffixes input e r)) :
    Reads input ts 8 e :=
  ⟨by omega, by omega, by omega, fun _ => h, by omega⟩

theorem Reads.level9 {t : Token} {ts : List Token} {e : Expr π}
    (ht : (t.category == .operator && isPrefixOperator t.lexeme) = false)
    (h : ∀ r, outcome (primary input t (ts ++ r)) = .ok (e, r)) :
    Reads input (t :: ts) 9 e :=
  ⟨by omega, by omega, by omega, by omega, fun _ => ⟨t, ts, rfl, ht, h⟩⟩

/-- A tree of a level is a tree of every looser level. -/
theorem Reads.tighter {k : Nat} {ts : List Token} {e : Expr π} (hlo : 1 ≤ k) (hhi : k ≤ 8)
    (h : Reads input ts (k + 1) e) : Reads input ts k e := by
  rcases (by omega : k = 1 ∨ (2 ≤ k ∧ k ≤ 6) ∨ k = 7 ∨ k = 8) with rfl | ⟨h2, h6⟩ | rfl | rfl
  · refine Reads.level1 fun r hr hop => ?_
    rw [h.chain (by omega) (by omega) 1 r (by omega) hr (hop.mono (by omega))]
    exact climb_stops hop e
  · refine ⟨by omega, fun _ _ j r hj hr hop => ?_, by omega, by omega, by omega⟩
    exact h.chain (by omega) (by omega) j r (by omega) hr (hop.mono (by omega))
  · refine Reads.level7 fun r hr => ?_
    rw [h.called rfl r]
    exact suffixes_stop hr e
  · obtain ⟨t, rest, rfl, ht, hprimary⟩ := h.closed rfl
    refine Reads.level8 fun r => ?_
    rw [List.cons_append, outcome_operand_cons, ht, hprimary]
    rfl

/-- An operator of level 1 with its operands: the right one is read at the same level. -/
theorem Reads.rightOperation {ts us : List Token} {l r : Expr π} {t : Token}
    (hl : Reads input ts 2 l) (hcat : t.category = .operator) (hop : t.lexeme ∈ operatorsAt 1)
    (hr : Reads input us 1 r) : Reads input (ts ++ t :: us) 1 (combine t.lexeme l r) := by
  refine Reads.level1 fun rest hsuffix hnone => ?_
  have hleft : outcome (expression input 1 (ts ++ (t :: (us ++ rest))))
      = outcome (climb input 1 l (t :: (us ++ rest))) :=
    hl.chain (by omega) (by omega) 1 _ (by omega) (noSuffix_of_operator hop _)
      (noOperator_of_operator hop (by omega) _)
  rw [List.append_assoc, List.cons_append, hleft, outcome_climb_cons,
    binding?_of_mem hcat hop (Nat.le_refl 1)]
  show outcome (expression input 1 (us ++ rest)) >>= _ = _
  rw [hr.whole rfl rest hsuffix hnone, ok_bind]
  exact climb_stops hnone _

/-- An operator of a level from 2 on with its operands: the loop goes on with both of them on its
left. -/
theorem Reads.leftOperation {k : Nat} {ts us : List Token} {l r : Expr π} {t : Token}
    (hlo : 2 ≤ k) (hhi : k ≤ 6) (hl : Reads input ts k l) (hcat : t.category = .operator)
    (hop : t.lexeme ∈ operatorsAt k) (hr : Reads input us (k + 1) r) :
    Reads input (ts ++ t :: us) k (combine t.lexeme l r) := by
  refine ⟨by omega, fun _ _ j rest hj hsuffix hnone => ?_, by omega, by omega, by omega⟩
  have hleft : outcome (expression input j (ts ++ (t :: (us ++ rest))))
      = outcome (climb input j l (t :: (us ++ rest))) :=
    hl.chain hlo (by omega) j _ hj (noSuffix_of_operator hop _)
      (noOperator_of_operator hop (by omega) _)
  have hright : outcome (expression input (k + 1) (us ++ rest)) = .ok (r, rest) := by
    rw [hr.chain (by omega) (by omega) (k + 1) rest (Nat.le_refl _) hsuffix
      (hnone.mono (by omega))]
    exact climb_stops hnone r
  rw [List.append_assoc, List.cons_append, hleft, outcome_climb_cons, binding?_of_mem hcat hop hj,
    if_neg (by omega)]
  show outcome (expression input (k + 1) (us ++ rest)) >>= _ = _
  rw [hright, ok_bind]

theorem Reads.sign {ts : List Token} {x : Expr π} {t : Token} (hcat : t.category = .operator)
    (hop : t.lexeme ∈ signs) (hx : Reads input ts 7 x) :
    Reads input (t :: ts) 7 (.prefixed t.lexeme x (t.span.extend x.span)) := by
  refine Reads.level7 fun r hr => ?_
  have hsign : (t.category == .operator && isPrefixOperator t.lexeme) = true := by
    rw [hcat, Bool.and_eq_true]
    exact ⟨rfl, List.elem_iff.mpr hop⟩
  rw [List.cons_append, outcome_operand_cons, if_pos hsign, hx.signed rfl r hr, ok_bind]

theorem Reads.call {ts us : List Token} {f : Expr π} {args : List (Bytes × Expr π)} {o c : Token}
    (hf : Reads input ts 8 f) (ho : o.IsPunctuation "(")
    (hargs : Accepted input us (.arguments args)) (hc : c.IsPunctuation ")") :
    Reads input (ts ++ o :: (us ++ [c])) 8 (.call f args (f.span.extend c.span)) := by
  refine Reads.level8 fun r => ?_
  rw [List.append_assoc, hf.called rfl, List.cons_append, outcome_suffixes_cons,
    isMark_of_isPunctuation ho, if_pos rfl, List.append_assoc]
  show outcome (arguments input (us ++ c :: r)) >>= _ = _
  rw [hargs c r hc, ok_bind]

theorem Reads.subscript {ts us : List Token} {e i : Expr π} {o c : Token}
    (he : Reads input ts 8 e) (ho : o.IsPunctuation "[") (hi : Reads input us 1 i)
    (hc : c.IsPunctuation "]") :
    Reads input (ts ++ o :: (us ++ [c])) 8
      (.foreign (π := π) (input.slice (e.span.extend c.span).lo (e.span.extend c.span).hi) none
        (e.span.extend c.span)) := by
  refine Reads.level8 fun r => ?_
  have hends : Ends (c :: r) := ⟨c, r, rfl, Or.inr (Or.inr hc)⟩
  have hparen : o.isMark (utf8 "(") = false := isMark_of_ne (by rw [ho.2]; decide)
  rw [List.append_assoc, he.called rfl, List.cons_append, outcome_suffixes_cons, hparen,
    isMark_of_isPunctuation ho, if_neg Bool.false_ne_true, if_pos rfl, List.append_assoc]
  show outcome (expression input 1 (us ++ c :: r)) >>= _ = _
  rw [hi.whole rfl _ hends.noSuffix (hends.noOperator 1), ok_bind, outcome_expect,
    isMark_of_isPunctuation hc, if_pos rfl, ok_bind]

theorem Reads.group {ts : List Token} {es : List (Expr π)} {o c : Token}
    (ho : o.IsPunctuation "(") (hts : ∃ t rest, ts = t :: rest ∧ t.Opens)
    (hes : Accepted input ts (.elements es)) (hc : c.IsPunctuation ")") :
    Reads input (o :: (ts ++ [c])) 9 (.group es (o.span.extend c.span)) := by
  refine Reads.level9 (by rw [ho.1]; rfl) fun r => ?_
  have hfull : (current input (ts ++ c :: r)).isMark (utf8 ")") = false := by
    obtain ⟨t, rest, rfl, hopens⟩ := hts
    exact isMark_close_of_opens hopens
  rw [List.append_assoc, List.cons_append, List.nil_append, outcome_primary, ho.1]
  show (if _ then _ else _) = _
  rw [if_pos ho.2, hfull, if_neg Bool.false_ne_true, hes c r hc, ok_bind, outcome_expect,
    isMark_of_isPunctuation hc, if_pos rfl, ok_bind]

/-- **The parser finds every derivation.** -/
theorem Derives.accepted {ts : List Token} {p : Phrase π} (h : Derives input ts p) :
    Accepted input ts p := by
  induction h with
  | tighter hlo hhi _ ih => exact Reads.tighter hlo hhi ih
  | assignment _ ht _ ihl ihr =>
    have hop := Reads.rightOperation ihl ht.1 (by rw [ht.2]; decide) ihr
    rwa [combine, if_pos ht.2] at hop
  | compound _ hcat hop hne _ ihl ihr =>
    have hop := Reads.rightOperation ihl hcat hop ihr
    rwa [combine, if_neg hne] at hop
  | operation hlo hhi _ hcat hop _ ihl ihr =>
    have hne := ne_equals_of_mem hlo hop
    have hop := Reads.leftOperation hlo hhi ihl hcat hop ihr
    rwa [combine, if_neg hne] at hop
  | prefixed hcat hop _ ihx => exact Reads.sign hcat hop ihx
  | call _ ho _ hc ihf ihargs => exact Reads.call ihf ho ihargs hc
  | subscript _ ho _ hc ihe ihi => exact Reads.subscript ihe ho ihi hc
  | name h => exact Reads.level9 (by rw [h]; rfl) fun r => by rw [outcome_primary, h]; rfl
  | number h => exact Reads.level9 (by rw [h]; rfl) fun r => by rw [outcome_primary, h]; rfl
  | text h => exact Reads.level9 (by rw [h]; rfl) fun r => by rw [outcome_primary, h]; rfl
  | group ho hes hc ihes => exact Reads.group ho hes.begins ihes hc
  | lastElement _ ih =>
    intro c r hc
    have hends : Ends (c :: r) := ⟨c, r, rfl, Or.inr (Or.inl hc)⟩
    have hcomma : c.isMark (utf8 ",") = false := isMark_of_ne (by rw [hc.2]; decide)
    rw [outcome_elements, ih.whole rfl _ hends.noSuffix (hends.noOperator 1), ok_bind]
    show (if _ then _ else _) = _
    rw [hcomma, if_neg Bool.false_ne_true]
  | @nextElement ts us e es t _ ht _ ihe ihes =>
    intro c r hc
    have hends : Ends (t :: (us ++ c :: r)) := ⟨t, _, rfl, Or.inl ht⟩
    rw [List.append_assoc, List.cons_append, outcome_elements,
      ihe.whole rfl _ hends.noSuffix (hends.noOperator 1), ok_bind]
    show (if _ then _ else _) = _
    rw [isMark_of_isPunctuation ht, if_pos rfl, ihes c r hc, ok_bind]
  | unlabeled he ih =>
    intro r hr
    obtain ⟨hlabel, hbehind⟩ := label_of_begins he.begins hr
    rw [hbehind]
    exact ⟨hlabel, ih.whole rfl r hr.noSuffix (hr.noOperator 1)⟩
  | @labeled ts e t c ht hc _ ih =>
    intro r hr
    have hlabel : label (t :: c :: (ts ++ r)) = (t.lexeme, ⟨ts ++ r, Nat.le_add_right _ 2⟩) := by
      simp [label, ht, isMark_of_isPunctuation hc]
    rw [List.cons_append, List.cons_append, hlabel]
    exact ⟨rfl, ih.whole rfl r hr.noSuffix (hr.noOperator 1)⟩
  | lastArgument _ ih =>
    intro c r hc
    obtain ⟨hlabel, hvalue⟩ := ih (c :: r) ⟨c, r, rfl, Or.inr (Or.inl hc)⟩
    have hcomma : c.isMark (utf8 ",") = false := isMark_of_ne (by rw [hc.2]; decide)
    rw [outcome_argumentList, hvalue, ok_bind]
    show (if _ then _ else _) = _
    rw [hcomma, if_neg Bool.false_ne_true, hlabel]
  | @nextArgument ts us a args t _ ht _ iha ihargs =>
    intro c r hc
    obtain ⟨hlabel, hvalue⟩ := iha (t :: (us ++ c :: r)) ⟨t, _, rfl, Or.inl ht⟩
    rw [List.append_assoc, List.cons_append, outcome_argumentList, hvalue, ok_bind]
    show (if _ then _ else _) = _
    rw [isMark_of_isPunctuation ht, if_pos rfl, ihargs c r hc, ok_bind, hlabel]
  | noArguments =>
    intro c r hc
    rw [List.nil_append, outcome_arguments_cons, isMark_of_isPunctuation hc, if_pos rfl]
  | someArguments hargs ih =>
    intro c r hc
    obtain ⟨t, rest, rfl, hopens⟩ := hargs.begins
    have hlist := ih c r hc
    rw [List.cons_append] at hlist ⊢
    rw [outcome_arguments_cons, isMark_close_of_opens hopens, if_neg Bool.false_ne_true, hlist,
      ok_bind, outcome_expect, isMark_of_isPunctuation hc, if_pos rfl, ok_bind]

end Grammar
end RelaxArith
