/-
The grammar of expression text.

The parser climbs precedences in a loop.  What it is meant to accept is said here without a
parser, as a grammar with one symbol for each level of precedence:

    E1  ::=  E2  |  E2 aop E1                    aop: =  +=  -=  *=  /=  %=
    Ek  ::=  E(k+1)  |  Ek op E(k+1)             for k = 2 … 6
    E7  ::=  ( '-' | '+' | '!' ) E7  |  E8
    E8  ::=  E9  |  E8 '(' Args ')'  |  E8 '[' E1 ']'
    E9  ::=  name  |  number  |  text  |  '(' E1 { ',' E1 } ')'
    Args  ::=  empty  |  Arg { ',' Arg }
    Arg   ::=  E1  |  name ':' E1

A derivation says which tree a row of tokens stands for.  Spans are put together from those of
the tokens, and the text of a subscript is cut out of the input, which is why a derivation knows
the input.
-/
import RelaxArith.Expr.Precedence
import RelaxArith.Expr.Reader

namespace RelaxArith

/-- A token that is a given operator. -/
def Token.IsOperator (t : Token) (symbol : String) : Prop :=
  t.category = .operator ∧ t.lexeme = utf8 symbol

/-- A token that is a given punctuation mark. -/
def Token.IsPunctuation (t : Token) (mark : String) : Prop :=
  t.category = .punctuation ∧ t.lexeme = utf8 mark

namespace Grammar

/-- The operators between operands, level by level. -/
def operatorsAt : Nat → List Bytes
  | 1 => [utf8 "=", utf8 "+=", utf8 "-=", utf8 "*=", utf8 "/=", utf8 "%="]
  | 2 => [utf8 "||"]
  | 3 => [utf8 "&&"]
  | 4 => [utf8 "==", utf8 "!=", utf8 "<", utf8 ">", utf8 "<=", utf8 ">="]
  | 5 => [utf8 "+", utf8 "-"]
  | 6 => [utf8 "*", utf8 "/", utf8 "%"]
  | _ => []

/-- The operators in front of an operand. -/
def signs : List Bytes := [utf8 "-", utf8 "+", utf8 "!"]

/-- What a row of tokens may stand for. -/
inductive Phrase (π : Type) where
  /-- A tree, as the grammar's symbol of a level. -/
  | expr (level : Nat) (e : Expr π)
  /-- One or more trees with commas between them. -/
  | elements (es : List (Expr π))
  /-- One argument of a call. -/
  | argument (arg : Bytes × Expr π)
  /-- One or more arguments with commas between them. -/
  | argumentList (args : List (Bytes × Expr π))
  /-- What stands between the parentheses of a call. -/
  | arguments (args : List (Bytes × Expr π))

/-- The rules of the grammar, for tokens that were read from an input. -/
inductive Derives {π : Type} (input : Bytes) : List Token → Phrase π → Prop
  | tighter {k : Nat} {ts : List Token} {e : Expr π} (hlo : 1 ≤ k) (hhi : k ≤ 8)
      (h : Derives input ts (.expr (k + 1) e)) : Derives input ts (.expr k e)
  | assignment {ts us : List Token} {l r : Expr π} {t : Token}
      (hl : Derives input ts (.expr 2 l)) (ht : t.IsOperator "=")
      (hr : Derives input us (.expr 1 r)) :
      Derives input (ts ++ t :: us) (.expr 1 (.assign l r (l.span.extend r.span)))
  | compound {ts us : List Token} {l r : Expr π} {t : Token}
      (hl : Derives input ts (.expr 2 l)) (hcat : t.category = .operator)
      (hop : t.lexeme ∈ operatorsAt 1) (hne : t.lexeme ≠ utf8 "=")
      (hr : Derives input us (.expr 1 r)) :
      Derives input (ts ++ t :: us) (.expr 1 (.binary t.lexeme l r (l.span.extend r.span)))
  | operation {k : Nat} {ts us : List Token} {l r : Expr π} {t : Token}
      (hlo : 2 ≤ k) (hhi : k ≤ 6) (hl : Derives input ts (.expr k l))
      (hcat : t.category = .operator) (hop : t.lexeme ∈ operatorsAt k)
      (hr : Derives input us (.expr (k + 1) r)) :
      Derives input (ts ++ t :: us) (.expr k (.binary t.lexeme l r (l.span.extend r.span)))
  | prefixed {ts : List Token} {x : Expr π} {t : Token}
      (hcat : t.category = .operator) (hop : t.lexeme ∈ signs)
      (hx : Derives input ts (.expr 7 x)) :
      Derives input (t :: ts) (.expr 7 (.prefixed t.lexeme x (t.span.extend x.span)))
  | call {ts us : List Token} {f : Expr π} {args : List (Bytes × Expr π)} {o c : Token}
      (hf : Derives input ts (.expr 8 f)) (ho : o.IsPunctuation "(")
      (hargs : Derives input us (.arguments args)) (hc : c.IsPunctuation ")") :
      Derives input (ts ++ o :: (us ++ [c])) (.expr 8 (.call f args (f.span.extend c.span)))
  | subscript {ts us : List Token} {e i : Expr π} {o c : Token}
      (he : Derives input ts (.expr 8 e)) (ho : o.IsPunctuation "[")
      (hi : Derives input us (.expr 1 i)) (hc : c.IsPunctuation "]") :
      Derives input (ts ++ o :: (us ++ [c]))
        (.expr 8 (.foreign (input.slice (e.span.extend c.span).lo (e.span.extend c.span).hi) none
          (e.span.extend c.span)))
  | name {t : Token} (h : t.category = .name) :
      Derives input [t] (.expr 9 (.ident t.lexeme t.span))
  | number {t : Token} (h : t.category = .number) :
      Derives input [t] (.expr 9 (.literal .number t.lexeme t.span))
  | text {t : Token} (h : t.category = .text) :
      Derives input [t] (.expr 9 (.literal .text t.lexeme t.span))
  | group {ts : List Token} {es : List (Expr π)} {o c : Token}
      (ho : o.IsPunctuation "(") (hes : Derives input ts (.elements es))
      (hc : c.IsPunctuation ")") :
      Derives input (o :: (ts ++ [c])) (.expr 9 (.group es (o.span.extend c.span)))
  | lastElement {ts : List Token} {e : Expr π} (he : Derives input ts (.expr 1 e)) :
      Derives input ts (.elements [e])
  | nextElement {ts us : List Token} {e : Expr π} {es : List (Expr π)} {t : Token}
      (he : Derives input ts (.expr 1 e)) (ht : t.IsPunctuation ",")
      (hes : Derives input us (.elements es)) :
      Derives input (ts ++ t :: us) (.elements (e :: es))
  | unlabeled {ts : List Token} {e : Expr π} (he : Derives input ts (.expr 1 e)) :
      Derives input ts (.argument ([], e))
  | labeled {ts : List Token} {e : Expr π} {t c : Token} (ht : t.category = .name)
      (hc : c.IsPunctuation ":") (he : Derives input ts (.expr 1 e)) :
      Derives input (t :: c :: ts) (.argument (t.lexeme, e))
  | lastArgument {ts : List Token} {a : Bytes × Expr π} (ha : Derives input ts (.argument a)) :
      Derives input ts (.argumentList [a])
  | nextArgument {ts us : List Token} {a : Bytes × Expr π} {args : List (Bytes × Expr π)}
      {t : Token} (ha : Derives input ts (.argument a)) (ht : t.IsPunctuation ",")
      (hargs : Derives input us (.argumentList args)) :
      Derives input (ts ++ t :: us) (.argumentList (a :: args))
  | noArguments : Derives input [] (.arguments [])
  | someArguments {ts : List Token} {args : List (Bytes × Expr π)}
      (hargs : Derives input ts (.argumentList args)) : Derives input ts (.arguments args)

/-! ### Levels and bindings

The parser looks a symbol up in one table; the grammar has a list of symbols for each level.
-/

theorem level_of_mem {k : Nat} {op : Bytes} (h : op ∈ operatorsAt k) : 1 ≤ k ∧ k ≤ 6 := by
  match k with
  | 0 => simp [operatorsAt] at h
  | 1 | 2 | 3 | 4 | 5 | 6 => decide
  | k + 7 => simp [operatorsAt] at h

theorem binding_of_mem {k : Nat} {op : Bytes} (h : op ∈ operatorsAt k) :
    Binding.of? op = some ⟨k, if k = 1 then .right else .left⟩ := by
  have hall : ∀ k ∈ List.range 7, ∀ op ∈ operatorsAt k,
      Binding.of? op = some ⟨k, if k = 1 then .right else .left⟩ := by decide
  obtain ⟨_, hk⟩ := level_of_mem h
  exact hall k (List.mem_range.mpr (by omega)) op h

theorem mem_of_binding {op : Bytes} {b : Binding} (h : Binding.of? op = some b) :
    op ∈ operatorsAt b.precedence ∧ b.grouping = if b.precedence = 1 then .right else .left := by
  have hall : ∀ x ∈ Binding.table, x.1 ∈ operatorsAt x.2.precedence ∧
      x.2.grouping = if x.2.precedence = 1 then .right else .left := by decide
  obtain ⟨before, behind, htable, _⟩ := List.lookup_eq_some_iff.mp h
  have hmem : (op, b) ∈ Binding.table := by rw [htable]; simp
  exact hall (op, b) hmem

/-- The level of the left operand of an operator of a level. -/
def levelBefore (k : Nat) : Nat := if k = 1 then 2 else k

/-- The level of the right operand of an operator of a level. -/
def levelAfter (k : Nat) : Nat := if k = 1 then 1 else k + 1

theorem leftLevel_of_binding {op : Bytes} {b : Binding} (h : Binding.of? op = some b) :
    b.leftLevel = levelBefore b.precedence := by
  obtain ⟨_, hgrouping⟩ := mem_of_binding h
  rw [Binding.leftLevel, hgrouping, levelBefore]
  by_cases hk : b.precedence = 1
  · simp [hk]
  · simp [hk]

theorem rightLevel_of_binding {op : Bytes} {b : Binding} (h : Binding.of? op = some b) :
    b.rightLevel = levelAfter b.precedence := by
  obtain ⟨_, hgrouping⟩ := mem_of_binding h
  rw [Binding.rightLevel, hgrouping, levelAfter]
  by_cases hk : b.precedence = 1
  · simp [hk]
  · simp [hk]

theorem levelBefore_bounds {k : Nat} (hlo : 1 ≤ k) (hhi : k ≤ 6) :
    1 ≤ levelBefore k ∧ levelBefore k ≤ 7 := by
  unfold levelBefore
  by_cases hk : k = 1
  · rw [if_pos hk]; decide
  · rw [if_neg hk]; omega

theorem levelAfter_bounds {k : Nat} (hlo : 1 ≤ k) (hhi : k ≤ 6) :
    1 ≤ levelAfter k ∧ levelAfter k ≤ 7 := by
  unfold levelAfter
  by_cases hk : k = 1
  · rw [if_pos hk]; decide
  · rw [if_neg hk]; omega

/-- The equals sign is at level 1 and at no other. -/
theorem ne_equals_of_mem {k : Nat} {op : Bytes} (hk : 2 ≤ k) (h : op ∈ operatorsAt k) :
    op ≠ utf8 "=" := by
  rintro rfl
  have hequals : Binding.of? (utf8 "=") = some ⟨1, .right⟩ := rfl
  rw [binding_of_mem h] at hequals
  have hlevel : k = 1 := congrArg Binding.precedence (Option.some.inj hequals)
  omega

theorem isPrefixOperator_iff {op : Bytes} : isPrefixOperator op = true ↔ op ∈ signs := by
  simp [isPrefixOperator, signs]

/-- The punctuation marks. No operator is spelled like one of them. -/
def marks : List Bytes := [utf8 "(", utf8 ")", utf8 "[", utf8 "]", utf8 ",", utf8 ":"]

theorem not_mark_of_mem {k : Nat} {op : Bytes} (h : op ∈ operatorsAt k) : op ∉ marks := by
  have hall : ∀ k ∈ List.range 7, ∀ op ∈ operatorsAt k, op ∉ marks := by decide
  obtain ⟨_, hk⟩ := level_of_mem h
  exact hall k (List.mem_range.mpr (by omega)) op h

end Grammar
end RelaxArith
