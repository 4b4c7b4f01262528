/-
The grammar up to erasing.

The same text at two places has trees that differ in their spans.  What stays the same is the
phrase without spans and payloads, so this file restates the grammar for erased phrases: every
rule that builds a phrase from parts also builds the erased phrase from the erased parts.  The
rule of subscripts is the exception, since it looks at spans.
-/
import RelaxArith.Proofs.Erasure
import RelaxArith.Proofs.Parser.Sound

namespace RelaxArith.Grammar

variable {π : Type} {input : Bytes}

/-- What is left of a phrase without spans, payloads and stubs. -/
def Phrase.erase : Phrase π → Phrase Empty
  | .expr k e => .expr k e.erase
  | .elements es => .elements (Expr.eraseAll es)
  | .argument a => .argument (a.1, a.2.erase)
  | .argumentList args => .argumentList (Expr.eraseArgs args)
  | .arguments args => .arguments (Expr.eraseArgs args)

/-- A row of tokens that is, in an input, a phrase up to erasing. -/
def IsPhrase (π : Type) (p : Phrase Empty) (input : Bytes) (ts : List Token) : Prop :=
  ∃ p' : Phrase π, Derives input ts p' ∧ p'.erase = p

theorem Derives.isPhrase {ts : List Token} {p : Phrase π} (h : Derives input ts p) :
    IsPhrase π p.erase input ts :=
  ⟨p, h, rfl⟩

/-- The erased node of a binary operator. -/
def operationNode (op : Bytes) (l r : Expr Empty) : Expr Empty :=
  if op = utf8 "=" then .assign l r .null else .binary op l r .null

theorem erase_combine (op : Bytes) (l r : Expr π) :
    (Parse.combine op l r).erase = operationNode op l.erase r.erase := by
  unfold Parse.combine operationNode
  by_cases hop : op = utf8 "="
  · rw [if_pos hop, if_pos hop, Expr.erase]
  · rw [if_neg hop, if_neg hop, Expr.erase]

namespace IsPhrase

variable {ts us : List Token} {t o c : Token} {j k : Nat} {e x y : Expr Empty}
  {es : List (Expr Empty)} {label : Bytes} {args : List (Bytes × Expr Empty)}

/-! ### The tree behind an erased phrase -/

theorem expr (h : IsPhrase π (.expr k e) input ts) :
    ∃ e' : Expr π, Derives input ts (.expr k e') ∧ e'.erase = e := by
  obtain ⟨p, hderives, herase⟩ := h
  cases p <;> cases herase
  exact ⟨_, hderives, rfl⟩

theorem elements (h : IsPhrase π (.elements es) input ts) :
    ∃ es' : List (Expr π), Derives input ts (.elements es') ∧ Expr.eraseAll es' = es := by
  obtain ⟨p, hderives, herase⟩ := h
  cases p <;> cases herase
  exact ⟨_, hderives, rfl⟩

theorem argument (h : IsPhrase π (.argument (label, e)) input ts) :
    ∃ e' : Expr π, Derives input ts (.argument (label, e')) ∧ e'.erase = e := by
  obtain ⟨p, hderives, herase⟩ := h
  cases p <;> cases herase
  exact ⟨_, hderives, rfl⟩

theorem argumentList (h : IsPhrase π (.argumentList args) input ts) :
    ∃ args' : List (Bytes × Expr π), Derives input ts (.argumentList args') ∧
      Expr.eraseArgs args' = args := by
  obtain ⟨p, hderives, herase⟩ := h
  cases p <;> cases herase
  exact ⟨_, hderives, rfl⟩

theorem arguments (h : IsPhrase π (.arguments args) input ts) :
    ∃ args' : List (Bytes × Expr π), Derives input ts (.arguments args') ∧
      Expr.eraseArgs args' = args := by
  obtain ⟨p, hderives, herase⟩ := h
  cases p <;> cases herase
  exact ⟨_, hderives, rfl⟩

/-! ### The rules -/

theorem loosen (h : IsPhrase π (.expr k e) input ts) (hj : 1 ≤ j) (hjk : j ≤ k) (hk : k ≤ 9) :
    IsPhrase π (.expr j e) input ts := by
  obtain ⟨e', hderives, rfl⟩ := h.expr
  exact (hderives.loosen hj hjk hk).isPhrase

theorem assignment (hl : IsPhrase π (.expr 2 x) input ts) (ht : t.IsOperator "=")
    (hr : IsPhrase π (.expr 1 y) input us) :
    IsPhrase π (.expr 1 (.assign x y .null)) input (ts ++ t :: us) := by
  obtain ⟨l', hl', rfl⟩ := hl.expr
  obtain ⟨r', hr', rfl⟩ := hr.expr
  exact (Derives.assignment hl' ht hr').isPhrase

theorem compound (hl : IsPhrase π (.expr 2 x) input ts) (hcat : t.category = .operator)
    (hop : t.lexeme ∈ operatorsAt 1) (hne : t.lexeme ≠ utf8 "=")
    (hr : IsPhrase π (.expr 1 y) input us) :
    IsPhrase π (.expr 1 (.binary t.lexeme x y .null)) input (ts ++ t :: us) := by
  obtain ⟨l', hl', rfl⟩ := hl.expr
  obtain ⟨r', hr', rfl⟩ := hr.expr
  exact (Derives.compound hl' hcat hop hne hr').isPhrase

theorem operation (hlo : 2 ≤ k) (hhi : k ≤ 6) (hl : IsPhrase π (.expr k x) input ts)
    (hcat : t.category = .operator) (hop : t.lexeme ∈ operatorsAt k)
    (hr : IsPhrase π (.expr (k + 1) y) input us) :
    IsPhrase π (.expr k (.binary t.lexeme x y .null)) input (ts ++ t :: us) := by
  obtain ⟨l', hl', rfl⟩ := hl.expr
  obtain ⟨r', hr', rfl⟩ := hr.expr
  exact (Derives.operation hlo hhi hl' hcat hop hr').isPhrase

/-- The three rules of binary operators in one. -/
theorem combine (hcat : t.category = .operator) (hop : t.lexeme ∈ operatorsAt k)
    (hl : IsPhrase π (.expr (levelBefore k) x) input ts)
    (hr : IsPhrase π (.expr (levelAfter k) y) input us) :
    IsPhrase π (.expr k (operationNode t.lexeme x y)) input (ts ++ t :: us) := by
  obtain ⟨l', hl', rfl⟩ := hl.expr
  obtain ⟨r', hr', rfl⟩ := hr.expr
  refine ⟨_, hl'.combine hcat hop hr', ?_⟩
  rw [Phrase.erase, erase_combine]

theorem prefixed (hcat : t.category = .operator) (hop : t.lexeme ∈ signs)
    (hx : IsPhrase π (.expr 7 x) input ts) :
    IsPhrase π (.expr 7 (.prefixed t.lexeme x .null)) input (t :: ts) := by
  obtain ⟨x', hx', rfl⟩ := hx.expr
  exact (Derives.prefixed hcat hop hx').isPhrase

theorem call (hf : IsPhrase π (.expr 8 x) input ts) (ho : o.IsPunctuation "(")
    (hargs : IsPhrase π (.arguments args) input us) (hc : c.IsPunctuation ")") :
    IsPhrase π (.expr 8 (.call x args .null)) input (ts ++ o :: (us ++ [c])) := by
  obtain ⟨f', hf', rfl⟩ := hf.expr
  obtain ⟨args', hargs', rfl⟩ := hargs.arguments
  exact (Derives.call hf' ho hargs' hc).isPhrase

theorem name (h : t.category = .name) :
    IsPhrase π (.expr 9 (.ident t.lexeme .null)) input [t] :=
  (Derives.name h).isPhrase

theorem number (h : t.category = .number) :
    IsPhrase π (.expr 9 (.literal .number t.lexeme .null)) input [t] :=
  (Derives.number h).isPhrase

theorem text (h : t.category = .text) :
    IsPhrase π (.expr 9 (.literal .text t.lexeme .null)) input [t] :=
  (Derives.text h).isPhrase

theorem group (ho : o.IsPunctuation "(") (hes : IsPhrase π (.elements es) input ts)
    (hc : c.IsPunctuation ")") :
    IsPhrase π (.expr 9 (.group es .null)) input (o :: (ts ++ [c])) := by
  obtain ⟨es', hes', rfl⟩ := hes.elements
  exact (Derives.group ho hes' hc).isPhrase

theorem lastElement (he : IsPhrase π (.expr 1 e) input ts) :
    IsPhrase π (.elements [e]) input ts := by
  obtain ⟨e', he', rfl⟩ := he.expr
  exact (Derives.lastElement he').isPhrase

theorem nextElement (he : IsPhrase π (.expr 1 e) input ts) (ht : t.IsPunctuation ",")
    (hes : IsPhrase π (.elements es) input us) :
    IsPhrase π (.elements (e :: es)) input (ts ++ t :: us) := by
  obtain ⟨e', he', rfl⟩ := he.expr
  obtain ⟨es', hes', rfl⟩ := hes.elements
  exact (Derives.nextElement he' ht hes').isPhrase

theorem unlabeled (he : IsPhrase π (.expr 1 e) input ts) :
    IsPhrase π (.argument ([], e)) input ts := by
  obtain ⟨e', he', rfl⟩ := he.expr
  exact (Derives.unlabeled he').isPhrase

theorem labeled (ht : t.category = .name) (hc : c.IsPunctuation ":")
    (he : IsPhrase π (.expr 1 e) input ts) :
    IsPhrase π (.argument (t.lexeme, e)) input (t :: c :: ts) := by
  obtain ⟨e', he', rfl⟩ := he.expr
  exact (Derives.labeled ht hc he').isPhrase

theorem lastArgument (ha : IsPhrase π (.argument (label, e)) input ts) :
    IsPhrase π (.argumentList [(label, e)]) input ts := by
  obtain ⟨e', ha', rfl⟩ := ha.argument
  exact (Derives.lastArgument ha').isPhrase

theorem nextArgument (ha : IsPhrase π (.argument (label, e)) input ts) (ht : t.IsPunctuation ",")
    (hargs : IsPhrase π (.argumentList args) input us) :
    IsPhrase π (.argumentList ((label, e) :: args)) input (ts ++ t :: us) := by
  obtain ⟨e', ha', rfl⟩ := ha.argument
  obtain ⟨args', hargs', rfl⟩ := hargs.argumentList
  exact (Derives.nextArgument ha' ht hargs').isPhrase

theorem noArguments : IsPhrase π (.arguments []) input [] := Derives.noArguments.isPhrase

theorem someArguments (hargs : IsPhrase π (.argumentList args) input ts) :
    IsPhrase π (.arguments args) input ts := by
  obtain ⟨args', hargs', rfl⟩ := hargs.argumentList
  exact (Derives.someArguments hargs').isPhrase

end IsPhrase

end RelaxArith.Grammar
