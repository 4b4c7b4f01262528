/-
Negated trees can be read back.

The infix form shows a tree as it is, so for most trees it is the text of another tree, or of none.
Negation adds parentheses by the kind of a node alone and knows nothing of how tightly operators
bind.  Still it never spoils a text: if the infix form of a tree is read as the tree, the same holds
of its negation, and so of every further one.

What is read from the text of a tree can be written down and needs no parentheses.  Negation keeps
both, since what it does not put into a grouping delimits itself.  The tree itself may differ from what
is read from its text, but in nothing that negation or the infix form shows.
-/
import RelaxArith.Proofs.Printing.Relaxed

namespace RelaxArith.Expr

variable {π : Type}

/-- The infix form of a tree is parsed to an equal tree. -/
def ReadsBack (e : Expr π) : Prop :=
  ∃ w e', e.infixForm? = .ok w ∧ parse w = .ok e' ∧ e'.equal e = true

theorem infixForm?_eq_ok_iff {e : Expr π} {w : Bytes} :
    e.infixForm? = .ok w ↔ e.isAbsent = false ∧ e.infixForm = w := by
  rw [infixForm?]
  cases e.isAbsent <;> simp

theorem isStub_of_isAbsent {e : Expr π} (h : e.isAbsent = false) : e.isStub = false := by
  cases e with
  | absent k => cases h
  | ident | literal | binary | prefixed | group | call | assign | foreign => rfl

theorem readsBack_iff {e : Expr π} :
    e.ReadsBack ↔ e.isAbsent = false ∧
      ∃ e' : Expr π, parse e.infixForm = .ok e' ∧ e'.erase = e.erase := by
  simp only [ReadsBack, infixForm?_eq_ok_iff, equal_iff_erase]
  constructor
  · rintro ⟨_, e', ⟨hpresent, rfl⟩, hparse, herase⟩
    exact ⟨hpresent, e', hparse, herase⟩
  · rintro ⟨hpresent, e', hparse, herase⟩
    exact ⟨_, e', ⟨hpresent, rfl⟩, hparse, herase⟩

/-- The negation of a tree that is read back is read back. -/
theorem ReadsBack.negate {e : Expr π} (h : e.ReadsBack) : e.negate.ReadsBack := by
  obtain ⟨hpresent, e', hparse, herase⟩ := readsBack_iff.mp h
  obtain ⟨hwf, hparenthesized, _⟩ := of_parse hparse
  have hnegation : e'.negate.erase = e.negate.erase :=
    erase_negate_congr (isStub_of_isAbsent hwf.node.isAbsent) (isStub_of_isAbsent hpresent) herase
  have htext : e'.negate.infixForm = e.negate.infixForm := by
    rw [← infixForm_erase, hnegation, infixForm_erase]
  obtain ⟨_, _, x, hread, hx⟩ := hwf.negate.parse_infixForm (parenthesize_negate hparenthesized)
  rw [htext] at hread
  exact readsBack_iff.mpr ⟨rfl, x, hread, hx.trans hnegation⟩

theorem ReadsBack.iterate_negate {e : Expr π} (h : e.ReadsBack) (n : Nat) :
    (Expr.negate^[n] e).ReadsBack := by
  induction n with
  | zero => exact h
  | succ n ih =>
    rw [Function.iterate_succ_apply']
    exact ih.negate

/-- **Negation groups enough for a printer that knows no precedence.** If the infix form of a tree
is parsed to an equal tree, then the tree can be negated, and the infix form of its negation is parsed
to a tree that equals the negation. So is that of the negation of the negation, and so on. -/
theorem negation_reads_back {e : Expr π} (h : e.ReadsBack) :
    (e.negate? = .ok e.negate ∧ e.negate.ReadsBack) ∧ ∀ n, (Expr.negate^[n] e).ReadsBack := by
  have hstub : e.isStub = false := isStub_of_isAbsent (readsBack_iff.mp h).1
  have hnegate : e.negate? = .ok e.negate := by
    rw [negate?, hstub]
    rfl
  exact ⟨⟨hnegate, h.negate⟩, h.iterate_negate⟩

/-- The tree of `a + v[i]`, without positions and with something carried along. -/
def negationExample : Expr Nat :=
  .binary (utf8 "+") (.ident (utf8 "a") .null) (.foreign (utf8 "v[i]") (some 7) .null) .null

example : (Expr.negate^[2] negationExample).infixForm = utf8 "-(-(a + v[i]))" := rfl

theorem negation_reads_back_negationExample :
    negationExample.ReadsBack ∧
    (negationExample.negate? = .ok negationExample.negate ∧ negationExample.negate.ReadsBack) ∧
    ∀ n, (Expr.negate^[n] negationExample).ReadsBack := by
  have hparse : (parse (utf8 "a + v[i]") : Except SyntaxError (Expr Nat))
      = .ok (.binary (utf8 "+") (.ident (utf8 "a") ⟨0, 1⟩) (.foreign (utf8 "v[i]") none ⟨4, 8⟩)
        ⟨0, 8⟩) := by cbv
  have hreads : negationExample.ReadsBack := ⟨utf8 "a + v[i]", _, rfl, hparse, rfl⟩
  exact ⟨hreads, negation_reads_back hreads⟩

end RelaxArith.Expr
