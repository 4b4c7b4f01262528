/-
Formatted text is read back.

Formatting works on any tree, also on one that no text stands for: with a name of two words, an
operator that does not exist, a grouping of nothing.  A tree is well-formed if each of its nodes
could have been written down.  Every well-formed tree comes back from its formatted text, with
nothing but parentheses added.

The induction is over trees and carries the level of the place: the text of a tree at a level is
read as the grammar's symbol of that level.
-/
import Mathlib
import RelaxArith.Proofs.Printing.Fragments
import RelaxArith.Proofs.Stubs

namespace RelaxArith

open Automaton Grammar

/-- A text that is one token of a category, from end to end. -/
def ScansAs (c : Category) (w : Bytes) : Prop := scan w = [.token ⟨c, w, ⟨0, w.length⟩⟩]

theorem ScansAs.longest {c : Category} {w : Bytes} (h : ScansAs c w) :
    longest .start w = some (.token c, w.length) := by
  have hspelled : Spelled 0 w [] [⟨c, w, ⟨0, w.length⟩⟩] := scan_eq_iff.mp h
  exact hspelled.isWhole _ (List.mem_singleton.mpr rfl)

theorem scansAs_of_longest {c : Category} {w : Bytes}
    (h : Automaton.longest .start w = some (.token c, w.length)) : ScansAs c w := by
  have hspelled : Spelled 0 w [] [⟨c, w, ⟨0, 0 + w.length⟩⟩] :=
    .one (by rw [List.append_nil]; exact h) 0
  rw [Nat.zero_add] at hspelled
  exact scan_eq_iff.mpr hspelled

namespace Expr

variable {π : Type}

/-- A node that could have been written down, whatever its children are. -/
def IsWritable : Expr π → Prop
  | absent _ => False
  | ident n _ => ScansAs .name n
  | literal .number raw _ => ScansAs .number raw
  | literal .text raw _ => ScansAs .text raw
  | binary op _ _ _ => op ≠ utf8 "=" ∧ ∃ b, Binding.of? op = some b
  | prefixed op _ _ => isPrefixOperator op = true
  | group es _ => es ≠ []
  | call _ args _ => ∀ a ∈ args, a.1 = [] ∨ ScansAs .name a.1
  | assign _ _ _ => True
  | foreign t _ _ => ∃ q s, parse t = .ok (foreign t q s : Expr π)

/-- A tree without a node that could not have been written down. -/
def WellFormed (e : Expr π) : Prop := e.All IsWritable

theorem IsWritable.isAbsent {x : Expr π} (h : x.IsWritable) : x.isAbsent = false := by
  cases x with
  | absent k => exact absurd h id
  | ident | literal | binary | prefixed | group | call | assign | foreign => rfl

theorem WellFormed.containsStub {e : Expr π} (h : e.WellFormed) : e.containsStub = false :=
  containsStub_of_all_present (h.imp fun _ hx => hx.isAbsent)

/-! ### Reading a formatted text -/

/-- Parentheses where the place asks for them make any text fit into it. -/
theorem reads_parens {s : Bytes} {e : Expr π} {precedence level k : Nat}
    (h : ReadsAs π s (.expr precedence e.erase)) (hlo : 1 ≤ precedence) (hhi : precedence ≤ 9)
    (hk : 1 ≤ k) (hk9 : k ≤ 9) (hlevel : k ≤ max 1 level) :
    ReadsAs π (parens (precedence < level) s)
      (.expr k (grouped (precedence < level) e).erase) := by
  by_cases hlt : precedence < level
  · have helement : ReadsAs π (Bytes.join (utf8 ", ") ([e].map fun _ => s))
        (.elements ([e].map erase)) := by
      refine reads_elements (by simp) ?_
      intro x hx
      rw [List.mem_singleton.mp hx]
      exact h.loosen (Nat.le_refl 1) hlo hhi
    have hgroup := (reads_group helement).loosen hk hk9 (Nat.le_refl 9)
    rw [parens, grouped, if_pos (by simpa using hlt), if_pos (by simpa using hlt), List.append_assoc]
    exact hgroup
  · rw [parens, if_neg (by simpa using hlt), grouped_of_le (Nat.le_of_not_lt hlt)]
    exact h.loosen hk (by omega) hhi

/-- **The formatted text of a well-formed tree is read as the tree with its parentheses**, at
every place for which it was formatted. -/
theorem WellFormed.reads {e : Expr π} (h : e.WellFormed) {level k : Nat} (hk : 1 ≤ k)
    (hk8 : k ≤ 8) (hlevel : k ≤ max 1 level) :
    ReadsAs π (e.textAt level) (.expr k (e.parenthesize level).erase) := by
  induction e generalizing level k with
  | absent kind => exact absurd h.node id
  | ident n s => exact (reads_name h.node.longest).loosen hk (by omega) (Nat.le_refl 9)
  | literal t raw s =>
    cases t with
    | number => exact (reads_number h.node.longest).loosen hk (by omega) (Nat.le_refl 9)
    | text => exact (reads_text h.node.longest).loosen hk (by omega) (Nat.le_refl 9)
  | binary op l r s hl hr =>
    obtain ⟨⟨hne, b, hb⟩, hwl, hwr⟩ := h
    have hop := (mem_of_binding hb).1
    obtain ⟨hlo, hhi⟩ := level_of_mem hop
    have hany : Binding.ofAny op = b := by rw [Binding.ofAny, hb]; rfl
    have hbefore := levelBefore_bounds hlo hhi
    have hafter := levelAfter_bounds hlo hhi
    have hinner := reads_operation hop (hl hwl hbefore.1 (by omega) (Nat.le_max_right ..))
      (hr hwr hafter.1 (by omega) (Nat.le_max_right ..))
    rw [operationNode, if_neg hne] at hinner
    simp only [textAt_binary, parenthesize, hany, leftLevel_of_binding hb, rightLevel_of_binding hb,
      List.append_assoc] at hinner ⊢
    exact reads_parens hinner hlo (by omega) hk (by omega) hlevel
  | prefixed op x s hx =>
    have hoperand : ReadsAs π (x.textAt 7) (.expr 7 (x.parenthesize 7).erase) :=
      hx h.2 (by decide) (by decide) (by decide)
    rw [textAt_prefixed, parenthesize]
    exact reads_parens (reads_prefixed (isPrefixOperator_iff.mp h.1) hoperand) (by decide)
      (by decide) hk (by omega) hlevel
  | group es s hes =>
    have hall := allOf_iff.mp h.2
    have helement : ∀ e ∈ es,
        ReadsAs π (e.textAt 0) (.expr 1 ((erase ∘ parenthesize 0) e)) := by
      intro e he
      exact hes e he (hall e he) (by decide) (by decide) (by decide)
    rw [textAt_group, parenthesize, erase, parenthesizeAll_eq_map, eraseAll_eq_map, List.map_map,
      List.append_assoc]
    exact (reads_group (reads_elements h.1 helement)).loosen hk (by omega) (Nat.le_refl 9)
  | call f args s hf hargs =>
    obtain ⟨hlabels, hwf, hwargs⟩ := h
    have hall := allArgs_iff.mp hwargs
    have hargument : ∀ a ∈ args, ReadsAs π (argumentText a.1 (a.2.textAt 0))
        (.argument (a.1, (erase ∘ parenthesize 0) a.2)) := by
      intro a ha
      refine reads_argument ((hlabels a ha).imp_right ScansAs.longest) ?_
      exact hargs a ha (hall a ha) (by decide) (by decide) (by decide)
    have hcallee : ReadsAs π (f.textAt 8) (.expr 8 (f.parenthesize 8).erase) :=
      hf hwf (by decide) (by decide) (by decide)
    have hcall := reads_call hcallee (reads_arguments hargument)
    rw [textAt_call, parenthesize, erase, parenthesizeArgs_eq_map, eraseArgs_eq_map, List.map_map,
      List.append_assoc, List.append_assoc]
    exact hcall.loosen hk hk8 (by decide)
  | assign t v s ht hv =>
    obtain ⟨_, hwt, hwv⟩ := h
    have htarget : ReadsAs π (t.textAt 2) (.expr 2 (t.parenthesize 2).erase) :=
      ht hwt (by decide) (by decide) (by decide)
    have hvalue : ReadsAs π (v.textAt 1) (.expr 1 (v.parenthesize 1).erase) :=
      hv hwv (by decide) (by decide) (by decide)
    have hequals : utf8 "=" ∈ operatorsAt 1 := by decide
    rw [textAt_assign, parenthesize, List.append_assoc]
    exact reads_parens (reads_operation hequals htarget hvalue) (by decide) (by decide) hk
      (by omega) hlevel
  | foreign w q s =>
    obtain ⟨q', s', hparse⟩ := h.node
    exact (reads_foreign hparse).loosen hk hk8 (by decide)

theorem WellFormed.format {e : Expr π} (h : e.WellFormed) : e.format = .ok (e.textAt 0) :=
  format_of_noStub h.containsStub

theorem WellFormed.parse_textAt {e : Expr π} (h : e.WellFormed) :
    ∃ e' : Expr π, parse (e.textAt 0) = .ok e' ∧ e'.erase = (e.parenthesize 0).erase := by
  have hreads : ReadsAs π (e.textAt 0) (.expr 1 (e.parenthesize 0).erase) :=
    h.reads (by decide) (by decide) (by decide)
  exact parse_of_reads hreads

/-- **Formatting inserts enough parentheses**: the formatted text of every well-formed tree is
parsed, and the tree that it gives is the one it was made from, up to groupings of one element. -/
theorem parse_format {e : Expr π} (h : e.WellFormed) :
    ∃ w e', e.format = .ok w ∧ parse w = .ok e' ∧ e'.ungroup.equal e.ungroup = true := by
  obtain ⟨e', hparse, herase⟩ := h.parse_textAt
  refine ⟨e.textAt 0, e', h.format, hparse, ?_⟩
  rw [equal_iff_erase]
  calc e'.ungroup.erase
      = e'.erase.ungroup := erase_ungroup e'
    _ = (e.parenthesize 0).erase.ungroup := by rw [herase]
    _ = (e.parenthesize 0).ungroup.erase := (erase_ungroup _).symm
    _ = e.ungroup.erase := by rw [ungroup_parenthesize]

/-- A product of a negated sum and a call, with a subscript, a label and an assignment. -/
def formattingExample : Expr Unit :=
  .binary (utf8 "*")
    (.prefixed (utf8 "-")
      (.binary (utf8 "+") (.ident (utf8 "a") .null) (.foreign (utf8 "v[i]") none .null) .null)
      .null)
    (.call (.ident (utf8 "f") .null)
      [(utf8 "x", .literal .number (utf8 "2.5e3") .null),
       ([], .group [.assign (.ident (utf8 "b") .null) (.literal .text (utf8 "\"c\"") .null) .null]
         .null)] .null) .null

example : formattingExample.format
    = .ok (utf8 "-(a + v[i]) * f(x: 2.5e3, (b = \"c\"))") := rfl

theorem wellFormed_formattingExample : formattingExample.WellFormed := by
  have hsubscript : (parse (utf8 "v[i]") : Except SyntaxError (Expr Unit))
      = .ok (.foreign (utf8 "v[i]") none ⟨0, 4⟩) := by cbv
  have hname : ∀ w ∈ [utf8 "a", utf8 "f", utf8 "b", utf8 "x"], ScansAs .name w := by
    intro w hw
    refine scansAs_of_longest ?_
    revert w
    decide
  have hnumber : ScansAs .number (utf8 "2.5e3") := scansAs_of_longest (by decide)
  have htext : ScansAs .text (utf8 "\"c\"") := scansAs_of_longest (by decide)
  simp only [WellFormed, formattingExample, All, AllOf, AllArgs, IsWritable]
  refine ⟨⟨by decide, _, rfl⟩, ⟨by decide, ⟨by decide, _, rfl⟩, hname _ (by simp), _, _, hsubscript⟩,
    ?_, hname _ (by simp), hnumber, ⟨by simp, ⟨trivial, hname _ (by simp), htext⟩, trivial⟩, trivial⟩
  intro a ha
  rcases List.mem_cons.mp ha with rfl | ha
  · exact Or.inr (hname _ (by simp))
  · rw [List.mem_singleton.mp ha]
    exact Or.inl rfl

theorem parse_format_formattingExample :
    formattingExample.WellFormed ∧
    ∃ w e', formattingExample.format = .ok w ∧ parse w = .ok e' ∧
      e'.ungroup.equal formattingExample.ungroup = true :=
  ⟨wellFormed_formattingExample, parse_format wellFormed_formattingExample⟩

end Expr
end RelaxArith
