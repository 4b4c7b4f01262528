/-
Trees that come from a text.

Formatting a tree that was parsed changes the white space of the text and nothing else.  Three
things about derivations are behind that, each an induction over the rules of the grammar:

  * formatting has no parentheses to insert, since every operand already is at the level of its
    place;
  * every node could have been written down, because it was; for a subscript this means that its
    text, cut out of the input, is a subscript on its own;
  * the tokens of a tree can be listed from the tree alone.

The first two make the tree come back from its formatted text.  Two texts of one tree then have
the same tokens by the third.
-/
import RelaxArith.Proofs.Printing.Formatting

namespace RelaxArith

open Automaton Grammar RelaxArith.Expr

variable {π : Type} {input : Bytes}

/-! ### No parentheses to insert -/

/-- Formatting inserts no parentheses into a phrase. -/
def Grammar.Phrase.Parenthesized : Phrase π → Prop
  | .expr k e => ∀ level ≤ k, e.parenthesize level = e
  | .elements es => parenthesizeAll es = es
  | .argument a => a.2.parenthesize 0 = a.2
  | .argumentList args => parenthesizeArgs args = args
  | .arguments args => parenthesizeArgs args = args

theorem parenthesize_operation {k level : Nat} {op : Bytes} {l r : Expr π} {s : Span}
    (hop : op ∈ operatorsAt k) (hlevel : level ≤ k) (hl : l.parenthesize (levelBefore k) = l)
    (hr : r.parenthesize (levelAfter k) = r) :
    (Expr.binary op l r s).parenthesize level = .binary op l r s := by
  have hbinding := binding_of_mem hop
  have hbefore := leftLevel_of_binding hbinding
  have hafter := rightLevel_of_binding hbinding
  rw [parenthesize, Binding.ofAny, hbinding, Option.getD_some]
  simp only [hbefore, hafter, hl, hr]
  exact grouped_of_le hlevel _

theorem Grammar.Derives.parenthesized {ts : List Token} {p : Phrase π} (h : Derives input ts p) :
    p.Parenthesized := by
  induction h with
  | tighter _ _ _ ih =>
    intro level hlevel
    exact ih level (by omega)
  | assignment _ _ _ ihl ihr =>
    intro level hlevel
    rw [parenthesize, ihl 2 (Nat.le_refl 2), ihr 1 (Nat.le_refl 1)]
    exact grouped_of_le hlevel _
  | compound _ _ hop _ _ ihl ihr =>
    intro level hlevel
    exact parenthesize_operation hop hlevel (ihl 2 (Nat.le_refl 2)) (ihr 1 (Nat.le_refl 1))
  | @operation k _ _ _ _ _ hlo _ _ _ hop _ ihl ihr =>
    intro level hlevel
    have hne : k ≠ 1 := by omega
    refine parenthesize_operation hop hlevel ?_ ?_
    · rw [levelBefore, if_neg hne]
      exact ihl k (Nat.le_refl k)
    · rw [levelAfter, if_neg hne]
      exact ihr (k + 1) (Nat.le_refl _)
  | prefixed _ _ _ ih =>
    intro level hlevel
    rw [parenthesize, ih Binding.prefixLevel (Nat.le_refl 7)]
    exact grouped_of_le hlevel _
  | call _ _ _ _ ihf ihargs =>
    intro level hlevel
    rw [parenthesize, ihf Binding.postfixLevel (Nat.le_refl 8), ihargs]
  | group _ _ _ ih =>
    intro level hlevel
    rw [parenthesize, ih]
  | subscript | name | number | text =>
    intro level hlevel
    rfl
  | lastElement _ ih =>
    show parenthesizeAll [_] = [_]
    rw [parenthesizeAll, parenthesizeAll, ih 0 (Nat.zero_le 1)]
  | nextElement _ _ _ ihe ihes =>
    show parenthesizeAll (_ :: _) = _ :: _
    rw [parenthesizeAll, ihe 0 (Nat.zero_le 1), ihes]
  | unlabeled _ ih => exact ih 0 (Nat.zero_le 1)
  | labeled _ _ _ ih => exact ih 0 (Nat.zero_le 1)
  | lastArgument _ ih =>
    show parenthesizeArgs [_] = [_]
    rw [parenthesizeArgs, parenthesizeArgs, ih]
  | nextArgument _ _ _ iha ihargs =>
    show parenthesizeArgs (_ :: _) = _ :: _
    rw [parenthesizeArgs, iha, ihargs]
  | noArguments => rfl
  | someArguments _ ih => exact ih

/-! ### Every node could have been written down -/

/-- Every node of a phrase could have been written down. -/
def Grammar.Phrase.WellFormed : Phrase π → Prop
  | .expr _ e => e.WellFormed
  | .elements es => es ≠ [] ∧ ∀ e ∈ es, e.WellFormed
  | .argument a => (a.1 = [] ∨ ScansAs .name a.1) ∧ a.2.WellFormed
  | .argumentList args =>
    args ≠ [] ∧ ∀ a ∈ args, (a.1 = [] ∨ ScansAs .name a.1) ∧ a.2.WellFormed
  | .arguments args => ∀ a ∈ args, (a.1 = [] ∨ ScansAs .name a.1) ∧ a.2.WellFormed

theorem Token.IsWhole.scansAs {t : Token} (h : t.IsWhole) : ScansAs t.category t.lexeme :=
  scansAs_of_longest h

/-- The tokens of a located row, with only the text that a span over them cuts out. -/
theorem Located.scan_slice {ts : List Token} {p : Span} (h : Located input ts)
    (hp : p.Covers ts) :
    Spelled 0 (input.slice p.lo p.hi) [] (ts.map (Token.move p.lo 0)) := by
  obtain ⟨_, v, _, _, _, hspelled⟩ := h.cut hp
  have hmoved := hspelled.alone.move (Nat.le_refl p.lo) 0
  rwa [Nat.sub_self] at hmoved

/-- The text that a tree covers is parsed to the same tree, up to spans. -/
theorem Grammar.Derives.parse_slice {ts : List Token} {k : Nat} {e : Expr π}
    (h : Derives input ts (.expr k e)) (hk : 1 ≤ k) (hk9 : k ≤ 9) (hts : Located input ts) :
    ∃ e' : Expr π, parse (input.slice e.span.lo e.span.hi) = .ok e' ∧ e'.erase = e.erase := by
  have hcovers := h.covers hts.ordered k e rfl
  obtain ⟨u, v, hin, hlen, hhi, hspelled⟩ := hts.cut hcovers
  have hwithin : Within u.length (u.length + (input.slice e.span.lo e.span.hi).length) ts := by
    rw [hlen]
    exact within_of_spelled hspelled
  have halone : input.slice e.span.lo e.span.hi = [] ++ (input.slice e.span.lo e.span.hi ++ []) := by
    rw [List.nil_append, List.append_nil]
  obtain ⟨e', hderives, he⟩ := (h.transfer hin halone hts.ordered hwithin).expr
  rw [hlen] at hderives
  exact ⟨e', parse_eq_ok_iff.mpr ⟨_, hts.scan_slice hcovers,
    hderives.loosen (Nat.le_refl 1) hk hk9⟩, he⟩

theorem Grammar.Derives.wellFormed {ts : List Token} {p : Phrase π} (h : Derives input ts p)
    (hts : Located input ts) : p.WellFormed := by
  induction h with
  | tighter _ _ _ ih => exact ih hts
  | assignment _ _ _ ihl ihr => exact ⟨trivial, ihl hts.left, ihr hts.right.tail⟩
  | compound _ _ hop hne _ ihl ihr =>
    exact ⟨⟨hne, _, binding_of_mem hop⟩, ihl hts.left, ihr hts.right.tail⟩
  | operation hlo _ _ _ hop _ ihl ihr =>
    exact ⟨⟨ne_equals_of_mem hlo hop, _, binding_of_mem hop⟩, ihl hts.left, ihr hts.right.tail⟩
  | prefixed _ hop _ ih => exact ⟨isPrefixOperator_iff.mpr hop, ih hts.tail⟩
  | call _ _ _ _ ihf ihargs =>
    have hargs := ihargs hts.right.tail.left
    exact ⟨fun a ha => (hargs a ha).1, ihf hts.left, allArgs_iff.mpr fun a ha => (hargs a ha).2⟩
  | subscript he ho hi hc ihe ihi =>
    obtain ⟨e', hparse, herase⟩ :=
      (Derives.subscript he ho hi hc).parse_slice (by decide) (by decide) hts
    cases e' with
    | foreign w q s =>
      cases herase
      exact ⟨q, s, hparse⟩
    | absent | ident | literal | binary | prefixed | group | call | assign => cases herase
  | @name t h =>
    show ScansAs .name t.lexeme
    rw [← h]
    exact (hts.isWhole t (List.mem_singleton.mpr rfl)).scansAs
  | @number t h =>
    show ScansAs .number t.lexeme
    rw [← h]
    exact (hts.isWhole t (List.mem_singleton.mpr rfl)).scansAs
  | @text t h =>
    show ScansAs .text t.lexeme
    rw [← h]
    exact (hts.isWhole t (List.mem_singleton.mpr rfl)).scansAs
  | group _ _ _ ih =>
    obtain ⟨hne, hall⟩ := ih hts.tail.left
    exact ⟨hne, allOf_iff.mpr hall⟩
  | lastElement _ ih => exact ⟨by simp, List.forall_mem_singleton.mpr (ih hts)⟩
  | nextElement _ _ _ ihe ihes =>
    exact ⟨by simp, List.forall_mem_cons.mpr ⟨ihe hts.left, (ihes hts.right.tail).2⟩⟩
  | unlabeled _ ih => exact ⟨Or.inl rfl, ih hts⟩
  | @labeled ts e t c ht _ _ ih =>
    refine ⟨Or.inr ?_, ih hts.tail.tail⟩
    rw [← ht]
    exact (hts.isWhole t (List.mem_cons_self ..)).scansAs
  | lastArgument _ ih => exact ⟨by simp, List.forall_mem_singleton.mpr (ih hts)⟩
  | nextArgument _ _ _ iha ihargs =>
    exact ⟨by simp, List.forall_mem_cons.mpr ⟨iha hts.left, (ihargs hts.right.tail).2⟩⟩
  | noArguments => exact fun a ha => absurd ha (List.not_mem_nil)
  | someArguments _ ih => exact (ih hts).2

/-! ### The tokens of a tree -/

/-- What the tokens of a text are. -/
def words (s : Bytes) : List (Category × Bytes) :=
  (scan s).filterMap fun
    | .token t => some t.word
    | .error _ => none

theorem words_of_scan {s : Bytes} {ts : List Token} (h : scan s = ts.map .token) :
    words s = ts.map Token.word := by
  rw [words, h, List.filterMap_map, ← List.filterMap_eq_map]
  rfl

/-- The word of a punctuation mark. -/
def markWord (mark : String) : Category × Bytes := (.punctuation, utf8 mark)

/-- The words of a label, if there is one. -/
def labelWords (label : Bytes) : List (Category × Bytes) :=
  if label.isEmpty then [] else [(.name, label), markWord ":"]

/-- Rows of words with commas between them. -/
def commas : List (List (Category × Bytes)) → List (Category × Bytes)
  | [] => []
  | [w] => w
  | w :: ws => w ++ markWord "," :: commas ws

theorem commas_cons {w : List (Category × Bytes)} {ws : List (List (Category × Bytes))}
    (h : ws ≠ []) : commas (w :: ws) = w ++ markWord "," :: commas ws := by
  cases ws with
  | nil => exact absurd rfl h
  | cons v ws => rfl

namespace Expr

mutual

/-- What the tokens of every text of a tree are. -/
def words : Expr π → List (Category × Bytes)
  | absent _ => []
  | ident n _ => [(.name, n)]
  | literal .number raw _ => [(.number, raw)]
  | literal .text raw _ => [(.text, raw)]
  | binary op l r _ => l.words ++ (.operator, op) :: r.words
  | prefixed op x _ => (.operator, op) :: x.words
  | group es _ => markWord "(" :: (commas (wordsAll es) ++ [markWord ")"])
  | call f args _ => f.words ++ markWord "(" :: (commas (wordsArgs args) ++ [markWord ")"])
  | assign t v _ => t.words ++ (.operator, utf8 "=") :: v.words
  | foreign t _ _ => RelaxArith.words t

/-- What the tokens of several trees are. -/
def wordsAll : List (Expr π) → List (List (Category × Bytes))
  | [] => []
  | e :: es => e.words :: wordsAll es

/-- What the tokens of arguments are. -/
def wordsArgs : List (Bytes × Expr π) → List (List (Category × Bytes))
  | [] => []
  | (l, e) :: args => (labelWords l ++ e.words) :: wordsArgs args

end

theorem wordsAll_eq_map (es : List (Expr π)) : wordsAll es = es.map words := by
  induction es with
  | nil => rfl
  | cons e es ih => rw [wordsAll, ih, List.map_cons]

theorem wordsArgs_eq_map (args : List (Bytes × Expr π)) :
    wordsArgs args = args.map fun a => labelWords a.1 ++ a.2.words := by
  induction args with
  | nil => rfl
  | cons a args ih => rw [wordsArgs, ih, List.map_cons]

/-- The tokens do not show what erasing forgets. -/
theorem words_erase (e : Expr π) : e.erase.words = e.words := by
  induction e with
  | absent | ident | foreign => rfl
  | literal t raw s => cases t <;> rfl
  | binary op l r s hl hr => rw [erase, words, words, hl, hr]
  | prefixed op x s hx => rw [erase, words, words, hx]
  | group es s hes =>
    have hall : wordsAll (eraseAll es) = wordsAll es := by
      rw [wordsAll_eq_map, wordsAll_eq_map, eraseAll_eq_map, List.map_map]
      exact List.map_congr_left hes
    rw [erase, words, words, hall]
  | call f args s hf hargs =>
    have hall : wordsArgs (eraseArgs args) = wordsArgs args := by
      rw [wordsArgs_eq_map, wordsArgs_eq_map, eraseArgs_eq_map, List.map_map]
      exact List.map_congr_left fun a ha => congrArg (labelWords a.1 ++ ·) (hargs a ha)
    rw [erase, words, words, hf, hall]
  | assign t v s ht hv => rw [erase, words, words, ht, hv]

end Expr

/-- What the tokens of every text of a phrase are. -/
def Grammar.Phrase.words : Phrase π → List (Category × Bytes)
  | .expr _ e => e.words
  | .elements es => commas (wordsAll es)
  | .argument a => labelWords a.1 ++ a.2.words
  | .argumentList args => commas (wordsArgs args)
  | .arguments args => commas (wordsArgs args)

theorem word_of_isPunctuation {t : Token} {mark : String} (h : t.IsPunctuation mark) :
    t.word = markWord mark := by
  rw [Token.word, h.1, h.2, markWord]

theorem Grammar.Derives.words {ts : List Token} {p : Phrase π} (h : Derives input ts p)
    (hts : Located input ts) : ts.map Token.word = p.words := by
  induction h with
  | tighter _ _ _ ih => exact ih hts
  | assignment _ ht _ ihl ihr =>
    rw [List.map_append, List.map_cons, ihl hts.left, ihr hts.right.tail, Token.word, ht.1, ht.2]
    rfl
  | compound _ hcat _ _ _ ihl ihr =>
    rw [List.map_append, List.map_cons, ihl hts.left, ihr hts.right.tail, Token.word, hcat]
    rfl
  | operation _ _ _ hcat _ _ ihl ihr =>
    rw [List.map_append, List.map_cons, ihl hts.left, ihr hts.right.tail, Token.word, hcat]
    rfl
  | prefixed hcat _ _ ih =>
    rw [List.map_cons, ih hts.tail, Token.word, hcat]
    rfl
  | call _ ho _ hc ihf ihargs =>
    rw [List.map_append, List.map_cons, List.map_append, List.map_singleton, ihf hts.left,
      ihargs hts.right.tail.left, word_of_isPunctuation ho, word_of_isPunctuation hc]
    rfl
  | subscript he ho hi hc =>
    -- the text of the node has the tokens of the row, at other places
    have hcovers := (Derives.subscript he ho hi hc).covers hts.ordered _ _ rfl
    have hscan := scan_eq_iff.mpr (hts.scan_slice hcovers)
    have hwords := words_of_scan hscan
    rw [List.map_map] at hwords
    exact hwords.symm
  | @name t h =>
    show [t.word] = [(.name, t.lexeme)]
    rw [Token.word, h]
  | @number t h =>
    show [t.word] = [(.number, t.lexeme)]
    rw [Token.word, h]
  | @text t h =>
    show [t.word] = [(.text, t.lexeme)]
    rw [Token.word, h]
  | group ho _ hc ih =>
    rw [List.map_cons, List.map_append, List.map_singleton, ih hts.tail.left,
      word_of_isPunctuation ho, word_of_isPunctuation hc]
    rfl
  | lastElement _ ih => exact ih hts
  | @nextElement ts us e es t _ ht hes ihe ihes =>
    have hne : wordsAll es ≠ [] := by
      rw [wordsAll_eq_map]
      exact mt List.map_eq_nil_iff.mp (hes.wellFormed hts.right.tail).1
    rw [List.map_append, List.map_cons, ihe hts.left, ihes hts.right.tail,
      word_of_isPunctuation ht]
    exact (commas_cons hne).symm
  | unlabeled _ ih => exact ih hts
  | @labeled ts e t c ht hc _ ih =>
    have hlabel : labelWords t.lexeme = [(.name, t.lexeme), markWord ":"] := by
      have hpos := longest_start_pos (hts.isWhole t (List.mem_cons_self ..))
      cases hlex : t.lexeme with
      | nil => rw [hlex] at hpos; simp at hpos
      | cons b w => rfl
    show _ = labelWords t.lexeme ++ e.words
    rw [List.map_cons, List.map_cons, ih hts.tail.tail, word_of_isPunctuation hc, Token.word, ht,
      hlabel]
    rfl
  | lastArgument _ ih => exact ih hts
  | @nextArgument ts us a args t _ ht hargs iha ihargs =>
    have hne : wordsArgs args ≠ [] := by
      rw [wordsArgs_eq_map]
      exact mt List.map_eq_nil_iff.mp (hargs.wellFormed hts.right.tail).1
    rw [List.map_append, List.map_cons, iha hts.left, ihargs hts.right.tail,
      word_of_isPunctuation ht]
    exact (commas_cons hne).symm
  | noArguments => rfl
  | someArguments _ ih => exact ih hts

/-! ### Parsing and formatting -/

/-- The tokens of a text that is parsed, and what is known about the tree. -/
theorem of_parse {s : Bytes} {e : Expr π} (h : parse s = .ok e) :
    e.WellFormed ∧ e.parenthesize 0 = e ∧
      ∃ ts : List Token, scan s = ts.map .token ∧ ts.map Token.word = e.words := by
  obtain ⟨ts, hspelled, hderives⟩ := parse_eq_ok_iff.mp h
  have hlocated := hspelled.located
  exact ⟨hderives.wellFormed hlocated, hderives.parenthesized 0 (Nat.zero_le 1),
    ts, scan_eq_iff.mpr hspelled, hderives.words hlocated⟩

theorem format_of_parse {s : Bytes} {e : Expr π} (h : parse s = .ok e) :
    e.textAt 0 = e.infixForm ∧ e.format = .ok e.infixForm := by
  obtain ⟨hwf, hparenthesized, _⟩ := of_parse h
  have htext : e.textAt 0 = e.infixForm := by
    rw [textAt, hparenthesized]
  exact ⟨htext, by rw [hwf.format, htext]⟩

/-- **Parsing and formatting reproduces a text up to white space.** Nothing is parenthesized, the
formatted text has the same tokens, and it is parsed to an equal tree, so that formatting once
more changes nothing. -/
theorem format_parse {s : Bytes} {e : Expr π} (h : parse s = .ok e) :
    e.format = .ok e.infixForm ∧ e.infixForm? = .ok e.infixForm ∧
    (∃ ts us : List Token, scan s = ts.map .token ∧ scan e.infixForm = us.map .token ∧
      us.map Token.word = ts.map Token.word) ∧
    ∃ e' : Expr π, parse e.infixForm = .ok e' ∧ e'.equal e = true ∧ e'.format = e.format := by
  obtain ⟨hwf, hparenthesized, ts, hscan, hwords⟩ := of_parse h
  obtain ⟨htext, hformat⟩ := format_of_parse h
  obtain ⟨e', hparse, herase⟩ := hwf.parse_textAt
  rw [htext] at hparse
  rw [hparenthesized] at herase
  obtain ⟨_, _, us, hscan', hwords'⟩ := of_parse hparse
  have hpresent : e.isAbsent = false := by
    cases e with
    | absent k => exact absurd hwf.node id
    | ident | literal | binary | prefixed | group | call | assign | foreign => rfl
  refine ⟨hformat, by rw [infixForm?, hpresent]; rfl, ⟨ts, us, hscan, hscan', ?_⟩,
    e', hparse, equal_iff_erase.mpr herase, ?_⟩
  · rw [hwords, hwords', ← words_erase, herase, words_erase]
  · rw [(format_of_parse hparse).2, hformat, ← infixForm_erase, herase, infixForm_erase]

/-- The tree of the text `-(a+v[ 1 ])*f(x :⇥2)`. -/
def parsedExample : Expr Unit :=
  .binary (utf8 "*")
    (.prefixed (utf8 "-")
      (.group [.binary (utf8 "+") (.ident (utf8 "a") ⟨2, 3⟩)
        (.foreign (utf8 "v[ 1 ]") none ⟨4, 10⟩) ⟨2, 10⟩] ⟨1, 11⟩) ⟨0, 11⟩)
    (.call (.ident (utf8 "f") ⟨12, 13⟩)
      [(utf8 "x", .literal .number (utf8 "2") ⟨18, 19⟩)] ⟨12, 20⟩) ⟨0, 20⟩

theorem parse_parsedExample : parse (utf8 "-(a+v[ 1 ])*f(x :\t2)") = .ok parsedExample := by
  cbv

example : parsedExample.infixForm = utf8 "-(a + v[ 1 ]) * f(x: 2)" := rfl

theorem format_parse_parsedExample :
    parse (utf8 "-(a+v[ 1 ])*f(x :\t2)") = .ok parsedExample ∧
    parsedExample.format = .ok parsedExample.infixForm ∧
    parsedExample.infixForm? = .ok parsedExample.infixForm ∧
    (∃ ts us : List Token, scan (utf8 "-(a+v[ 1 ])*f(x :\t2)") = ts.map .token ∧
      scan parsedExample.infixForm = us.map .token ∧ us.map Token.word = ts.map Token.word) ∧
    ∃ e' : Expr Unit, parse parsedExample.infixForm = .ok e' ∧ e'.equal parsedExample = true ∧
      e'.format = parsedExample.format :=
  ⟨parse_parsedExample, format_parse parse_parsedExample⟩

end RelaxArith
