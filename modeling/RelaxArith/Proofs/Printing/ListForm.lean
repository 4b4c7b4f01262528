/-
List forms tell trees apart.

The list form escapes nothing.  A text between quotes may hold blanks and parentheses, the text of a
subscript anything that an expression may hold, a `>` among it, and a label is written directly in
front of its value.  Still a list form is the list form of one tree only, as long as the tree comes
from text, because each piece of it says where it ends:

  * a name, a number or a text is as long as the longest token at its place;
  * the heading of a list and the blank behind it are the beginning of no other heading with a
    blank;
  * a subscript ends with a bracket, so that a `>` behind it is a token of its own.  A parser that
    reads on behind the subscript stops in front of that token, and what it was reading is no
    subscript.

So a list form can be cut off from whatever stands behind it, which is the statement that is carried
through the tree by induction: only a blank or a closing parenthesis ever stands behind.
-/
import RelaxArith.Proofs.Printing.Relaxed

namespace RelaxArith

open Automaton Grammar Parse

variable {π : Type}

/-! ### Subscripts -/

/-- A closing bracket is separated from what stands in front of it, and anything may stand behind. -/
theorem Spelled.bracket {n : Nat} {s u : Bytes} {c : Token} (h : Spelled n s u [c])
    (hc : c.IsPunctuation "]") (v : Bytes) : Separated (s ++ v) ∧ Spelled n s v [c] := by
  generalize hone : [c] = ts at h
  induction h with
  | nil => cases hone
  | blank hb _ ih =>
    refine ⟨separated_cons ?_ _, .blank hb (ih hone).2⟩
    simp [isSeparator, hb]
  | @token n _ w s u ts _ h _ =>
    obtain ⟨rfl, rfl⟩ := List.cons.inj hone
    obtain ⟨hcat, hlex⟩ := hc
    cases hcat
    cases hlex
    have hrun : run .start (utf8 "]") = some .punctuation := by decide
    refine ⟨separated_cons (by decide) _, .token ?_ (h.blanks v)⟩
    exact longest_of_run hrun rfl fun _ _ => rfl

/-- Behind a text whose last token is a closing bracket may stand anything. -/
theorem Spelled.before_of_bracket {n : Nat} {s : Bytes} {ts : List Token} {c : Token}
    (h : Spelled n s [] (ts ++ [c])) (hc : c.IsPunctuation "]") (v : Bytes) :
    Spelled n s v (ts ++ [c]) := by
  obtain ⟨s₁, s₂, rfl, hfirst, hlast, _⟩ := h.split
  obtain ⟨hseparated, hbracket⟩ := hlast.bracket hc v
  exact (hfirst.alone.before hseparated).append hbracket

/-- A subscript ends with its bracket. -/
theorem Grammar.Derives.last_of_foreign {input : Bytes} {ts : List Token} {w : Bytes}
    {q : Option π} {s : Span} (h : Derives input ts (.expr 8 (.foreign w q s))) :
    ∃ us c, ts = us ++ [c] ∧ c.IsPunctuation "]" := by
  cases h with
  | tighter _ _ h =>
    cases h with
    | tighter _ hhi _ => omega
  | @subscript ts us _ _ o c _ _ _ hc => exact ⟨ts ++ o :: us, c, by simp, hc⟩

/-- **No subscript is the beginning of another one with a `>` behind it.** -/
theorem foreign_not_extended {w x : Bytes} {q q' : Option π} {s s' : Span}
    (h : parse w = .ok (.foreign w q s))
    (h' : parse (w ++ 0x3E :: x) = .ok (.foreign (w ++ 0x3E :: x) q' s')) : False := by
  obtain ⟨ts, hts, hderives⟩ := parse_eq_ok_iff.mp h
  obtain ⟨us, hus, hderives'⟩ := parse_eq_ok_iff.mp h'
  have hlong := hderives'.tighten_foreign (by decide)
  obtain ⟨front, c, rfl, hc⟩ := (hderives.tighten_foreign (by decide)).last_of_foreign
  obtain ⟨vs, rfl, hvs⟩ := (hts.before_of_bracket hc (0x3E :: x)).behind hus
  -- the tokens of the shorter text stand for the same subscript in the longer one
  have hstays : Token.move 0 0 = id := by
    funext t
    simp [Token.move]
  have halone : w = [] ++ (w ++ []) := by rw [List.nil_append, List.append_nil]
  have hlonger : w ++ 0x3E :: x = [] ++ (w ++ 0x3E :: x) := rfl
  have hthere := hderives.transfer halone hlonger hts.ordered (within_of_spelled hts)
  rw [List.length_nil, hstays, List.map_id] at hthere
  obtain ⟨e, he, _⟩ := (hthere.tighten_foreign (by decide)).expr
  -- but the parser stops in front of the `>`, and does not take all tokens as it should
  obtain ⟨t, rest, rfl, hhead⟩ := hvs.head (b := 0x3E) rfl rfl
  have hstop : NoSuffix (t :: rest) := by
    intro u hu
    cases hu
    constructor <;>
    · refine isMark_of_ne fun hmark => ?_
      rw [hmark] at hhead
      exact absurd hhead (by decide)
  have hshort : Reads (w ++ 0x3E :: x) (front ++ [c]) 8 e := he.accepted
  have hwhole : Reads (w ++ 0x3E :: x) (front ++ [c] ++ t :: rest) 8 _ := hlong.accepted
  have hread := (hshort.called rfl (t :: rest)).trans (suffixes_stop hstop e)
  have hread' := (hwhole.called rfl []).trans (outcome_suffixes_nil ..)
  rw [List.append_nil, hread] at hread'
  cases hread'

/-- A text that is one subscript. -/
def IsSubscript (π : Type) (w : Bytes) : Prop :=
  ∃ q s, parse w = .ok (.foreign w q s : Expr π)

/-- A subscript can be cut off in front of a `>`. -/
theorem IsSubscript.cut {w x u v : Bytes} (hw : IsSubscript π w) (hx : IsSubscript π x)
    (h : w ++ 0x3E :: u = x ++ 0x3E :: v) : w = x ∧ u = v := by
  obtain ⟨_, _, hw⟩ := hw
  obtain ⟨_, _, hx⟩ := hx
  rcases List.append_eq_append_iff.mp h with ⟨y, rfl, hy⟩ | ⟨y, rfl, hy⟩
  · cases y with
    | nil => simpa using hy
    | cons b y =>
      obtain ⟨rfl, _⟩ := List.cons.inj hy
      exact (foreign_not_extended hw hx).elim
  · cases y with
    | nil => simpa [eq_comm] using hy
    | cons b y =>
      obtain ⟨rfl, _⟩ := List.cons.inj hy
      exact (foreign_not_extended hx hw).elim

/-! ### Where words end, and how lists and subscripts begin -/

/-- A word can be cut off in front of a separator. -/
theorem ScansAs.cut {c c' : Category} {w x u v : Bytes} (hw : ScansAs c w) (hx : ScansAs c' x)
    (hu : Separated u) (hv : Separated v) (h : w ++ u = x ++ v) : c = c' ∧ w = x ∧ u = v := by
  have hlong := longest_append_of_separated hw.longest hu
  rw [h, longest_append_of_separated hx.longest hv, Option.some.injEq, Prod.mk.injEq] at hlong
  obtain ⟨hclass, hlength⟩ := hlong
  cases hclass
  exact ⟨rfl, List.append_inj h hlength.symm⟩

theorem longest_list (v : Bytes) :
    longest .start (0x28 :: v) = some (.token .punctuation, 1) := by
  have hrun : run .start [0x28] = some .punctuation := by decide
  exact longest_of_run hrun rfl fun _ _ => rfl

theorem longest_subscript (v : Bytes) : longest .start (0x23 :: 0x3C :: v) = none := rfl

/-! ### Headings -/

/-- What a list begins with: an operator or a tag. -/
inductive Heading where
  | operation (op : Bytes)
  | sign (op : Bytes)
  | group
  | call
  | assign
deriving DecidableEq

namespace Heading

/-- The text of a heading. -/
def text : Heading → Bytes
  | operation op => op
  | sign op => utf8 "#prefix " ++ op
  | group => utf8 "#group"
  | call => utf8 "#call"
  | assign => utf8 "#assign"

/-- The headings of trees that come from text. -/
def all : List Heading :=
  Binding.table.map (fun x => operation x.1) ++ signs.map sign ++ [group, call, assign]

theorem operation_mem_all {op : Bytes} {b : Binding} (h : Binding.of? op = some b) :
    operation op ∈ all := by
  have hall : ∀ k ∈ List.range 7, ∀ op ∈ operatorsAt k, operation op ∈ all := by decide
  have hop := (mem_of_binding h).1
  obtain ⟨_, hk⟩ := level_of_mem hop
  exact hall _ (List.mem_range.mpr (by omega)) op hop

theorem sign_mem_all {op : Bytes} (h : op ∈ signs) : sign op ∈ all := by
  have hall : ∀ op ∈ signs, sign op ∈ all := by decide
  exact hall op h

/-- The node of a list with a heading. -/
def node : Heading → List (Bytes × Expr Empty) → Expr Empty
  | operation op, [l, r] => .binary op l.2 r.2 .null
  | sign op, [x] => .prefixed op x.2 .null
  | group, es => .group (es.map Prod.snd) .null
  | call, f :: args => .call f.2 args .null
  | assign, [t, v] => .assign t.2 v.2 .null
  | _, _ => .absent none

/-- A heading can be cut off in front of a blank. -/
theorem cut {h k : Heading} (hh : h ∈ all) (hk : k ∈ all) {u v : Bytes} (hu : u.head? = some 0x20)
    (hv : v.head? = some 0x20) (heq : h.text ++ u = k.text ++ v) : h = k ∧ u = v := by
  have hfree : ∀ h ∈ all, ∀ k ∈ all, h.text ++ [0x20] <+: k.text ++ [0x20] → h = k := by
    decide +kernel
  have hleft : h.text ++ [0x20] <+: h.text ++ u := by
    obtain ⟨u, rfl⟩ := List.head?_eq_some_iff.mp hu
    exact ⟨u, by simp⟩
  have hright : k.text ++ [0x20] <+: h.text ++ u := by
    obtain ⟨v, rfl⟩ := List.head?_eq_some_iff.mp hv
    exact ⟨v, by simp [heq]⟩
  have hsame : h = k := by
    rcases List.prefix_or_prefix_of_prefix hleft hright with hprefix | hprefix
    · exact hfree h hh k hk hprefix
    · exact (hfree k hk h hh hprefix).symm
  subst hsame
  exact ⟨rfl, List.append_cancel_left heq⟩

end Heading

namespace Expr

/-- What stands behind the heading of a list, with labels. -/
def parts : Expr π → List (Bytes × Expr π)
  | binary _ l r _ => [([], l), ([], r)]
  | prefixed _ x _ => [([], x)]
  | group es _ => es.map (Prod.mk [])
  | call f args _ => ([], f) :: args
  | assign t v _ => [([], t), ([], v)]
  | absent _ | ident _ _ | literal _ _ _ | foreign _ _ _ => []

theorem map_snd_parts (e : Expr π) : e.parts.map Prod.snd = e.children := by
  cases e with
  | absent | ident | literal | binary | prefixed | call | assign | foreign => rfl
  | group es s =>
    rw [parts, List.map_map]
    exact List.map_id es

theorem WellFormed.part {e : Expr π} (h : e.WellFormed) {a : Bytes × Expr π} (ha : a ∈ e.parts) :
    a.2 ∈ e.children ∧ a.2.WellFormed ∧ (a.1 = [] ∨ ScansAs .name a.1) := by
  have hchild : a.2 ∈ e.children := by
    rw [← map_snd_parts]
    exact List.mem_map_of_mem ha
  refine ⟨hchild, (all_iff_children.mp h).2 a.2 hchild, ?_⟩
  cases e with
  | absent | ident | literal | foreign => cases ha
  | binary op l r s | assign l r s =>
    obtain rfl | rfl : a = ([], l) ∨ a = ([], r) := by simpa [parts] using ha
    · exact Or.inl rfl
    · exact Or.inl rfl
  | prefixed op x s =>
    rw [List.mem_singleton.mp ha]
    exact Or.inl rfl
  | group es s =>
    obtain ⟨x, _, rfl⟩ := List.mem_map.mp ha
    exact Or.inl rfl
  | call f args s =>
    rcases List.mem_cons.mp ha with rfl | ha
    · exact Or.inl rfl
    · exact h.1 a ha

/-- A label in front of a value. -/
def labelForm (label : Bytes) : Bytes := if label.isEmpty then [] else label ++ [0x3A]

theorem labelForm_of_scansAs {label : Bytes} (h : ScansAs .name label) :
    labelForm label = label ++ [0x3A] := by
  have hpos := longest_start_pos h.longest
  cases label with
  | nil => cases hpos
  | cons b w => rfl

theorem labelForm_nil : labelForm [] = [] := rfl

theorem listArgs_nil : listArgs ([] : List (Bytes × Expr π)) = [] := rfl

theorem listArgs_cons (a : Bytes × Expr π) (args : List (Bytes × Expr π)) :
    listArgs (a :: args) = 0x20 :: (labelForm a.1 ++ (a.2.listForm ++ listArgs args)) := by
  rw [listArgs, List.append_assoc, List.append_assoc]
  rfl

theorem head_listArgs {args : List (Bytes × Expr π)} (h : args ≠ []) (v : Bytes) :
    (listArgs args ++ v).head? = some 0x20 := by
  obtain ⟨a, args, rfl⟩ := List.exists_cons_of_ne_nil h
  rw [listArgs_cons]
  rfl

theorem listForms_eq (es : List (Expr π)) : listForms es = listArgs (es.map (Prod.mk [])) := by
  induction es with
  | nil => rfl
  | cons e es ih =>
    rw [listForms, ih, List.map_cons, listArgs_cons]
    rfl

/-- The heading of a tree that is written as a list. -/
def heading? : Expr π → Option Heading
  | binary op _ _ _ => some (.operation op)
  | prefixed op _ _ => some (.sign op)
  | group _ _ => some .group
  | call _ _ _ => some .call
  | assign _ _ _ => some .assign
  | absent _ | ident _ _ | literal _ _ _ | foreign _ _ _ => none

theorem listForm_of_heading {e : Expr π} {h : Heading} (hhead : e.heading? = some h) :
    e.listForm = 0x28 :: (h.text ++ (listArgs e.parts ++ [0x29])) := by
  cases e with
  | absent | ident | literal | foreign => cases hhead
  | binary | prefixed | assign | call =>
    cases hhead
    simp only [listForm, parts, Heading.text, listArgs_cons, listArgs_nil, labelForm_nil,
      List.append_assoc, List.cons_append, List.nil_append, List.append_nil]
    rfl
  | group es s =>
    cases hhead
    rw [listForm, listForms_eq, List.append_assoc]
    rfl

theorem node_of_heading {e : Expr π} {h : Heading} (hhead : e.heading? = some h) :
    h.node (eraseArgs e.parts) = e.erase := by
  cases e with
  | absent | ident | literal | foreign => cases hhead
  | binary | prefixed | assign | call => cases hhead; rfl
  | group es s =>
    cases hhead
    rw [erase, eraseAll_eq_map, parts, eraseArgs_eq_map, List.map_map, Heading.node, List.map_map]
    rfl

/-! ### How a tree is written -/

/-- The tree of a word. -/
def leaf : Category → Bytes → Expr Empty
  | .name, w => .ident w .null
  | .number, w => .literal .number w .null
  | .text, w => .literal .text w .null
  | _, _ => .absent none

/-- How a tree is written: as a word, as a list, or as the text of a subscript. -/
inductive Layout (e : Expr π) : Prop
  | word {c : Category} {w : Bytes} (hc : c ≠ .punctuation) (hw : ScansAs c w)
      (htext : e.listForm = w) (htree : e.erase = leaf c w)
  | list {h : Heading} (hh : h ∈ Heading.all) (hhead : e.heading? = some h)
      (hparts : e.parts ≠ [])
  | subscript {w : Bytes} (hw : IsSubscript π w)
      (htext : e.listForm = 0x23 :: 0x3C :: (w ++ [0x3E])) (htree : e.erase = .foreign w none .null)

theorem WellFormed.layout {e : Expr π} (h : e.WellFormed) : e.Layout := by
  cases e with
  | absent => exact absurd h.node id
  | ident n s => exact .word (by decide) h.node rfl rfl
  | literal t raw s =>
    cases t with
    | number => exact .word (by decide) h.node rfl rfl
    | text => exact .word (by decide) h.node rfl rfl
  | binary op l r s =>
    obtain ⟨_, b, hb⟩ := h.node
    exact .list (Heading.operation_mem_all hb) rfl (List.cons_ne_nil _ _)
  | prefixed op x s =>
    have hop := isPrefixOperator_iff.mp h.node
    exact .list (Heading.sign_mem_all hop) rfl (List.cons_ne_nil _ _)
  | group es s =>
    obtain ⟨x, xs, rfl⟩ := List.exists_cons_of_ne_nil h.node
    exact .list (by decide) rfl (List.cons_ne_nil _ _)
  | call f args s => exact .list (by decide) rfl (List.cons_ne_nil _ _)
  | assign t v s => exact .list (by decide) rfl (List.cons_ne_nil _ _)
  | foreign w q s => exact .subscript h.node rfl rfl

/-! ### What stands behind a list form -/

/-- What stands behind a list form: nothing, a blank or a closing parenthesis. -/
def Ended (v : Bytes) : Prop := ∀ b ∈ v.head?, b = 0x20 ∨ b = 0x29

theorem Ended.separated {v : Bytes} (h : Ended v) : Separated v := by
  intro b hb
  rcases h b hb with rfl | rfl <;> decide

theorem ended_listArgs (args : List (Bytes × Expr π)) (v : Bytes) :
    Ended (listArgs args ++ 0x29 :: v) := by
  intro b hb
  cases args with
  | nil => cases hb; exact Or.inr rfl
  | cons a args =>
    rw [listArgs_cons] at hb
    cases hb
    exact Or.inl rfl

/-! ### Cutting list forms off -/

/-- The list form of a tree, whatever it is compared with, tells the tree and where it ends. -/
def Legible (e : Expr π) : Prop :=
  ∀ (f : Expr π) (u v : Bytes), f.WellFormed → Ended u → Ended v →
    e.listForm ++ u = f.listForm ++ v → e.erase = f.erase ∧ u = v

/-- No list form begins with a label. -/
theorem WellFormed.not_labeled {e : Expr π} (h : e.WellFormed) {label u v : Bytes}
    (hlabel : ScansAs .name label) (hu : Ended u) :
    e.listForm ++ u ≠ label ++ 0x3A :: v := by
  intro heq
  have hname : longest .start (label ++ 0x3A :: v) = some (.token .name, label.length) :=
    longest_append_of_separated hlabel.longest (separated_cons rfl v)
  cases h.layout with
  | word hc hw htext htree =>
    rw [htext] at heq
    obtain ⟨_, _, rfl⟩ := hw.cut hlabel hu.separated (separated_cons rfl v) heq
    exact absurd (hu _ rfl) (by decide)
  | list hh hhead hparts =>
    rw [← heq, listForm_of_heading hhead, List.cons_append, longest_list] at hname
    cases hname
  | subscript hw htext htree =>
    rw [← heq, htext, List.cons_append, List.cons_append, longest_subscript] at hname
    cases hname

/-- An argument can be cut off like a tree. -/
theorem Legible.argument {e f : Expr π} {l m u v : Bytes} (h : e.Legible) (he : e.WellFormed)
    (hf : f.WellFormed) (hl : l = [] ∨ ScansAs .name l) (hm : m = [] ∨ ScansAs .name m)
    (hu : Ended u) (hv : Ended v)
    (heq : labelForm l ++ (e.listForm ++ u) = labelForm m ++ (f.listForm ++ v)) :
    l = m ∧ e.erase = f.erase ∧ u = v := by
  rcases hl with rfl | hl
  · rcases hm with rfl | hm
    · exact ⟨rfl, h f u v hf hu hv heq⟩
    · rw [labelForm_of_scansAs hm, List.append_assoc] at heq
      exact absurd heq (he.not_labeled hm hu)
  · rw [labelForm_of_scansAs hl, List.append_assoc] at heq
    rcases hm with rfl | hm
    · exact absurd heq.symm (hf.not_labeled hl hv)
    · rw [labelForm_of_scansAs hm, List.append_assoc] at heq
      obtain ⟨_, rfl, hrest⟩ :=
        hl.cut hm (separated_cons rfl (e.listForm ++ u)) (separated_cons rfl (f.listForm ++ v)) heq
      exact ⟨rfl, h f u v hf hu hv (List.cons.inj hrest).2⟩

/-- The arguments of a list can be cut off together with its closing parenthesis. -/
theorem legible_args {as bs : List (Bytes × Expr π)} {u v : Bytes}
    (has : ∀ a ∈ as, a.2.Legible ∧ a.2.WellFormed ∧ (a.1 = [] ∨ ScansAs .name a.1))
    (hbs : ∀ b ∈ bs, b.2.WellFormed ∧ (b.1 = [] ∨ ScansAs .name b.1))
    (heq : listArgs as ++ 0x29 :: u = listArgs bs ++ 0x29 :: v) :
    eraseArgs as = eraseArgs bs ∧ u = v := by
  induction as generalizing bs with
  | nil =>
    cases bs with
    | nil => exact ⟨rfl, (List.cons.inj heq).2⟩
    | cons b bs =>
      rw [listArgs_cons] at heq
      cases heq
  | cons a as ih =>
    cases bs with
    | nil =>
      rw [listArgs_cons] at heq
      cases heq
    | cons b bs =>
      obtain ⟨⟨hlegible, he, hl⟩, has⟩ := List.forall_mem_cons.mp has
      obtain ⟨⟨hf, hm⟩, hbs⟩ := List.forall_mem_cons.mp hbs
      simp only [listArgs_cons, List.cons_append, List.append_assoc, List.cons.injEq,
        true_and] at heq
      obtain ⟨hlabel, hfirst, hrest⟩ := hlegible.argument he hf hl hm (ended_listArgs as u)
        (ended_listArgs bs v) heq
      obtain ⟨hargs, huv⟩ := ih has hbs hrest
      rw [eraseArgs_eq_map, eraseArgs_eq_map] at hargs ⊢
      rw [List.map_cons, List.map_cons, hlabel, hfirst, hargs]
      exact ⟨rfl, huv⟩

theorem legible_of_word {e : Expr π} {c : Category} {w : Bytes} (hc : c ≠ .punctuation)
    (hw : ScansAs c w) (htext : e.listForm = w) (htree : e.erase = leaf c w) : e.Legible := by
  intro f u v hf hu hv heq
  have hlead := congrArg (longest .start) heq
  rw [htext, longest_append_of_separated hw.longest hu.separated] at hlead
  cases hf.layout with
  | word hc' hw' htext' htree' =>
    rw [htext, htext'] at heq
    obtain ⟨rfl, rfl, huv⟩ := hw.cut hw' hu.separated hv.separated heq
    exact ⟨htree.trans htree'.symm, huv⟩
  | list hh' hhead' hparts' =>
    rw [listForm_of_heading hhead', List.cons_append, longest_list] at hlead
    obtain ⟨hclass, _⟩ := Prod.mk.inj (Option.some.inj hlead)
    exact absurd (Class.token.inj hclass) hc
  | subscript hw' htext' htree' =>
    rw [htext', List.cons_append, List.cons_append, longest_subscript] at hlead
    cases hlead

theorem legible_of_list {e : Expr π} {h : Heading} (hh : h ∈ Heading.all)
    (hhead : e.heading? = some h) (hparts : e.parts ≠ [])
    (hall : ∀ a ∈ e.parts, a.2.Legible ∧ a.2.WellFormed ∧ (a.1 = [] ∨ ScansAs .name a.1)) :
    e.Legible := by
  intro f u v hf hu hv heq
  have hlead := congrArg (longest .start) heq
  rw [listForm_of_heading hhead, List.cons_append, longest_list] at hlead
  cases hf.layout with
  | word hc' hw' htext' htree' =>
    rw [htext', longest_append_of_separated hw'.longest hv.separated] at hlead
    obtain ⟨hclass, _⟩ := Prod.mk.inj (Option.some.inj hlead)
    exact absurd (Class.token.inj hclass).symm hc'
  | list hh' hhead' hparts' =>
    rw [listForm_of_heading hhead, listForm_of_heading hhead'] at heq
    simp only [List.cons_append, List.append_assoc, List.nil_append, List.cons.injEq,
      true_and] at heq
    obtain ⟨rfl, hargs⟩ :=
      Heading.cut hh hh' (head_listArgs hparts _) (head_listArgs hparts' _) heq
    obtain ⟨herase, huv⟩ := legible_args hall (fun b hb => (hf.part hb).2) hargs
    rw [← node_of_heading hhead, ← node_of_heading hhead', herase]
    exact ⟨rfl, huv⟩
  | subscript hw' htext' htree' =>
    rw [htext', List.cons_append, List.cons_append, longest_subscript] at hlead
    cases hlead

theorem legible_of_subscript {e : Expr π} {w : Bytes} (hw : IsSubscript π w)
    (htext : e.listForm = 0x23 :: 0x3C :: (w ++ [0x3E]))
    (htree : e.erase = .foreign w none .null) : e.Legible := by
  intro f u v hf hu hv heq
  have hlead := congrArg (longest .start) heq
  rw [htext, List.cons_append, List.cons_append, longest_subscript] at hlead
  cases hf.layout with
  | word hc' hw' htext' htree' =>
    rw [htext', longest_append_of_separated hw'.longest hv.separated] at hlead
    cases hlead
  | list hh' hhead' hparts' =>
    rw [listForm_of_heading hhead', List.cons_append, longest_list] at hlead
    cases hlead
  | subscript hw' htext' htree' =>
    rw [htext, htext'] at heq
    simp only [List.cons_append, List.append_assoc, List.nil_append, List.cons.injEq,
      true_and] at heq
    obtain ⟨rfl, huv⟩ := hw.cut hw' heq
    exact ⟨htree.trans htree'.symm, huv⟩

/-- **The list form of a well-formed tree can be cut off** from what stands behind it. The
induction goes over the parts of lists. -/
theorem WellFormed.legible {e : Expr π} (he : e.WellFormed) : e.Legible := by
  induction e using induct_children with
  | h e ih =>
    cases he.layout with
    | word hc hw htext htree => exact legible_of_word hc hw htext htree
    | list hh hhead hparts =>
      refine legible_of_list hh hhead hparts fun a ha => ?_
      obtain ⟨hchild, hwf, hlabel⟩ := he.part ha
      exact ⟨ih a.2 hchild hwf, hwf, hlabel⟩
    | subscript hw htext htree => exact legible_of_subscript hw htext htree

/-- A tree that comes from text: it was parsed, or it was parsed and then relaxed. -/
def FromText (e : Expr π) : Prop :=
  ∃ (s : Bytes) (x : Expr π), parse s = .ok x ∧
    (e = x ∨ ∃ rx : Relaxer, rx.Writes ∧ e = rx.relax x)

theorem FromText.wellFormed {e : Expr π} (h : e.FromText) : e.WellFormed := by
  obtain ⟨s, x, hparse, rfl | ⟨rx, hrx, rfl⟩⟩ := h
  · exact (of_parse hparse).1
  · exact (hrx.of_parse hparse).1

/-- **The list form is unambiguous.** Among the trees that were parsed and those that were relaxed
afterwards, with functions whose names can be written down, only equal trees have the same list
form. -/
theorem listForm_unambiguous {e f : Expr π} (he : e.FromText) (hf : f.FromText)
    (h : e.listForm = f.listForm) : e.equal f = true := by
  have hnothing : Ended [] := by simp [Ended]
  have hwhole : e.listForm ++ [] = f.listForm ++ [] := by rw [h]
  have htrees := he.wellFormed.legible f [] [] hf.wellFormed hnothing hnothing hwhole
  exact equal_iff_erase.mpr htrees.1

/-- The tree of the text `"a) b"+(v[1]>w)[ 0 ]`. -/
def sumExample : Expr Unit :=
  .binary (utf8 "+") (.literal .text (utf8 "\"a) b\"") ⟨0, 6⟩)
    (.foreign (utf8 "(v[1]>w)[ 0 ]") none ⟨7, 20⟩) ⟨0, 20⟩

/-- The tree of the text `fastmath.Sum("a) b",(v[1]>w)[ 0 ])`. -/
def sumCallExample : Expr Unit :=
  .call (.ident (utf8 "fastmath.Sum") ⟨0, 12⟩)
    [([], .literal .text (utf8 "\"a) b\"") ⟨13, 19⟩),
     ([], .foreign (utf8 "(v[1]>w)[ 0 ]") none ⟨20, 33⟩)] ⟨0, 34⟩

example : sumCallExample.listForm
    = utf8 "(#call fastmath.Sum \"a) b\" #<(v[1]>w)[ 0 ]>)" := rfl

theorem listForm_unambiguous_sumExample :
    (Relaxer.standard.relax sumExample).FromText ∧ sumCallExample.FromText ∧
    (Relaxer.standard.relax sumExample).listForm = sumCallExample.listForm ∧
    (Relaxer.standard.relax sumExample).equal sumCallExample = true := by
  have hsum : parse (utf8 "\"a) b\"+(v[1]>w)[ 0 ]") = .ok sumExample := by cbv
  have hcall : parse (utf8 "fastmath.Sum(\"a) b\",(v[1]>w)[ 0 ])") = .ok sumCallExample := by cbv
  have hwrites : Relaxer.standard.Writes :=
    ⟨rfl, scansAs_of_longest (by decide), scansAs_of_longest (by decide)⟩
  have hrelaxed : (Relaxer.standard.relax sumExample).FromText :=
    ⟨_, sumExample, hsum, .inr ⟨Relaxer.standard, hwrites, rfl⟩⟩
  have hparsed : sumCallExample.FromText := ⟨_, sumCallExample, hcall, .inl rfl⟩
  have hform : (Relaxer.standard.relax sumExample).listForm = sumCallExample.listForm := rfl
  exact ⟨hrelaxed, hparsed, hform, listForm_unambiguous hrelaxed hparsed hform⟩

end Expr

end RelaxArith
