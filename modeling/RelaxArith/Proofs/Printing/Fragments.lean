/-
Pieces of text and what they are read as.

A formatted text is put together from pieces.  What a piece is read as must not depend on the
place where it is put, only on what stands directly behind it: a number must not be followed by a
digit, a minus sign not by an equals sign.  `Fragment` is a piece of text with such a condition;
fragments are put one behind the other if each meets the condition of the one in front of it.

With that, each rule of the grammar has a counterpart for text: the text of a tree is made of the
texts of its parts, and is read as the tree if they are read as the parts.
-/
import RelaxArith.Proofs.Parser.Acceptance
import RelaxArith.Proofs.Parser.Places
import RelaxArith.Proofs.Printing.Parentheses

namespace RelaxArith

open Automaton Grammar RelaxArith.Expr

variable {π : Type}

/-- Wherever a text stands, if only what is behind it is as it must be, its tokens are something
in particular. -/
def Fragment (s : Bytes) (behind : Bytes → Prop) (is : Bytes → List Token → Prop) : Prop :=
  ∀ input u v : Bytes, input = u ++ (s ++ v) → behind v →
    ∃ ts, Spelled u.length s v ts ∧ is input ts

namespace Fragment

variable {s r : Bytes} {behind behind' : Bytes → Prop} {is is' : Bytes → List Token → Prop}

/-- One fragment behind another. -/
theorem append (hs : Fragment s behind is) (hr : Fragment r behind' is')
    (hmeet : ∀ v, behind' v → behind (r ++ v)) :
    Fragment (s ++ r) behind' fun input ts =>
      ∃ ts₁ ts₂, ts = ts₁ ++ ts₂ ∧ is input ts₁ ∧ is' input ts₂ := by
  intro input u v hin hv
  rw [List.append_assoc] at hin
  obtain ⟨ts₁, hspelled₁, his₁⟩ := hs input u (r ++ v) hin (hmeet v hv)
  rw [← List.append_assoc] at hin
  obtain ⟨ts₂, hspelled₂, his₂⟩ := hr input (u ++ s) v hin hv
  rw [List.length_append] at hspelled₂
  exact ⟨ts₁ ++ ts₂, hspelled₁.append hspelled₂, ts₁, ts₂, rfl, his₁, his₂⟩

theorem imp (hs : Fragment s behind is) (h : ∀ input ts, is input ts → is' input ts) :
    Fragment s behind is' := by
  intro input u v hin hv
  obtain ⟨ts, hspelled, his⟩ := hs input u v hin hv
  exact ⟨ts, hspelled, h input ts his⟩

theorem mono (hs : Fragment s behind is) (h : ∀ v, behind' v → behind v) :
    Fragment s behind' is :=
  fun input u v hin hv => hs input u v hin (h v hv)

end Fragment

/-! ### Pieces of one token -/

/-- A row of one token, of a category and with a text. -/
def IsToken (c : Category) (w : Bytes) (_input : Bytes) (ts : List Token) : Prop :=
  ∃ t, ts = [t] ∧ t.category = c ∧ t.lexeme = w

/-- Anything may stand behind it. -/
def Anything (_v : Bytes) : Prop := True

theorem separated_cons {b : UInt8} (hb : isSeparator b = true) (v : Bytes) :
    Separated (b :: v) := by
  intro c hc
  cases hc
  exact hb

theorem fragment_word {c : Category} {w : Bytes}
    (h : longest .start w = some (.token c, w.length)) :
    Fragment w Separated (IsToken c w) := by
  intro input u v _ hv
  have hwhole : Token.IsWhole ⟨c, w, .null⟩ := h
  exact ⟨_, hwhole.spelled u.length hv, _, rfl, rfl, rfl⟩

/-- No token goes on behind a punctuation mark. -/
theorem fragment_mark (mark : String) (h : utf8 mark ∈ marks) :
    Fragment (utf8 mark) Anything (IsToken .punctuation (utf8 mark)) := by
  have hrun : ∀ m ∈ marks, run .start m = some .punctuation := by decide
  intro input u v _ _
  have hlong := longest_of_run (v := v) (hrun _ h) rfl (fun b _ => rfl)
  exact ⟨_, .one hlong u.length, _, rfl, rfl, rfl⟩

theorem fragment_blank : Fragment (utf8 " ") Anything fun _ ts => ts = [] := by
  intro input u v _ _
  exact ⟨[], .blank rfl (.nil _ v), rfl⟩

/-- A binary operator, with blanks around it. -/
theorem fragment_operator {k : Nat} {op : Bytes} (h : op ∈ operatorsAt k) :
    Fragment (utf8 " " ++ op ++ utf8 " ") Anything (IsToken .operator op) := by
  have hlong : ∀ k ∈ List.range 7, ∀ op ∈ operatorsAt k,
      longest .start op = some (.token .operator, op.length) := by decide
  have hword := hlong k (List.mem_range.mpr (by have := level_of_mem h; omega)) op h
  have hpiece := (fragment_blank.append (fragment_word hword)
    fun v _ => trivial).append fragment_blank fun v _ => separated_cons rfl v
  refine hpiece.imp ?_
  rintro input ts ⟨_, _, rfl, ⟨_, _, rfl, rfl, his⟩, rfl⟩
  rwa [List.append_nil]

/-- What may stand behind a sign. -/
def NoEquals (v : Bytes) : Prop := ∀ b ∈ v.head?, b ≠ 0x3D

theorem fragment_sign {op : Bytes} (h : op ∈ signs) :
    Fragment op NoEquals (IsToken .operator op) := by
  have hrun : ∀ op ∈ signs, run .start op = some .operator := by decide
  intro input u v _ hv
  have hstop : ∀ b ∈ v.head?, State.next .operator b = none := by
    intro b hb
    simp [State.next, hv b hb]
  exact ⟨_, .one (longest_of_run (hrun op h) rfl hstop) u.length, _, rfl, rfl, rfl⟩

/-! ### Phrases

What is read differs from place to place in its spans, so a text is read as a phrase up to
erasing.
-/

/-- A text is read as a phrase, with nothing or a separator behind it. -/
def ReadsAs (π : Type) (s : Bytes) (p : Phrase Empty) : Prop := Fragment s Separated (IsPhrase π p)

theorem ReadsAs.loosen {s : Bytes} {j k : Nat} {e : Expr Empty} (h : ReadsAs π s (.expr k e))
    (hj : 1 ≤ j) (hjk : j ≤ k) (hk : k ≤ 9) : ReadsAs π s (.expr j e) :=
  Fragment.imp h fun _ _ his => his.loosen hj hjk hk

/-- The text of an expression does not begin with an equals sign. -/
theorem noEquals_of_opens {n : Nat} {s v : Bytes} {t : Token} {ts : List Token}
    (h : Spelled n s v (t :: ts)) (ht : t.Opens) : NoEquals (s ++ v) := by
  cases h with
  | blank hb h =>
    rintro b ⟨⟩ rfl
    exact absurd hb (by decide)
  | @token _ c w s _ _ hw h =>
    have hpos := longest_start_pos hw
    cases w with
    | nil => simp at hpos
    | cons b w =>
      rintro b ⟨⟩ rfl
      have hoperator : c = .operator := operator_of_equals hw
      subst hoperator
      rcases ht with h | h | h | h | ⟨_, h⟩
      · cases h
      · cases h
      · cases h
      · cases h.1
      · have hhead : ∀ op ∈ signs, op.head? ≠ some 0x3D := by decide
        exact hhead _ h rfl

theorem ReadsAs.noEquals {s : Bytes} {k : Nat} {e : Expr Empty} (h : ReadsAs π s (.expr k e))
    {v : Bytes} (hv : Separated v) : NoEquals (s ++ v) := by
  obtain ⟨ts, hspelled, his⟩ := h (s ++ v) [] v rfl hv
  obtain ⟨e', hderives, _⟩ := his.expr
  obtain ⟨t, rest, rfl, hopens, _⟩ := hderives.begins
  exact noEquals_of_opens hspelled hopens

/-! ### One rule after the other -/

theorem reads_name {w : Bytes} (h : longest .start w = some (.token .name, w.length)) :
    ReadsAs π w (.expr 9 (.ident w .null)) := by
  refine (fragment_word h).imp ?_
  rintro input ts ⟨t, rfl, hcat, rfl⟩
  exact .name hcat

theorem reads_number {w : Bytes} (h : longest .start w = some (.token .number, w.length)) :
    ReadsAs π w (.expr 9 (.literal .number w .null)) := by
  refine (fragment_word h).imp ?_
  rintro input ts ⟨t, rfl, hcat, rfl⟩
  exact .number hcat

theorem reads_text {w : Bytes} (h : longest .start w = some (.token .text, w.length)) :
    ReadsAs π w (.expr 9 (.literal .text w .null)) := by
  refine (fragment_word h).imp ?_
  rintro input ts ⟨t, rfl, hcat, rfl⟩
  exact .text hcat

theorem reads_operation {k : Nat} {op s r : Bytes} {x y : Expr Empty} (hop : op ∈ operatorsAt k)
    (hs : ReadsAs π s (.expr (levelBefore k) x))
    (hr : ReadsAs π r (.expr (levelAfter k) y)) :
    ReadsAs π (s ++ (utf8 " " ++ op ++ utf8 " " ++ r)) (.expr k (operationNode op x y)) := by
  have hright := (fragment_operator hop).append hr fun v _ => trivial
  refine (Fragment.append hs hright fun v _ => separated_cons rfl _).imp ?_
  rintro input ts ⟨ts, _, rfl, hl, _, us, rfl, ⟨t, rfl, hcat, rfl⟩, hr⟩
  exact .combine hcat hop hl hr

theorem reads_prefixed {op s : Bytes} {x : Expr Empty} (hop : op ∈ signs)
    (hs : ReadsAs π s (.expr 7 x)) : ReadsAs π (op ++ s) (.expr 7 (.prefixed op x .null)) := by
  refine ((fragment_sign hop).append hs fun v hv => hs.noEquals hv).imp ?_
  rintro input ts ⟨_, us, rfl, ⟨t, rfl, hcat, rfl⟩, hx⟩
  exact .prefixed hcat hop hx

/-- A text in parentheses. -/
theorem fragment_enclosed {s : Bytes} {p : Phrase Empty} (h : ReadsAs π s p) :
    Fragment (utf8 "(" ++ (s ++ utf8 ")")) Anything fun input ts =>
      ∃ o us c, ts = o :: (us ++ [c]) ∧ o.IsPunctuation "(" ∧ c.IsPunctuation ")" ∧
        IsPhrase π p input us := by
  have hclose := Fragment.append h (fragment_mark ")" (by decide))
    fun v _ => separated_cons rfl _
  refine ((fragment_mark "(" (by decide)).append hclose fun v _ => trivial).imp ?_
  rintro input ts ⟨_, _, rfl, ⟨o, rfl, hocat, ho⟩, us, _, rfl, hp, c, rfl, hccat, hc⟩
  exact ⟨o, us, c, rfl, ⟨hocat, ho⟩, ⟨hccat, hc⟩, hp⟩

theorem reads_group {s : Bytes} {es : List (Expr Empty)} (h : ReadsAs π s (.elements es)) :
    ReadsAs π (utf8 "(" ++ (s ++ utf8 ")")) (.expr 9 (.group es .null)) := by
  refine ((fragment_enclosed h).mono fun v _ => trivial).imp ?_
  rintro input ts ⟨o, us, c, rfl, ho, hc, hes⟩
  exact .group ho hes hc

theorem reads_call {f s : Bytes} {x : Expr Empty} {args : List (Bytes × Expr Empty)}
    (hf : ReadsAs π f (.expr 8 x)) (hs : ReadsAs π s (.arguments args)) :
    ReadsAs π (f ++ (utf8 "(" ++ (s ++ utf8 ")"))) (.expr 8 (.call x args .null)) := by
  have henclosed : Fragment _ Separated _ := (fragment_enclosed hs).mono fun v _ => trivial
  refine (Fragment.append hf henclosed fun v _ => separated_cons rfl _).imp ?_
  rintro input ts ⟨ts, _, rfl, hx, o, us, c, rfl, ho, hc, hargs⟩
  exact hx.call ho hargs hc

/-! ### Lists -/

/-- A comma and a blank. -/
theorem fragment_comma : Fragment (utf8 ", ") Anything (IsToken .punctuation (utf8 ",")) := by
  have hpiece := (fragment_mark "," (by decide)).append fragment_blank
    fun v _ => trivial
  refine Fragment.imp hpiece ?_
  rintro input ts ⟨_, _, rfl, his, rfl⟩
  rwa [List.append_nil]

/-- Fragments with commas between them. The list of one is the last, and a list grows in front. -/
theorem fragment_join {α : Type} {xs : List α} {text : α → Bytes}
    {is : α → Bytes → List Token → Prop} (all : List α → Bytes → List Token → Prop)
    (hlast : ∀ x input ts, is x input ts → all [x] input ts)
    (hnext : ∀ x xs input ts t us, is x input ts → t.IsPunctuation "," → all xs input us →
      all (x :: xs) input (ts ++ t :: us))
    (hne : xs ≠ []) (h : ∀ x ∈ xs, Fragment (text x) Separated (is x)) :
    Fragment (Bytes.join (utf8 ", ") (xs.map text)) Separated (all xs) := by
  induction xs with
  | nil => exact absurd rfl hne
  | cons x xs ih =>
    have hfirst := h x (List.mem_cons_self ..)
    cases xs with
    | nil => exact hfirst.imp (hlast x)
    | cons y xs =>
      have hrest := ih (by simp) fun z hz => h z (List.mem_cons_of_mem x hz)
      have htail := fragment_comma.append hrest fun v _ => trivial
      have hall := hfirst.append htail fun v _ => separated_cons rfl _
      rw [← List.append_assoc] at hall
      refine Fragment.imp hall ?_
      rintro input ts ⟨ts, _, rfl, his, _, us, rfl, ⟨t, rfl, hcat, hlex⟩, hus⟩
      exact hnext x (y :: xs) input ts t us his ⟨hcat, hlex⟩ hus

theorem reads_elements {es : List (Expr π)} {text : Expr π → Bytes} {tree : Expr π → Expr Empty}
    (hne : es ≠ []) (h : ∀ e ∈ es, ReadsAs π (text e) (.expr 1 (tree e))) :
    ReadsAs π (Bytes.join (utf8 ", ") (es.map text)) (.elements (es.map tree)) := by
  refine fragment_join (fun es => IsPhrase π (.elements (es.map tree))) ?_ ?_ hne h
  · intro e input ts he
    exact he.lastElement
  · intro e es input ts t us he ht hes
    exact he.nextElement ht hes

/-- A colon and a blank. -/
theorem fragment_colon : Fragment (utf8 ": ") Anything (IsToken .punctuation (utf8 ":")) := by
  have hpiece := (fragment_mark ":" (by decide)).append fragment_blank fun v _ => trivial
  refine Fragment.imp hpiece ?_
  rintro input ts ⟨_, _, rfl, his, rfl⟩
  rwa [List.append_nil]

theorem reads_argument {label s : Bytes} {e : Expr Empty}
    (hlabel : label = [] ∨ longest .start label = some (.token .name, label.length))
    (hs : ReadsAs π s (.expr 1 e)) :
    ReadsAs π (argumentText label s) (.argument (label, e)) := by
  by_cases hempty : label = []
  · subst hempty
    exact Fragment.imp hs fun _ _ he => he.unlabeled
  · have hword := hlabel.resolve_left hempty
    have hcolon := fragment_colon.append hs fun v _ => trivial
    have hall := (fragment_word hword).append hcolon fun v _ => separated_cons rfl _
    rw [← List.append_assoc] at hall
    rw [argumentText, if_neg (by simpa using hempty)]
    refine Fragment.imp hall ?_
    rintro input ts ⟨_, _, rfl, ⟨t, rfl, hcat, rfl⟩, _, us, rfl, ⟨c, rfl, hccat, hc⟩, he⟩
    exact he.labeled hcat ⟨hccat, hc⟩

theorem reads_argumentList {args : List (Bytes × Expr π)} {text : Expr π → Bytes}
    {tree : Expr π → Expr Empty} (hne : args ≠ [])
    (h : ∀ a ∈ args, ReadsAs π (argumentText a.1 (text a.2)) (.argument (a.1, tree a.2))) :
    ReadsAs π (Bytes.join (utf8 ", ") (args.map fun a => argumentText a.1 (text a.2)))
      (.argumentList (args.map fun a => (a.1, tree a.2))) := by
  refine fragment_join
    (fun args => IsPhrase π (.argumentList (args.map fun a => (a.1, tree a.2)))) ?_ ?_ hne h
  · intro a input ts ha
    exact ha.lastArgument
  · intro a args input ts t us ha ht hargs
    exact ha.nextArgument ht hargs

theorem reads_arguments {args : List (Bytes × Expr π)} {text : Expr π → Bytes}
    {tree : Expr π → Expr Empty}
    (h : ∀ a ∈ args, ReadsAs π (argumentText a.1 (text a.2)) (.argument (a.1, tree a.2))) :
    ReadsAs π (Bytes.join (utf8 ", ") (args.map fun a => argumentText a.1 (text a.2)))
      (.arguments (args.map fun a => (a.1, tree a.2))) := by
  by_cases hne : args = []
  · subst hne
    intro input u v _ _
    exact ⟨[], .nil _ v, .noArguments⟩
  · exact Fragment.imp (reads_argumentList hne h) fun _ _ hargs => hargs.someArguments

/-! ### Whole texts -/

theorem parse_of_reads {s : Bytes} {e : Expr Empty} (h : ReadsAs π s (.expr 1 e)) :
    ∃ e' : Expr π, parse s = .ok e' ∧ e'.erase = e := by
  obtain ⟨ts, hspelled, his⟩ := h s [] [] (by simp) (by simp [Separated])
  obtain ⟨e', hderives, herase⟩ := his.expr
  exact ⟨e', parse_eq_ok_iff.mpr ⟨ts, hspelled, hderives⟩, herase⟩

/-- What is an expression on its own is the same expression everywhere. -/
theorem reads_of_parse {w : Bytes} {e : Expr π} (h : parse w = .ok e) :
    ReadsAs π w (.expr 1 e.erase) := by
  obtain ⟨ts, hspelled, hderives⟩ := parse_eq_ok_iff.mp h
  intro input u v hin hv
  have halone : w = [] ++ (w ++ []) := by rw [List.nil_append, List.append_nil]
  exact ⟨_, (hspelled.move (Nat.le_refl 0) u.length).before hv,
    hderives.transfer halone hin hspelled.ordered (within_of_spelled hspelled)⟩

/-! ### Constructs that are only transported -/

/-- A subscript is derived as tightly as a subscript can be. -/
theorem Grammar.Derives.tighten_foreign {input : Bytes} {ts : List Token} {k : Nat} {w : Bytes}
    {q : Option π} {s : Span} (h : Derives input ts (.expr k (.foreign w q s))) (hk : k ≤ 8) :
    Derives input ts (.expr 8 (.foreign w q s)) := by
  generalize hp : Phrase.expr k (.foreign w q s) = p at h
  induction h generalizing k with
  | @tighter j ts e hlo hhi h ih =>
    cases hp
    rcases Nat.lt_or_ge j 8 with hlt | hge
    · exact ih hlt rfl
    · have heq : j = 8 := by omega
      subst heq
      exact .tighter hlo hhi h
  | subscript he ho hi hc =>
    cases hp
    exact .subscript he ho hi hc
  | assignment | compound | operation | prefixed | call | name | number | text | group
  | lastElement | nextElement | unlabeled | labeled | lastArgument | nextArgument | noArguments
  | someArguments => cases hp

theorem Grammar.IsPhrase.tighten_foreign {input : Bytes} {ts : List Token} {k : Nat} {w : Bytes}
    (h : IsPhrase π (.expr k (.foreign w none .null)) input ts) (hk : k ≤ 8) :
    IsPhrase π (.expr 8 (.foreign w none .null)) input ts := by
  obtain ⟨e', hderives, he⟩ := h.expr
  cases e' with
  | foreign w' q' s' =>
    cases he
    exact (hderives.tighten_foreign hk).isPhrase
  | absent | ident | literal | binary | prefixed | group | call | assign => cases he

/-- What is a subscript on its own is a subscript everywhere. -/
theorem reads_foreign {w : Bytes} {q : Option π} {s : Span} (h : parse w = .ok (.foreign w q s)) :
    ReadsAs π w (.expr 8 (.foreign w none .null)) :=
  (reads_of_parse h).imp fun _ _ his => his.tighten_foreign (by decide)

end RelaxArith
