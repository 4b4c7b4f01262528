/-
Operations of unknown operators, as operands.

A symbol that is no binary operator of expression text has no precedence.  It binds most loosely,
so that its operations are put into parentheses at every place that asks for any precedence at
all.  The left operand of another such symbol is a place that asks for none.

What a place asks for is the level of its frame.  The text of a tree at a place is part of the text
of the whole, and the rest of that text does not depend on it: two trees at the same place give the
same whole exactly if they give the same text at the level of the place.
-/
import RelaxArith.Proofs.Grammar
import RelaxArith.Proofs.Printing.Parentheses
import RelaxArith.Proofs.Stubs

namespace RelaxArith.Expr

open Grammar

variable {π : Type}

/-! ### Texts inside texts -/

/-- A text made from another one by writing something around it. -/
def Surrounds (g : Bytes → Bytes) : Prop := ∃ before behind, ∀ s, g s = before ++ s ++ behind

namespace Surrounds

variable {g : Bytes → Bytes}

protected theorem id : Surrounds fun s => s := ⟨[], [], fun s => by simp⟩

theorem append_left (h : Surrounds g) (t : Bytes) : Surrounds fun s => t ++ g s := by
  obtain ⟨before, behind, hg⟩ := h
  exact ⟨t ++ before, behind, fun s => by simp [hg]⟩

theorem append_right (h : Surrounds g) (t : Bytes) : Surrounds fun s => g s ++ t := by
  obtain ⟨before, behind, hg⟩ := h
  exact ⟨before, behind ++ t, fun s => by simp [hg]⟩

theorem parens (h : Surrounds g) (wanted : Bool) : Surrounds fun s => parens wanted (g s) := by
  cases wanted with
  | false => exact h
  | true => exact (h.append_left _).append_right _

theorem join (h : Surrounds g) (sep : Bytes) (before behind : List Bytes) :
    Surrounds fun s => Bytes.join sep (before ++ g s :: behind) := by
  induction before with
  | nil =>
    cases behind with
    | nil => exact h
    | cons t ts => exact (h.append_right _).append_right _
  | cons t ts ih =>
    have hcons : ∀ s, Bytes.join sep ((t :: ts) ++ g s :: behind)
        = (t ++ sep) ++ Bytes.join sep (ts ++ g s :: behind) := by
      cases ts <;> exact fun s => rfl
    simp only [hcons]
    exact ih.append_left _

theorem comp {f : Bytes → Bytes} (h : Surrounds g) (hf : Surrounds f) :
    Surrounds fun s => f (g s) := by
  obtain ⟨before, behind, hf⟩ := hf
  simp only [hf]
  exact (h.append_left _).append_right _

/-- What is surrounded can be told from the whole. -/
theorem injective (h : Surrounds g) : Function.Injective g := by
  obtain ⟨before, behind, hg⟩ := h
  intro s t heq
  rw [hg, hg] at heq
  exact List.append_cancel_left (List.append_cancel_right heq)

end Surrounds

/-! ### Places in a tree -/

/-- A node with one of its parts left out. -/
inductive Frame (π : Type) where
  | leftOperand (op : Bytes) (right : Expr π) (span : Span)
  | rightOperand (op : Bytes) (left : Expr π) (span : Span)
  | operand (op : Bytes) (span : Span)
  | element (before behind : List (Expr π)) (span : Span)
  | callee (args : List (Bytes × Expr π)) (span : Span)
  | argument (callee : Expr π) (before : List (Bytes × Expr π)) (label : Bytes)
      (behind : List (Bytes × Expr π)) (span : Span)
  | target (value : Expr π) (span : Span)
  | value (target : Expr π) (span : Span)

namespace Frame

/-- The node with its part put back. -/
def fill : Frame π → Expr π → Expr π
  | leftOperand op r s, e => .binary op e r s
  | rightOperand op l s, e => .binary op l e s
  | operand op s, e => .prefixed op e s
  | element before behind s, e => .group (before ++ e :: behind) s
  | callee args s, e => .call e args s
  | argument f before label behind s, e => .call f (before ++ (label, e) :: behind) s
  | target v s, e => .assign e v s
  | value t s, e => .assign t e s

/-- The level of the place. -/
def level : Frame π → Nat
  | leftOperand op _ _ => (Binding.ofAny op).leftLevel
  | rightOperand op _ _ => (Binding.ofAny op).rightLevel
  | operand _ _ => Binding.prefixLevel
  | callee _ _ => Binding.postfixLevel
  | target _ _ => 2
  | value _ _ => 1
  | element _ _ _ | argument _ _ _ _ _ => 0

/-- Is it the place of an operand? The elements of a grouping and the arguments of a call are
separated from each other anyway. -/
def isOperand : Frame π → Bool
  | element _ _ _ | argument _ _ _ _ _ => false
  | leftOperand _ _ _ | rightOperand _ _ _ | operand _ _ => true
  | callee _ _ | target _ _ | value _ _ => true

/-- Is it the place of the left operand of an unknown operator? -/
def isLeftOfUnknown : Frame π → Bool
  | leftOperand op _ _ => (Binding.of? op).isNone
  | _ => false

end Frame

/-- A tree with something put at a place in it. The frames are given from the root on. -/
def plug (frames : List (Frame π)) (e : Expr π) : Expr π := frames.foldr Frame.fill e

/-- The children of a node are what its frames leave out. -/
theorem mem_children_iff {c e : Expr π} : c ∈ e.children ↔ ∃ f : Frame π, e = f.fill c := by
  constructor
  · intro hc
    cases e with
    | absent | ident | literal | foreign => cases hc
    | binary op l r s =>
      obtain rfl | rfl : c = l ∨ c = r := by simpa [children] using hc
      · exact ⟨.leftOperand op r s, rfl⟩
      · exact ⟨.rightOperand op l s, rfl⟩
    | prefixed op x s =>
      rw [List.mem_singleton.mp hc]
      exact ⟨.operand op s, rfl⟩
    | group es s =>
      obtain ⟨before, behind, rfl⟩ := List.append_of_mem hc
      exact ⟨.element before behind s, rfl⟩
    | call f args s =>
      rcases List.mem_cons.mp hc with rfl | hc
      · exact ⟨.callee args s, rfl⟩
      · obtain ⟨⟨label, _⟩, ha, rfl⟩ := List.mem_map.mp hc
        obtain ⟨before, behind, rfl⟩ := List.append_of_mem ha
        exact ⟨.argument f before label behind s, rfl⟩
    | assign t v s =>
      obtain rfl | rfl : c = t ∨ c = v := by simpa [children] using hc
      · exact ⟨.target v s, rfl⟩
      · exact ⟨.value t s, rfl⟩
  · rintro ⟨f, rfl⟩
    cases f <;> simp [Frame.fill, children]

/-- Something stands in a tree exactly if the tree has a place for it. -/
theorem inside_iff_plug {x e : Expr π} : x.Inside e ↔ ∃ frames, e = plug frames x := by
  constructor
  · intro h
    induction h with
    | refl => exact ⟨[], rfl⟩
    | tail _ hc ih =>
      obtain ⟨frames, rfl⟩ := ih
      obtain ⟨f, rfl⟩ := mem_children_iff.mp hc
      exact ⟨f :: frames, rfl⟩
  · rintro ⟨frames, rfl⟩
    induction frames with
    | nil => exact .refl
    | cons f frames ih => exact ih.of_child (mem_children_iff.mpr ⟨f, rfl⟩)

theorem containsStub_fill_congr (f : Frame π) {x y : Expr π}
    (h : x.containsStub = y.containsStub) :
    (f.fill x).containsStub = (f.fill y).containsStub := by
  cases f <;> simp [Frame.fill, containsStub, containsStubAll_eq_any, containsStubArgs_eq_any, h]

theorem containsStub_plug_congr (frames : List (Frame π)) {x y : Expr π}
    (h : x.containsStub = y.containsStub) :
    (plug frames x).containsStub = (plug frames y).containsStub := by
  induction frames with
  | nil => exact h
  | cons f frames ih => exact containsStub_fill_congr f ih

/-! ### The text at a place -/

/-- The text of a node is something around the text of what was left out, at its level. -/
theorem textAt_fill (f : Frame π) (level : Nat) :
    ∃ g, Surrounds g ∧ ∀ x, (f.fill x).textAt level = g (x.textAt f.level) := by
  have hid := Surrounds.id
  cases f with
  | leftOperand op r s =>
    exact ⟨_, hid.append_right _ |>.append_right _ |>.append_right _ |>.append_right _ |>.parens _,
      fun x => textAt_binary level op x r s⟩
  | rightOperand op l s =>
    exact ⟨_, hid.append_left _ |>.parens _, fun x => textAt_binary level op l x s⟩
  | operand op s => exact ⟨_, hid.append_left _ |>.parens _, fun x => textAt_prefixed level op x s⟩
  | element before behind s =>
    refine ⟨_, hid.join (utf8 ", ") (before.map (textAt 0)) (behind.map (textAt 0))
      |>.append_left (utf8 "(") |>.append_right (utf8 ")"), fun x => ?_⟩
    rw [Frame.fill, textAt_group, List.map_append, List.map_cons]
    rfl
  | callee args s =>
    exact ⟨_, hid.append_right _ |>.append_right _ |>.append_right _,
      fun x => textAt_call level x args s⟩
  | argument callee before label behind s =>
    let text (a : Bytes × Expr π) : Bytes := argumentText a.1 (a.2.textAt 0)
    refine ⟨_, hid.append_left (if label.isEmpty then [] else label ++ utf8 ": ")
      |>.join (utf8 ", ") (before.map text) (behind.map text)
      |>.append_left (callee.textAt Binding.postfixLevel ++ utf8 "(")
      |>.append_right (utf8 ")"), fun x => ?_⟩
    rw [Frame.fill, textAt_call, List.map_append, List.map_cons]
    rfl
  | target v s =>
    exact ⟨_, hid.append_right _ |>.append_right _ |>.parens _, fun x => textAt_assign level x v s⟩
  | value t s => exact ⟨_, hid.append_left _ |>.parens _, fun x => textAt_assign level t x s⟩

/-- The text of a whole tree is something around the text of what stands at a place in it. -/
theorem textAt_plug (frames : List (Frame π)) (f : Frame π) (level : Nat) :
    ∃ g, Surrounds g ∧ ∀ x, (plug frames (f.fill x)).textAt level = g (x.textAt f.level) := by
  induction frames generalizing level with
  | nil => exact textAt_fill f level
  | cons f' frames ih =>
    obtain ⟨g', hsurrounds', htext'⟩ := textAt_fill f' level
    obtain ⟨g, hsurrounds, htext⟩ := ih f'.level
    refine ⟨_, hsurrounds.comp hsurrounds', fun x => ?_⟩
    exact (htext' _).trans (congrArg g' (htext x))

/-- Two trees at a place give the same text of the whole exactly if they give the same text at the
level of the place. -/
theorem textAt_plug_eq_iff (frames : List (Frame π)) (f : Frame π) (level : Nat) (x y : Expr π) :
    (plug frames (f.fill x)).textAt level = (plug frames (f.fill y)).textAt level ↔
      x.textAt f.level = y.textAt f.level := by
  obtain ⟨g, hsurrounds, htext⟩ := textAt_plug frames f level
  rw [htext, htext]
  exact hsurrounds.injective.eq_iff

/-! ### Unknown operators -/

/-- Known operators ask for some precedence on their left, unknown ones for none. -/
theorem leftLevel_pos_iff (op : Bytes) :
    0 < (Binding.ofAny op).leftLevel ↔ Binding.of? op ≠ none := by
  cases h : Binding.of? op with
  | none => simp [Binding.ofAny, h, Binding.leftLevel]
  | some b =>
    obtain ⟨hlo, hhi⟩ := level_of_mem (mem_of_binding h).1
    have hlevel : 0 < b.leftLevel := by
      rw [leftLevel_of_binding h]
      exact (levelBefore_bounds hlo hhi).1
    simpa [Binding.ofAny, h] using hlevel

/-- Every operator asks for some precedence on its right. -/
theorem rightLevel_pos (op : Bytes) : 0 < (Binding.ofAny op).rightLevel := by
  cases h : Binding.of? op with
  | none => simp [Binding.ofAny, h, Binding.rightLevel]
  | some b =>
    obtain ⟨hlo, hhi⟩ := level_of_mem (mem_of_binding h).1
    have hlevel : 0 < b.rightLevel := by
      rw [rightLevel_of_binding h]
      exact (levelAfter_bounds hlo hhi).1
    simpa [Binding.ofAny, h] using hlevel

/-- A place asks for some precedence exactly if it is one of an operand, but not the left one of an
unknown operator. -/
theorem Frame.level_pos_iff (f : Frame π) :
    0 < f.level ↔ f.isOperand = true ∧ f.isLeftOfUnknown = false := by
  cases f with
  | leftOperand op r s =>
    simp [level, isOperand, isLeftOfUnknown, leftLevel_pos_iff, Option.ne_none_iff_isSome]
  | rightOperand op l s => simp [level, isOperand, isLeftOfUnknown, rightLevel_pos]
  | operand => simp [level, isOperand, isLeftOfUnknown, Binding.prefixLevel]
  | callee => simp [level, isOperand, isLeftOfUnknown, Binding.postfixLevel]
  | target | value => simp [level, isOperand, isLeftOfUnknown]
  | element | argument => simp [level, isOperand]

theorem parens_true_ne (s : Bytes) : parens true s ≠ s := by
  intro h
  have hlength : ([0x28] ++ s ++ [0x29]).length = s.length := congrArg List.length h
  simp only [List.length_append, List.length_singleton] at hlength
  omega

/-- An operation of an unknown operator is parenthesized wherever some precedence is asked for. -/
theorem textAt_unknown {op : Bytes} (h : Binding.of? op = none) (l r : Expr π) (s : Span)
    (level : Nat) :
    (binary op l r s).textAt level = parens (0 < level) ((binary op l r s).textAt 0) := by
  have hbinding : Binding.ofAny op = ⟨0, .left⟩ := by rw [Binding.ofAny, h, Option.getD_none]
  rw [textAt_binary, textAt_binary, hbinding]
  rfl

/-- The grouping of such an operation has the same text exactly where some precedence is asked
for. -/
theorem textAt_group_eq_iff {op : Bytes} (h : Binding.of? op = none) (l r : Expr π) (s t : Span)
    (level : Nat) :
    (group [.binary op l r s] t).textAt level = (binary op l r s).textAt level ↔ 0 < level := by
  have hgroup : (group [.binary op l r s] t).textAt level
      = parens true ((binary op l r s).textAt 0) := by
    rw [textAt_group]
    rfl
  rw [hgroup, textAt_unknown h l r s level]
  by_cases hlevel : 0 < level
  · simp [hlevel]
  · simp only [hlevel, decide_false, iff_false]
    exact parens_true_ne _

/-- **When an operation of an unknown operator is parenthesized.** Let such an operation stand
anywhere in a tree without stubs. The tree has a text, and putting the operation into a grouping of
its own does not change that text exactly if the operation is an operand, but not the left operand
of an operation whose operator is unknown as well. -/
theorem unknown_operation_parenthesized_iff {op : Bytes} (hop : Binding.of? op = none)
    (frames : List (Frame π)) (f : Frame π) (l r : Expr π) (s t : Span)
    (hstubs : (plug frames (f.fill (.binary op l r s))).containsStub = false) :
    ∃ text, format (plug frames (f.fill (.binary op l r s))) = .ok text ∧
      (format (plug frames (f.fill (.group [.binary op l r s] t))) = .ok text ↔
        f.isOperand = true ∧ f.isLeftOfUnknown = false) := by
  have hsame : (group [.binary op l r s] t).containsStub = (binary op l r s).containsStub := by
    simp [containsStub, containsStubAll]
  have hstubs' := (containsStub_plug_congr frames (containsStub_fill_congr f hsame)).trans hstubs
  refine ⟨_, format_of_noStub hstubs, ?_⟩
  rw [format_of_noStub hstubs', Except.ok.injEq, textAt_plug_eq_iff, textAt_group_eq_iff hop,
    f.level_pos_iff]

/-- The tree of `a <=> b`. -/
def unknownExample : Expr Empty :=
  .binary (utf8 "<=>") (.ident (utf8 "a") .null) (.ident (utf8 "b") .null) .null

/-- The place of the argument in `f(…) * c`. -/
def argumentPlace : List (Frame Empty) :=
  [.leftOperand (utf8 "*") (.ident (utf8 "c") .null) .null,
    .argument (.ident (utf8 "f") .null) [] [] [] .null]

example : (plug argumentPlace (Frame.fill (.operand (utf8 "-") .null) unknownExample)).format
    = .ok (utf8 "f(-(a <=> b)) * c") := rfl

theorem unknown_operation_parenthesized_iff_argumentPlace :
    Binding.of? (utf8 "<=>") = none ∧
    ∃ text,
      format (plug argumentPlace (Frame.fill (.operand (utf8 "-") .null) unknownExample))
        = .ok text ∧
      format (plug argumentPlace
        (Frame.fill (.operand (utf8 "-") .null) (.group [unknownExample] .null))) = .ok text := by
  have hunknown : Binding.of? (utf8 "<=>") = none := by decide
  obtain ⟨text, htext, hiff⟩ := unknown_operation_parenthesized_iff hunknown argumentPlace
    (.operand (utf8 "-") .null) (.ident (utf8 "a") .null) (.ident (utf8 "b") .null) .null .null rfl
  exact ⟨hunknown, text, htext, hiff.mpr ⟨rfl, rfl⟩⟩

/-- As the left operand of another unknown operator an operation is an operand without
parentheses. -/
theorem unknown_operation_bare_on_the_left :
    let f : Frame Empty := .leftOperand (utf8 "<=>") (.ident (utf8 "c") .null) .null
    Binding.of? (utf8 "<=>") = none ∧ (f.fill unknownExample).containsStub = false ∧
      f.isOperand = true ∧ format (f.fill unknownExample) = .ok (utf8 "a <=> b <=> c") ∧
      format (f.fill (.group [unknownExample] .null)) = .ok (utf8 "(a <=> b) <=> c") :=
  ⟨rfl, rfl, rfl, rfl, rfl⟩

end RelaxArith.Expr
