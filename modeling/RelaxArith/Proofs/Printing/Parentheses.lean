/-
The parentheses of formatted text, as groupings of a tree.

Formatting inserts parentheses where the shape of a tree asks for them.  `parenthesize` inserts
groupings into the tree at the same places, so that the formatted text of a tree is the infix form
of the parenthesized tree, and what is read back from a formatted text can be stated without a
word about text.  Formatting fails for the one reason that it comes to a stub, wherever in the tree
that is.  `ungroup` takes groupings of one element away again, those that were inserted and those
that were there.
-/
import RelaxArith.Expr.Forms
import RelaxArith.Expr.Parenthesized
import RelaxArith.Proofs.Erasure

namespace RelaxArith.Expr

variable {π : Type}

/-- A grouping around a tree, if wanted. -/
def grouped (wanted : Bool) (e : Expr π) : Expr π := if wanted then .group [e] .null else e

theorem grouped_of_le {precedence level : Nat} (h : level ≤ precedence) (e : Expr π) :
    grouped (precedence < level) e = e := by
  rw [grouped, if_neg (by simpa using h)]

mutual

/-- A tree with a grouping wherever its text at a place of some level has parentheses. -/
def parenthesize (level : Nat) : Expr π → Expr π
  | absent k => absent k
  | ident n s => ident n s
  | literal t r s => literal t r s
  | binary op l r s =>
    let b := Binding.ofAny op
    grouped (b.precedence < level)
      (.binary op (l.parenthesize b.leftLevel) (r.parenthesize b.rightLevel) s)
  | prefixed op x s =>
    grouped (Binding.prefixLevel < level) (.prefixed op (x.parenthesize Binding.prefixLevel) s)
  | group es s => group (parenthesizeAll es) s
  | call f args s => call (f.parenthesize Binding.postfixLevel) (parenthesizeArgs args) s
  | assign t v s => grouped (1 < level) (.assign (t.parenthesize 2) (v.parenthesize 1) s)
  | foreign t p s => foreign t p s

/-- Several trees with the groupings of their texts. -/
def parenthesizeAll : List (Expr π) → List (Expr π)
  | [] => []
  | e :: es => e.parenthesize 0 :: parenthesizeAll es

/-- Arguments with the groupings of their texts. -/
def parenthesizeArgs : List (Bytes × Expr π) → List (Bytes × Expr π)
  | [] => []
  | (l, e) :: args => (l, e.parenthesize 0) :: parenthesizeArgs args

end

/-- The element of a grouping of one; any other grouping stays. -/
def single (es : List (Expr π)) (s : Span) : Expr π :=
  match es with
  | [e] => e
  | es => group es s

mutual

/-- A tree without its groupings of one element. -/
def ungroup : Expr π → Expr π
  | absent k => absent k
  | ident n s => ident n s
  | literal t r s => literal t r s
  | binary op l r s => binary op l.ungroup r.ungroup s
  | prefixed op x s => prefixed op x.ungroup s
  | group es s => single (ungroupAll es) s
  | call f args s => call f.ungroup (ungroupArgs args) s
  | assign t v s => assign t.ungroup v.ungroup s
  | foreign t p s => foreign t p s

/-- Several trees without their groupings of one element. -/
def ungroupAll : List (Expr π) → List (Expr π)
  | [] => []
  | e :: es => e.ungroup :: ungroupAll es

/-- Arguments without their groupings of one element. -/
def ungroupArgs : List (Bytes × Expr π) → List (Bytes × Expr π)
  | [] => []
  | (l, e) :: args => (l, e.ungroup) :: ungroupArgs args

end

/-! ### Lists of trees -/

theorem parenthesizeAll_eq_map (es : List (Expr π)) :
    parenthesizeAll es = es.map (parenthesize 0) := by
  induction es with
  | nil => rfl
  | cons e es ih => rw [parenthesizeAll, ih, List.map_cons]

theorem parenthesizeArgs_eq_map (args : List (Bytes × Expr π)) :
    parenthesizeArgs args = args.map fun a => (a.1, a.2.parenthesize 0) := by
  induction args with
  | nil => rfl
  | cons a args ih => rw [parenthesizeArgs, ih, List.map_cons]

theorem ungroupAll_eq_map (es : List (Expr π)) : ungroupAll es = es.map ungroup := by
  induction es with
  | nil => rfl
  | cons e es ih => rw [ungroupAll, ih, List.map_cons]

theorem ungroupArgs_eq_map (args : List (Bytes × Expr π)) :
    ungroupArgs args = args.map fun a => (a.1, a.2.ungroup) := by
  induction args with
  | nil => rfl
  | cons a args ih => rw [ungroupArgs, ih, List.map_cons]

theorem infixForms_eq_map (es : List (Expr π)) : infixForms es = es.map infixForm := by
  induction es with
  | nil => rfl
  | cons e es ih => rw [infixForms, ih, List.map_cons]

/-- The text of an argument: its label, if it has one, and the text of the tree. -/
def argumentText (label text : Bytes) : Bytes :=
  (if label.isEmpty then [] else label ++ utf8 ": ") ++ text

theorem infixArgs_eq_map (args : List (Bytes × Expr π)) :
    infixArgs args = args.map fun a => argumentText a.1 a.2.infixForm := by
  induction args with
  | nil => rfl
  | cons a args ih => rw [infixArgs, ih, List.map_cons]; rfl

/-! ### Infix forms of erased trees -/

/-- The infix form does not show what erasing forgets. -/
theorem infixForm_erase (e : Expr π) : e.erase.infixForm = e.infixForm := by
  induction e with
  | absent | ident | literal | foreign => rfl
  | binary op l r s hl hr => rw [erase, infixForm, infixForm, hl, hr]
  | prefixed op x s hx => rw [erase, infixForm, infixForm, hx]
  | group es s hes =>
    have htexts : infixForms (eraseAll es) = infixForms es := by
      rw [infixForms_eq_map, infixForms_eq_map, eraseAll_eq_map, List.map_map]
      exact List.map_congr_left hes
    rw [erase, infixForm, infixForm, htexts]
  | call f args s hf hargs =>
    have htexts : infixArgs (eraseArgs args) = infixArgs args := by
      rw [infixArgs_eq_map, infixArgs_eq_map, eraseArgs_eq_map, List.map_map]
      exact List.map_congr_left fun a ha => congrArg (argumentText a.1) (hargs a ha)
    rw [erase, infixForm, infixForm, hf, htexts]
  | assign t v s ht hv => rw [erase, infixForm, infixForm, ht, hv]

/-! ### The text of a tree at a place -/

/-- The text of a tree at a place of some level: the infix form of the tree with its groupings. -/
def textAt (level : Nat) (e : Expr π) : Bytes := (e.parenthesize level).infixForm

theorem infixForm_grouped (wanted : Bool) (e : Expr π) :
    (grouped wanted e).infixForm = parens wanted e.infixForm := by
  cases wanted with
  | false => rfl
  | true => rfl

theorem textAt_binary (level : Nat) (op : Bytes) (l r : Expr π) (s : Span) :
    (binary op l r s).textAt level =
      parens ((Binding.ofAny op).precedence < level)
        (l.textAt (Binding.ofAny op).leftLevel ++ utf8 " " ++ op ++ utf8 " " ++
          r.textAt (Binding.ofAny op).rightLevel) :=
  infixForm_grouped _ (.binary op (l.parenthesize _) (r.parenthesize _) s)

theorem textAt_prefixed (level : Nat) (op : Bytes) (x : Expr π) (s : Span) :
    (prefixed op x s).textAt level =
      parens (Binding.prefixLevel < level) (op ++ x.textAt Binding.prefixLevel) :=
  infixForm_grouped _ (.prefixed op (x.parenthesize _) s)

theorem textAt_group (level : Nat) (es : List (Expr π)) (s : Span) :
    (group es s).textAt level =
      utf8 "(" ++ Bytes.join (utf8 ", ") (es.map (textAt 0)) ++ utf8 ")" := by
  show utf8 "(" ++ Bytes.join (utf8 ", ") (infixForms (parenthesizeAll es)) ++ utf8 ")" = _
  rw [infixForms_eq_map, parenthesizeAll_eq_map, List.map_map]
  rfl

theorem textAt_call (level : Nat) (f : Expr π) (args : List (Bytes × Expr π)) (s : Span) :
    (call f args s).textAt level =
      f.textAt Binding.postfixLevel ++ utf8 "(" ++
        Bytes.join (utf8 ", ") (args.map fun a => argumentText a.1 (a.2.textAt 0)) ++
        utf8 ")" := by
  show f.textAt Binding.postfixLevel ++ utf8 "(" ++
    Bytes.join (utf8 ", ") (infixArgs (parenthesizeArgs args)) ++ utf8 ")" = _
  rw [infixArgs_eq_map, parenthesizeArgs_eq_map, List.map_map]
  rfl

theorem textAt_assign (level : Nat) (t v : Expr π) (s : Span) :
    (assign t v s).textAt level =
      parens (1 < level) (t.textAt 2 ++ utf8 " = " ++ v.textAt 1) :=
  infixForm_grouped _ (.assign (t.parenthesize 2) (v.parenthesize 1) s)

/-! ### Formatting gives the text, or comes to a stub -/

/-- A result, unless there is a stub in the way. -/
def unlessStub {α : Type} (stub : Bool) (a : α) : Except Fault α :=
  if stub then .error .missingNode else .ok a

theorem formatAll_eq {es : List (Expr π)}
    (h : ∀ e ∈ es, e.formatAt 0 = unlessStub e.containsStub (e.textAt 0)) :
    formatAll es = unlessStub (containsStubAll es) (es.map (textAt 0)) := by
  induction es with
  | nil => rfl
  | cons e es ih =>
    have hrest := ih fun x hx => h x (List.mem_cons_of_mem e hx)
    rw [formatAll, h e List.mem_cons_self, hrest, containsStubAll]
    cases e.containsStub <;> cases containsStubAll es <;> rfl

theorem formatArgs_eq {args : List (Bytes × Expr π)}
    (h : ∀ a ∈ args, a.2.formatAt 0 = unlessStub a.2.containsStub (a.2.textAt 0)) :
    formatArgs args = unlessStub (containsStubArgs args)
      (args.map fun a => argumentText a.1 (a.2.textAt 0)) := by
  induction args with
  | nil => rfl
  | cons a args ih =>
    have hrest := ih fun x hx => h x (List.mem_cons_of_mem a hx)
    rw [formatArgs, h a List.mem_cons_self, hrest, containsStubArgs]
    cases a.2.containsStub <;> cases containsStubArgs args <;> rfl

/-- At a place of any level, formatting fails if it comes to a stub and gives the text otherwise. -/
theorem formatAt_eq (e : Expr π) (level : Nat) :
    e.formatAt level = unlessStub e.containsStub (e.textAt level) := by
  induction e generalizing level with
  | absent k =>
    cases k with
    | none => rfl
    | some k => rfl
  | ident | literal | foreign => rfl
  | binary op l r s hl hr =>
    -- the first operand with a stub in it ends the formatting
    rw [formatAt, hl, hr, containsStub, textAt_binary]
    cases l.containsStub <;> cases r.containsStub <;> rfl
  | prefixed op x s hx =>
    rw [formatAt, hx, containsStub, textAt_prefixed]
    cases x.containsStub <;> rfl
  | group es s hes =>
    rw [formatAt, formatAll_eq fun e he => hes e he 0, containsStub, textAt_group]
    cases containsStubAll es <;> rfl
  | call f args s hf hargs =>
    rw [formatAt, hf, formatArgs_eq fun a ha => hargs a ha 0, containsStub, textAt_call]
    cases f.containsStub <;> cases containsStubArgs args <;> rfl
  | assign t v s ht hv =>
    rw [formatAt, ht, hv, containsStub, textAt_assign]
    cases t.containsStub <;> cases v.containsStub <;> rfl

theorem format_of_noStub {e : Expr π} (h : e.containsStub = false) :
    e.format = .ok (e.textAt 0) := by
  rw [format, formatAt_eq, h]
  rfl

/-! ### Ungrouping takes the inserted groupings away -/

theorem ungroup_grouped (wanted : Bool) (e : Expr π) : (grouped wanted e).ungroup = e.ungroup := by
  cases wanted with
  | false => rfl
  | true => rfl

theorem ungroup_parenthesize (level : Nat) (e : Expr π) :
    (e.parenthesize level).ungroup = e.ungroup := by
  induction e generalizing level with
  | absent | ident | literal | foreign => rfl
  | binary op l r s hl hr => rw [parenthesize, ungroup_grouped, ungroup, ungroup, hl, hr]
  | prefixed op x s hx => rw [parenthesize, ungroup_grouped, ungroup, ungroup, hx]
  | group es s hes =>
    have hall : ungroupAll (parenthesizeAll es) = ungroupAll es := by
      rw [ungroupAll_eq_map, ungroupAll_eq_map, parenthesizeAll_eq_map, List.map_map]
      exact List.map_congr_left fun e he => hes e he 0
    rw [parenthesize, ungroup, ungroup, hall]
  | call f args s hf hargs =>
    have hall : ungroupArgs (parenthesizeArgs args) = ungroupArgs args := by
      rw [ungroupArgs_eq_map, ungroupArgs_eq_map, parenthesizeArgs_eq_map, List.map_map]
      exact List.map_congr_left fun a ha => congrArg (Prod.mk a.1) (hargs a ha 0)
    rw [parenthesize, ungroup, ungroup, hf, hall]
  | assign t v s ht hv => rw [parenthesize, ungroup_grouped, ungroup, ungroup, ht, hv]

theorem erase_single (es : List (Expr π)) (s : Span) :
    (single es s).erase = single (eraseAll es) .null := by
  match es with
  | [] => rfl
  | [e] => rfl
  | e :: f :: es => rfl

/-- Ungrouping and erasing do not get into each other's way. -/
theorem erase_ungroup (e : Expr π) : e.ungroup.erase = e.erase.ungroup := by
  induction e with
  | absent | ident | literal | foreign => rfl
  | binary op l r s hl hr => rw [ungroup, erase, erase, ungroup, hl, hr]
  | prefixed op x s hx => rw [ungroup, erase, erase, ungroup, hx]
  | group es s hes =>
    have hall : eraseAll (ungroupAll es) = ungroupAll (eraseAll es) := by
      rw [eraseAll_eq_map, eraseAll_eq_map, ungroupAll_eq_map, ungroupAll_eq_map, List.map_map,
        List.map_map]
      exact List.map_congr_left hes
    rw [ungroup, erase_single, erase, ungroup, hall]
  | call f args s hf hargs =>
    have hall : eraseArgs (ungroupArgs args) = ungroupArgs (eraseArgs args) := by
      rw [eraseArgs_eq_map, eraseArgs_eq_map, ungroupArgs_eq_map, ungroupArgs_eq_map,
        List.map_map, List.map_map]
      exact List.map_congr_left fun a ha => congrArg (Prod.mk a.1) (hargs a ha)
    rw [ungroup, erase, erase, ungroup, hf, hall]
  | assign t v s ht hv => rw [ungroup, erase, erase, ungroup, ht, hv]

end RelaxArith.Expr
