/-
Exchanging trees with Go loses nothing.

A Go expression becomes a tree, the tree is relaxed, and the relaxed tree becomes a Go expression
again.  The last step can fail: tuples, labels, assignments and most operators have no Go form.  It
does not, because of what a tree looks like that came from Go.  Such a tree *has a Go form*: its
operators are Go's, its groupings are pairs of parentheses, its arguments have no labels, and what
the tree model does not look into is carried along as a whole.  Relaxing puts in nothing but calls,
parentheses and minus signs, so the relaxed tree has a Go form as well.

On the way back the names of an expression are taken apart at their dots and the kind of a literal
is guessed from its text.  Neither shows in the tree that the result becomes again.
-/
import Mathlib.Data.List.Forall2
import RelaxArith.Proofs.Congruence
import RelaxArith.Proofs.Except
import RelaxArith.Proofs.Host.Trees

namespace RelaxArith

/-! ### What is carried along -/

namespace Expr

variable {π : Type}

mutual

/-- What the foreign nodes of a tree carry, from left to right. -/
def payloads : Expr π → List (Option π)
  | absent _ => []
  | ident .. => []
  | literal .. => []
  | binary _ l r _ => l.payloads ++ r.payloads
  | prefixed _ x _ => x.payloads
  | group es _ => payloadsAll es
  | call f args _ => f.payloads ++ payloadsArgs args
  | assign t v _ => t.payloads ++ v.payloads
  | foreign _ p _ => [p]

/-- What the foreign nodes of several trees carry. -/
def payloadsAll : List (Expr π) → List (Option π)
  | [] => []
  | e :: es => e.payloads ++ payloadsAll es

/-- What the foreign nodes of arguments carry. -/
def payloadsArgs : List (Bytes × Expr π) → List (Option π)
  | [] => []
  | (_, e) :: args => e.payloads ++ payloadsArgs args

end

theorem payloads_withSpan (s : Span) (e : Expr π) :
    (Relaxer.withSpan s e).payloads = e.payloads := by
  cases e with
  | absent | ident | literal | binary | prefixed | group | call | assign | foreign => rfl

theorem payloads_negate (e : Expr π) : e.negate.payloads = e.payloads := by
  rw [negate, payloads]
  by_cases hgroup : e.needsGrouping = true
  · rw [if_pos hgroup, payloads, payloadsAll, payloadsAll, List.append_nil]
  · rw [if_neg hgroup]

theorem payloads_relaxedCall (name : Bytes) (l r : Expr π) :
    (Relaxer.relaxedCall name l r).payloads = l.payloads ++ r.payloads := by
  simp [Relaxer.relaxedCall, callOf, payloads, payloadsArgs]

/-- Sums, differences and products carry along what their operands do. -/
theorem payloads_combine (rx : Relaxer) {c : Combine} (hc : c ∈ Combine.arithmetic)
    (l r : Expr π) : (rx.combine c l r).payloads = l.payloads ++ r.payloads :=
  Relaxer.combine_of_negate hc payloads_relaxedCall payloads_negate l r

end Expr

namespace Host

open RelaxArith.Expr

/-! ### Names -/

/-- The pieces between separators, put together again. -/
theorem splitOnByte_eq_cons (sep : UInt8) (s : Bytes) :
    ∃ first rest, Bytes.splitOnByte sep s = first :: rest ∧
      first ++ rest.flatMap (fun piece => sep :: piece) = s := by
  induction s with
  | nil => exact ⟨[], [], rfl, rfl⟩
  | cons c cs ih =>
    obtain ⟨first, rest, hsplit, hjoin⟩ := ih
    by_cases hc : c = sep
    · refine ⟨[], first :: rest, ?_, ?_⟩
      · rw [Bytes.splitOnByte, if_pos hc, hsplit]
      · rw [List.flatMap_cons, List.nil_append, List.cons_append, hjoin, hc]
    · refine ⟨c :: first, rest, ?_, ?_⟩
      · rw [Bytes.splitOnByte, if_neg hc, hsplit]
      · rw [List.cons_append, hjoin]

namespace Node

theorem qualifiedName?_foldl (sels : List Bytes) {x : Node} {q : Bytes}
    (h : x.qualifiedName? = some q) :
    (sels.foldl (fun x sel => .selector x sel 0) x).qualifiedName?
      = some (q ++ sels.flatMap fun sel => 0x2E :: sel) := by
  induction sels generalizing x q with
  | nil => simpa using h
  | cons sel sels ih =>
    have hx : (Node.selector x sel 0).qualifiedName? = some (q ++ utf8 "." ++ sel) := by
      rw [qualifiedName?, h, Option.map_some]
    rw [List.foldl_cons, ih hx, List.flatMap_cons, List.append_assoc, List.append_assoc]
    rfl

/-- The expression for a name spells that name. -/
theorem qualifiedName?_ofName (name : Bytes) : (ofName name).qualifiedName? = some name := by
  obtain ⟨first, rest, hsplit, hjoin⟩ := splitOnByte_eq_cons 0x2E name
  rw [ofName, hsplit, qualifiedName?_foldl rest rfl, hjoin]

/-- What holds of names and of selections from it holds of the expression for a name. -/
theorem ofName_induct {motive : Node → Prop} (ident : ∀ name, motive (.ident name 0 false))
    (selector : ∀ x sel, motive x → motive (.selector x sel 0)) (name : Bytes) :
    motive (ofName name) := by
  have hchain : ∀ (sels : List Bytes) {x : Node}, motive x →
      motive (sels.foldl (fun x sel => Node.selector x sel 0) x) := by
    intro sels
    induction sels with
    | nil => exact fun hx => hx
    | cons sel sels ih => exact fun hx => ih (selector _ sel hx)
  obtain ⟨first, rest, hsplit, _⟩ := splitOnByte_eq_cons 0x2E name
  rw [ofName, hsplit]
  exact hchain rest (ident first)

theorem proper_ofName (name : Bytes) : (ofName name).Proper :=
  ofName_induct (fun name => .ident name 0 false) (fun _ _ hx => .selector hx) name

/-- What spells a name becomes that name. -/
theorem toExpr_of_qualifiedName? {x : Node} {q : Bytes} (h : x.qualifiedName? = some q) :
    x.toExpr = .ident q ⟨x.pos, x.stop⟩ := by
  cases x with
  | ident name p res =>
    rw [← Option.some.inj h]
    rfl
  | selector x sel p =>
    rw [toExpr]
    simp only [h]
  | missing | literal | binary | unary | paren | call | other => cases h

/-- The type of a literal whose kind was guessed is the one that the guess began with. -/
theorem toExpr_literalKind (type : LiteralType) (raw : Bytes) (p w : Nat) :
    (Node.literal (literalKind type raw) raw p w).toExpr = .literal type raw ⟨p, p + w⟩ := by
  have htype : (if (literalKind type raw = .text || literalKind type raw = .char) = true
      then LiteralType.text else .number) = type := by
    cases type with
    | text =>
      rw [literalKind]
      split <;> rfl
    | number =>
      rw [literalKind]
      split
      · rfl
      split
      · split <;> rfl
      split <;> rfl
  simp only [toExpr, htype]
  rfl

/-! ### Constructs that are only transported -/

/-- The tree of a construct is a foreign node that carries it. -/
def Transported (x : Node) : Prop :=
  x.toExpr = .foreign x.short (some (.node x)) ⟨x.pos, x.stop⟩

theorem transported_other (form : Form) (parts : List Node) : (other form parts).Transported := by
  rw [Transported, toExpr]

theorem transported_selector {x : Node} {sel : Bytes} {p : Nat}
    (h : (selector x sel p).qualifiedName? = none) : (selector x sel p).Transported := by
  rw [Transported, toExpr]
  simp only [h]

theorem transported_call {fn : Node} {args : List Node} {p e q : Nat} (he : e ≠ 0) :
    (call fn args p e q).Transported := by
  rw [Transported, toExpr, if_neg he]

end Node

/-! ### Trees with a Go form -/

/-- A tree with a Go form; what its foreign nodes carry could stand in a Go program. -/
inductive HasGoForm : Expr Payload → Prop
  | ident (n : Bytes) (s : Span) : HasGoForm (.ident n s)
  | literal (t : LiteralType) (raw : Bytes) (s : Span) : HasGoForm (.literal t raw s)
  | binary {op : Bytes} {l r : Expr Payload} {s : Span} (hop : op ∈ binaryOperators)
      (hl : HasGoForm l) (hr : HasGoForm r) : HasGoForm (.binary op l r s)
  | prefixed {op : Bytes} {x : Expr Payload} {s : Span} (hop : op ∈ unaryOperators)
      (hx : HasGoForm x) : HasGoForm (.prefixed op x s)
  | paren {x : Expr Payload} {s : Span} (hx : HasGoForm x) : HasGoForm (.group [x] s)
  | call {f : Expr Payload} {args : List (Bytes × Expr Payload)} {s : Span} (hf : HasGoForm f)
      (hlabels : ∀ a ∈ args, a.1 = []) (hargs : ∀ a ∈ args, HasGoForm a.2) :
      HasGoForm (.call f args s)
  | foreign {x : Node} {s : Span} (hx : x.Transported) (hproper : x.Proper) :
      HasGoForm (.foreign x.short (some (.node x)) s)

theorem Node.toArgs_eq_map (xs : List Node) : Node.toArgs xs = xs.map fun x => ([], x.toExpr) := by
  induction xs with
  | nil => rfl
  | cons x xs ih => rw [Node.toArgs, ih, List.map_cons]

/-- The tree of a Go expression has a Go form. -/
theorem Node.Proper.hasGoForm {x : Node} (h : x.Proper) : HasGoForm x.toExpr := by
  induction h with
  | ident name p res => exact .ident name _
  | literal k raw p w => exact .literal _ raw _
  | @selector x sel p hx _ =>
    cases hq : (Node.selector x sel p).qualifiedName? with
    | none =>
      have ht := Node.transported_selector hq
      rw [ht]
      exact .foreign ht (.selector hx)
    | some q =>
      rw [Node.toExpr_of_qualifiedName? hq]
      exact .ident q _
  | binary hop _ _ ihx ihy => exact .binary hop ihx ihy
  | unary hop _ ihx => exact .prefixed hop ihx
  | paren _ ihx => exact .paren ihx
  | @call fn args p e q hfn hargs ihfn ihargs =>
    by_cases he : e = 0
    · rw [Node.toExpr, if_pos he, Node.toArgs_eq_map]
      refine .call ihfn ?_ ?_
      · intro a ha
        obtain ⟨x, _, rfl⟩ := List.mem_map.mp ha
        rfl
      · intro a ha
        obtain ⟨x, hx, rfl⟩ := List.mem_map.mp ha
        exact ihargs x hx
    · have ht := @Node.transported_call fn args p e q he
      rw [ht]
      exact .foreign ht (.call hfn hargs)
  | @other form parts hparts _ =>
    have ht := Node.transported_other form parts
    rw [ht]
    exact .foreign ht (.other hparts)

/-! ### The way back -/

theorem exists_ofArgs {args : List (Bytes × Expr Payload)} (hlabels : ∀ a ∈ args, a.1 = [])
    (h : ∀ a ∈ args, ∃ y, Node.ofExpr a.2 = .ok y ∧ y.Proper ∧ y.toExpr.erase = a.2.erase) :
    ∃ ys, Node.ofArgs args = .ok ys ∧ (∀ y ∈ ys, y.Proper) ∧
      eraseArgs (Node.toArgs ys) = eraseArgs args := by
  induction args with
  | nil => exact ⟨[], rfl, nofun, rfl⟩
  | cons a args ih =>
    obtain ⟨label, e⟩ := a
    rw [List.forall_mem_cons] at hlabels h
    obtain ⟨y, hy, hproper, herase⟩ := h.1
    obtain ⟨ys, hys, hpropers, herases⟩ := ih hlabels.2 h.2
    have hlabel : label = [] := hlabels.1
    refine ⟨y :: ys, ?_, ?_, ?_⟩
    · have hempty : label.isEmpty = true := by rw [hlabel]; rfl
      rw [Node.ofArgs, if_pos hempty, hy, hys]
    · exact List.forall_mem_cons.mpr ⟨hproper, hpropers⟩
    · rw [Node.toArgs, eraseArgs, eraseArgs, herase, herases, hlabel]

/-! The Go expression of a tree is put together from those of its parts. -/

section Equations

attribute [local simp] Node.ofExpr Node.ofArgs Except.bind

theorem ofExpr_binary (op : Bytes) (l r : Expr Payload) (s : Span) :
    Node.ofExpr (.binary op l r s) =
      if op ∈ binaryOperators then
        (Node.ofExpr l).bind fun x => (Node.ofExpr r).bind fun y => .ok (.binary op x y 0)
      else .error (.operator op) := by
  cases hl : Node.ofExpr l with
  | error e => simp [hl]
  | ok x => cases hr : Node.ofExpr r <;> simp [hl, hr]

theorem ofExpr_prefixed (op : Bytes) (e : Expr Payload) (s : Span) :
    Node.ofExpr (.prefixed op e s) =
      if op ∈ unaryOperators then (Node.ofExpr e).bind fun x => .ok (.unary op x 0)
      else .error (.prefixOperator op) := by
  cases he : Node.ofExpr e <;> simp [he]

theorem ofExpr_paren (e : Expr Payload) (s : Span) :
    Node.ofExpr (.group [e] s) = (Node.ofExpr e).bind fun x => .ok (.paren x 0 0) := by
  cases he : Node.ofExpr e <;> simp [he]

/-- Parentheses are around one expression. -/
theorem ofExpr_tuple {es : List (Expr Payload)} (hes : es.length ≠ 1) (s : Span) :
    Node.ofExpr (.group es s) = .error (.tuple (Expr.group es s).infixForm) := by
  match es with
  | [] => rfl
  | [e] => exact absurd rfl hes
  | _ :: _ :: _ => rfl

theorem ofExpr_call (f : Expr Payload) (args : List (Bytes × Expr Payload)) (s : Span) :
    Node.ofExpr (.call f args s) = (Node.ofExpr f).bind fun fn =>
      (Node.ofArgs args).bind fun ys => .ok (.call fn ys 0 0 0) := by
  cases hf : Node.ofExpr f with
  | error e => simp [hf]
  | ok fn => cases hargs : Node.ofArgs args <;> simp [hf, hargs]

theorem ofArgs_cons (label : Bytes) (e : Expr Payload) (args : List (Bytes × Expr Payload)) :
    Node.ofArgs ((label, e) :: args) =
      if label = [] then
        (Node.ofExpr e).bind fun y => (Node.ofArgs args).bind fun ys => .ok (y :: ys)
      else .error (.label label) := by
  cases he : Node.ofExpr e with
  | error err => simp [he]
  | ok y => cases hargs : Node.ofArgs args <;> simp [he, hargs]

end Equations

theorem parts_of_ofExpr_binary {op : Bytes} {l r : Expr Payload} {s : Span} {y : Node}
    (h : Node.ofExpr (.binary op l r s) = .ok y) :
    ∃ x z, Node.ofExpr l = .ok x ∧ Node.ofExpr r = .ok z ∧ y = .binary op x z 0 := by
  rw [ofExpr_binary] at h
  split at h
  · obtain ⟨x, hx, hrest⟩ := bind_eq_ok.mp h
    obtain ⟨z, hz, heq⟩ := bind_eq_ok.mp hrest
    exact ⟨x, z, hx, hz, (Except.ok.inj heq).symm⟩
  · cases h

theorem part_of_ofExpr_prefixed {op : Bytes} {e : Expr Payload} {s : Span} {y : Node}
    (h : Node.ofExpr (.prefixed op e s) = .ok y) :
    ∃ x, Node.ofExpr e = .ok x ∧ y = .unary op x 0 := by
  rw [ofExpr_prefixed] at h
  split at h
  · obtain ⟨x, hx, heq⟩ := bind_eq_ok.mp h
    exact ⟨x, hx, (Except.ok.inj heq).symm⟩
  · cases h

theorem part_of_ofExpr_group {e : Expr Payload} {s : Span} {y : Node}
    (h : Node.ofExpr (.group [e] s) = .ok y) : ∃ x, Node.ofExpr e = .ok x ∧ y = .paren x 0 0 := by
  rw [ofExpr_paren] at h
  obtain ⟨x, hx, heq⟩ := bind_eq_ok.mp h
  exact ⟨x, hx, (Except.ok.inj heq).symm⟩

theorem parts_of_ofExpr_call {f : Expr Payload} {args : List (Bytes × Expr Payload)} {s : Span}
    {y : Node} (h : Node.ofExpr (.call f args s) = .ok y) :
    ∃ fn ys, Node.ofExpr f = .ok fn ∧ Node.ofArgs args = .ok ys ∧ y = .call fn ys 0 0 0 := by
  rw [ofExpr_call] at h
  obtain ⟨fn, hfn, hrest⟩ := bind_eq_ok.mp h
  obtain ⟨ys, hys, heq⟩ := bind_eq_ok.mp hrest
  exact ⟨fn, ys, hfn, hys, (Except.ok.inj heq).symm⟩

/-- The Go expressions of arguments are those of their values, and no argument has a label. -/
theorem forall₂_of_ofArgs {args : List (Bytes × Expr Payload)} {ys : List Node}
    (h : Node.ofArgs args = .ok ys) :
    List.Forall₂ (fun a y => a.1 = [] ∧ Node.ofExpr a.2 = .ok y) args ys := by
  induction args generalizing ys with
  | nil =>
    cases h
    exact .nil
  | cons a args ih =>
    rw [ofArgs_cons] at h
    split at h
    · rename_i hlabel
      obtain ⟨y, hy, hrest⟩ := bind_eq_ok.mp h
      obtain ⟨rest, hys, heq⟩ := bind_eq_ok.mp hrest
      cases heq
      exact .cons ⟨hlabel, hy⟩ (ih hys)
    · cases h

theorem exists_of_mem_left {α β : Type} {r : α → β → Prop} {as : List α} {bs : List β}
    (h : List.Forall₂ r as bs) : ∀ a ∈ as, ∃ b ∈ bs, r a b := by
  induction h with
  | nil => nofun
  | @cons a b as bs hab _ ih =>
    refine List.forall_mem_cons.mpr ⟨⟨b, List.mem_cons_self, hab⟩, ?_⟩
    intro a' ha'
    obtain ⟨b', hb', hab'⟩ := ih a' ha'
    exact ⟨b', List.mem_cons_of_mem b hb', hab'⟩

/-- The Go expressions of arguments are those of their values. -/
theorem exists_of_mem_ofArgs {args : List (Bytes × Expr Payload)} {ys : List Node}
    (h : Node.ofArgs args = .ok ys) : ∀ y ∈ ys, ∃ a ∈ args, Node.ofExpr a.2 = .ok y := by
  intro y hy
  obtain ⟨a, ha, _, hay⟩ := exists_of_mem_left (forall₂_of_ofArgs h).flip y hy
  exact ⟨a, ha, hay⟩

/-- A tree with a Go form becomes a Go expression, which becomes an equal tree again. -/
theorem HasGoForm.exists_ofExpr {e : Expr Payload} (h : HasGoForm e) :
    ∃ y, Node.ofExpr e = .ok y ∧ y.Proper ∧ y.toExpr.erase = e.erase := by
  induction h with
  | ident n s =>
    refine ⟨Node.ofName n, rfl, Node.proper_ofName n, ?_⟩
    rw [Node.toExpr_of_qualifiedName? (Node.qualifiedName?_ofName n)]
    rfl
  | literal t raw s =>
    refine ⟨_, rfl, .literal _ raw _ _, ?_⟩
    rw [Node.toExpr_literalKind]
    rfl
  | @binary op l r s hop _ _ ihl ihr =>
    obtain ⟨x, hx, hxproper, hxerase⟩ := ihl
    obtain ⟨y, hy, hyproper, hyerase⟩ := ihr
    refine ⟨.binary op x y 0, ?_, .binary hop hxproper hyproper, ?_⟩
    · rw [Node.ofExpr, if_pos (List.contains_iff_mem.mpr hop), hx, hy]
    · rw [Node.toExpr, erase, erase, hxerase, hyerase]
  | @prefixed op x s hop _ ih =>
    obtain ⟨y, hy, hproper, herase⟩ := ih
    refine ⟨.unary op y 0, ?_, .unary hop hproper, ?_⟩
    · rw [Node.ofExpr, if_pos (List.contains_iff_mem.mpr hop), hy]
    · rw [Node.toExpr, erase, erase, herase]
  | paren _ ih =>
    obtain ⟨y, hy, hproper, herase⟩ := ih
    refine ⟨.paren y 0 0, ?_, .paren hproper, ?_⟩
    · rw [Node.ofExpr, hy]
    · rw [Node.toExpr, erase, erase, eraseAll, eraseAll, herase, eraseAll, eraseAll]
  | call _ hlabels _ ihf ihargs =>
    obtain ⟨fn, hfn, hproper, herase⟩ := ihf
    obtain ⟨ys, hys, hpropers, herases⟩ := exists_ofArgs hlabels ihargs
    refine ⟨.call fn ys 0 0 0, ?_, .call hproper hpropers, ?_⟩
    · rw [Node.ofExpr, hfn, hys]
    · rw [Node.toExpr, if_pos rfl, erase, erase, herase, herases]
  | @foreign x s hx hproper =>
    refine ⟨x, rfl, hproper, ?_⟩
    rw [hx]
    rfl

/-! ### Relaxing -/

/-- Of Go's operators some are kept, and the others are replaced by calls. -/
theorem ruleFor_of_mem_binaryOperators {rx : Relaxer} (hrx : rx.table = .standard) {op : Bytes}
    (hop : op ∈ binaryOperators) :
    rx.ruleFor op = .keep ∨ ∃ c ∈ Combine.arithmetic, rx.ruleFor op = .binary c := by
  have hplain : ∀ op ∈ Table.compounds, op ∉ binaryOperators := by decide
  rcases Relaxer.ruleFor_standard_cases hrx op with
    ⟨hcompound, _⟩ | ⟨_, c, hc, hrule⟩ | ⟨_, hrule⟩
  · exact absurd hop (hplain op hcompound)
  · exact .inr ⟨c, hc, hrule⟩
  · exact .inl hrule

namespace HasGoForm

theorem withSpan {e : Expr Payload} (h : HasGoForm e) (s : Span) :
    HasGoForm (Relaxer.withSpan s e) := by
  cases h with
  | ident n s => exact ident n s
  | literal t raw s => exact literal t raw s
  | binary hop hl hr => exact binary hop hl hr
  | prefixed hop hx => exact prefixed hop hx
  | paren hx => exact paren hx
  | call hf hlabels hargs => exact call hf hlabels hargs
  | foreign hx hproper => exact foreign hx hproper

theorem negate {e : Expr Payload} (h : HasGoForm e) : HasGoForm e.negate := by
  refine prefixed (by decide) ?_
  by_cases hgroup : e.needsGrouping = true
  · rw [if_pos hgroup]
    exact paren h
  · rw [if_neg hgroup]
    exact h

theorem relaxedCall {l r : Expr Payload} (hl : HasGoForm l) (hr : HasGoForm r) (name : Bytes) :
    HasGoForm (Relaxer.relaxedCall name l r) := by
  refine call (ident name _) ?_ ?_
  · intro a ha
    obtain ⟨x, _, rfl⟩ := List.mem_map.mp ha
    rfl
  · intro a ha
    obtain ⟨x, hx, rfl⟩ := List.mem_map.mp ha
    rcases List.mem_cons.mp hx with rfl | hx
    · exact hl
    · rwa [List.mem_singleton.mp hx]

theorem combine (rx : Relaxer) {c : Combine} (hc : c ∈ Combine.arithmetic) {l r : Expr Payload}
    (hl : HasGoForm l) (hr : HasGoForm r) : HasGoForm (rx.combine c l r) :=
  Relaxer.combine_of_closed hc (fun name _ _ _ hl hr => hl.relaxedCall hr name)
    (fun _ he => he.negate) hl hr

/-- Relaxing keeps the Go form. -/
theorem relax {rx : Relaxer} (hrx : rx.table = .standard) {e : Expr Payload} (h : HasGoForm e) :
    HasGoForm (rx.relax e) := by
  induction h with
  | ident n s => exact ident n s
  | literal t raw s => exact literal t raw s
  | @binary op l r s hop _ _ ihl ihr =>
    rw [Relaxer.relax]
    rcases ruleFor_of_mem_binaryOperators hrx hop with hrule | ⟨c, hc, hrule⟩
    · rw [hrule]
      exact binary hop ihl ihr
    · rw [hrule]
      exact (combine rx hc ihl ihr).withSpan s
  | prefixed hop hx ih =>
    rw [Relaxer.relax]
    by_cases hnested : rx.nested = true
    · rw [if_pos hnested]
      exact prefixed hop ih
    · rw [if_neg hnested]
      exact prefixed hop hx
  | paren _ ih => exact paren ih
  | call hf hlabels _ _ ihargs =>
    rw [Relaxer.relax, Relaxer.relaxArgs_eq_map]
    refine call hf ?_ ?_
    · intro a ha
      obtain ⟨b, hb, rfl⟩ := List.mem_map.mp ha
      exact hlabels b hb
    · intro a ha
      obtain ⟨b, hb, rfl⟩ := List.mem_map.mp ha
      exact ihargs b hb
  | foreign hx hproper => exact foreign hx hproper

theorem payloadsArgs_relaxArgs {rx : Relaxer} {args : List (Bytes × Expr Payload)}
    (h : ∀ a ∈ args, (rx.relax a.2).payloads = a.2.payloads) :
    payloadsArgs (rx.relaxArgs args) = payloadsArgs args := by
  induction args with
  | nil => rfl
  | cons a args ih =>
    rw [List.forall_mem_cons] at h
    rw [Relaxer.relaxArgs, payloadsArgs, payloadsArgs, h.1, ih h.2]

/-- Relaxing carries along the same things in the same order. -/
theorem payloads_relax {rx : Relaxer} (hrx : rx.table = .standard) {e : Expr Payload}
    (h : HasGoForm e) : (rx.relax e).payloads = e.payloads := by
  induction h with
  | ident | literal | foreign => rfl
  | @binary op l r s hop _ _ ihl ihr =>
    rw [Relaxer.relax, payloads]
    rcases ruleFor_of_mem_binaryOperators hrx hop with hrule | ⟨c, hc, hrule⟩
    · rw [hrule, Relaxer.applyRule, payloads, ihl, ihr]
    · rw [hrule, Relaxer.applyRule, payloads_withSpan, payloads_combine rx hc, ihl, ihr]
  | prefixed _ _ ih =>
    rw [Relaxer.relax]
    by_cases hnested : rx.nested = true
    · rw [if_pos hnested, payloads, payloads, ih]
    · rw [if_neg hnested]
  | paren _ ih =>
    rw [Relaxer.relax, payloads, payloads, Relaxer.relaxAll, payloadsAll, payloadsAll, ih]
    rfl
  | call _ _ _ _ ihargs =>
    rw [Relaxer.relax, payloads, payloads, payloadsArgs_relaxArgs ihargs]

end HasGoForm

end Host
end RelaxArith
