/-
What a relaxer does that enters neither assignments nor operators in front of an operand.

It takes them for foreign constructs: they are carried along, copied with a target they are part of,
and put into parentheses to be negated, and nothing in them is relaxed.  To say that this is all,
each outermost one outside callees is masked by a foreign construct with a text of its own.  The
masked tree is relaxed with everything entered, which finds nothing to enter, and the parts are put
back wherever their placeholders have come to stand.  The result equals what the relaxer gives that
does not enter them.  It is not the same tree: the copy of a target has lost its stubs, and a part
that is put back into a copy still has them.

The induction over the tree carries the numbers of the placeholders along; beside it, putting parts
back has to commute with what the rules do, up to what equality ignores.
-/
import RelaxArith.Proofs.Congruence
import RelaxArith.Proofs.Consulted
import RelaxArith.Proofs.Leaves

namespace RelaxArith

variable {π : Type}

/-- A foreign construct that holds the place of something else. -/
structure Placeholder (π : Type) where
  text : Bytes
  payload : Option π
  span : Span

/-- The placeholder as a tree. -/
def Placeholder.node (p : Placeholder π) : Expr π := .foreign p.text p.payload p.span

namespace Expr

/-- Is this an assignment, or an operator in front of its operand? -/
def isAtom : Expr π → Bool
  | prefixed .. => true
  | assign .. => true
  | _ => false

mutual

/-- The outermost assignments and operators in front of an operand, from left to right, but for
those in callees. -/
def atoms : Expr π → List (Expr π)
  | absent _ => []
  | ident .. => []
  | literal .. => []
  | binary _ l r _ => l.atoms ++ r.atoms
  | prefixed op x s => [prefixed op x s]
  | group es _ => atomsAll es
  | call _ args _ => atomsArgs args
  | assign t v s => [assign t v s]
  | foreign .. => []

/-- Those of several trees. -/
def atomsAll : List (Expr π) → List (Expr π)
  | [] => []
  | e :: es => e.atoms ++ atomsAll es

/-- Those of arguments. -/
def atomsArgs : List (Bytes × Expr π) → List (Expr π)
  | [] => []
  | (_, e) :: args => e.atoms ++ atomsArgs args

end

mutual

/-- The tree with placeholders for its atoms, the first of which has the number `n`. -/
def mask (supply : Nat → Placeholder π) (n : Nat) : Expr π → Expr π
  | absent k => absent k
  | ident m s => ident m s
  | literal t raw s => literal t raw s
  | binary op l r s => binary op (l.mask supply n) (r.mask supply (n + l.atoms.length)) s
  | prefixed .. => (supply n).node
  | group es s => group (maskAll supply n es) s
  | call f args s => call f (maskArgs supply n args) s
  | assign .. => (supply n).node
  | foreign t p s => foreign t p s

/-- Several trees with placeholders for their atoms. -/
def maskAll (supply : Nat → Placeholder π) (n : Nat) : List (Expr π) → List (Expr π)
  | [] => []
  | e :: es => e.mask supply n :: maskAll supply (n + e.atoms.length) es

/-- Arguments with placeholders for their atoms. -/
def maskArgs (supply : Nat → Placeholder π) (n : Nat) :
    List (Bytes × Expr π) → List (Bytes × Expr π)
  | [] => []
  | (l, e) :: args => (l, e.mask supply n) :: maskArgs supply (n + e.atoms.length) args

end

mutual

/-- The tree with something put in the place of every foreign construct whose text stands for it. -/
def restore (σ : Bytes → Option (Expr π)) : Expr π → Expr π
  | absent k => absent k
  | ident m s => ident m s
  | literal t raw s => literal t raw s
  | binary op l r s => binary op (l.restore σ) (r.restore σ) s
  | prefixed op x s => prefixed op (x.restore σ) s
  | group es s => group (restoreAll σ es) s
  | call f args s => call (f.restore σ) (restoreArgs σ args) s
  | assign t v s => assign (t.restore σ) (v.restore σ) s
  | foreign t p s => (σ t).getD (foreign t p s)

/-- Several trees with placeholders replaced. -/
def restoreAll (σ : Bytes → Option (Expr π)) : List (Expr π) → List (Expr π)
  | [] => []
  | e :: es => e.restore σ :: restoreAll σ es

/-- Arguments with placeholders replaced. -/
def restoreArgs (σ : Bytes → Option (Expr π)) : List (Bytes × Expr π) → List (Bytes × Expr π)
  | [] => []
  | (l, e) :: args => (l, e.restore σ) :: restoreArgs σ args

end

/-- None of the foreign constructs of a tree stands for anything. -/
def SparedBy (σ : Bytes → Option (Expr π)) (e : Expr π) : Prop :=
  ∀ t p s, .foreign t p s ∈ e.leaves → σ t = none

theorem atomsAll_eq_flatMap (es : List (Expr π)) : atomsAll es = es.flatMap atoms := by
  induction es with
  | nil => rfl
  | cons e es ih => rw [atomsAll, ih, List.flatMap_cons]

theorem atomsArgs_eq_flatMap (args : List (Bytes × Expr π)) :
    atomsArgs args = args.flatMap fun a => a.2.atoms := by
  induction args with
  | nil => rfl
  | cons a args ih => rw [atomsArgs, ih, List.flatMap_cons]

theorem restoreAll_eq_map (σ : Bytes → Option (Expr π)) (es : List (Expr π)) :
    restoreAll σ es = es.map (restore σ) := by
  induction es with
  | nil => rfl
  | cons e es ih => rw [restoreAll, ih, List.map_cons]

theorem restoreArgs_eq_map (σ : Bytes → Option (Expr π)) (args : List (Bytes × Expr π)) :
    restoreArgs σ args = args.map fun a => (a.1, a.2.restore σ) := by
  induction args with
  | nil => rfl
  | cons a args ih => rw [restoreArgs, ih, List.map_cons]

theorem needsGrouping_of_isAtom {e : Expr π} (h : e.isAtom = true) : e.needsGrouping = true := by
  cases e with
  | prefixed | assign => rfl
  | absent | ident | literal | binary | group | call | foreign => cases h

theorem isStub_of_isAtom {e : Expr π} (h : e.isAtom = true) : e.isStub = false := by
  cases e with
  | prefixed | assign => rfl
  | absent | ident | literal | binary | group | call | foreign => cases h

theorem isAtom_of_mem_atoms {e x : Expr π} (h : x ∈ e.atoms) : x.isAtom = true := by
  induction e with
  | absent | ident | literal | foreign => cases h
  | binary op l r s hl hr =>
    rw [atoms, List.mem_append] at h
    exact h.elim hl hr
  | prefixed | assign =>
    rw [List.mem_singleton.mp h]
    rfl
  | group es s hes =>
    rw [atoms, atomsAll_eq_flatMap, List.mem_flatMap] at h
    obtain ⟨e, he, hx⟩ := h
    exact hes e he hx
  | call f args s _ hargs =>
    rw [atoms, atomsArgs_eq_flatMap, List.mem_flatMap] at h
    obtain ⟨a, ha, hx⟩ := h
    exact hargs a ha hx

end Expr

/-! ### Putting parts back, and the rules -/

namespace Expr

section Restoring

attribute [local simp] restore restoreAll restoreArgs

variable {σ : Bytes → Option (Expr π)}

theorem SparedBy.binary {op : Bytes} {l r : Expr π} {s : Span}
    (h : (binary op l r s).SparedBy σ) : l.SparedBy σ ∧ r.SparedBy σ := by
  simp only [SparedBy, leaves_binary, List.mem_append] at h
  exact ⟨fun t p s ht => h t p s (.inl ht), fun t p s ht => h t p s (.inr ht)⟩

theorem SparedBy.prefixed {op : Bytes} {x : Expr π} {s : Span}
    (h : (prefixed op x s).SparedBy σ) : x.SparedBy σ := by
  rwa [SparedBy, leaves_prefixed] at h

theorem SparedBy.group {es : List (Expr π)} {s : Span} (h : (group es s).SparedBy σ) :
    ∀ e ∈ es, e.SparedBy σ := by
  simp only [SparedBy, leaves_group, List.mem_flatMap] at h
  exact fun e he t p s ht => h t p s ⟨e, he, ht⟩

theorem SparedBy.call {f : Expr π} {args : List (Bytes × Expr π)} {s : Span}
    (h : (call f args s).SparedBy σ) : f.SparedBy σ ∧ ∀ a ∈ args, a.2.SparedBy σ := by
  simp only [SparedBy, leaves_call, List.mem_append, List.mem_flatMap] at h
  exact ⟨fun t p s ht => h t p s (.inl ht), fun a ha t p s ht => h t p s (.inr ⟨a, ha, .inr ht⟩)⟩

theorem SparedBy.assign {t v : Expr π} {s : Span} (h : (assign t v s).SparedBy σ) :
    t.SparedBy σ ∧ v.SparedBy σ := by
  simp only [SparedBy, leaves_assign, List.mem_append] at h
  exact ⟨fun u p s hu => h u p s (.inl hu), fun u p s hu => h u p s (.inr hu)⟩

/-- Nothing changes if no foreign construct stands for anything. -/
theorem restore_eq_self {e : Expr π} (h : e.SparedBy σ) : e.restore σ = e := by
  induction e with
  | absent | ident | literal => rfl
  | foreign t p s => rw [restore, h t p s (List.mem_singleton_self _), Option.getD_none]
  | binary op l r s hl hr =>
    obtain ⟨hleft, hright⟩ := h.binary
    rw [restore, hl hleft, hr hright]
  | prefixed op x s hx =>
    rw [restore, hx h.prefixed]
  | group es s hes =>
    have hsame := List.map_congr_left (g := id) fun e he => hes e he (h.group e he)
    rw [restore, restoreAll_eq_map, hsame, List.map_id]
  | call f args s hf hargs =>
    obtain ⟨hcallee, hvalues⟩ := h.call
    have hsame : args.map (fun a => (a.1, a.2.restore σ)) = args.map id :=
      List.map_congr_left fun a ha => congrArg (Prod.mk a.1) (hargs a ha (hvalues a ha))
    rw [restore, restoreArgs_eq_map, hsame, List.map_id, hf hcallee]
  | assign t v s ht hv =>
    obtain ⟨htarget, hvalue⟩ := h.assign
    rw [restore, ht htarget, hv hvalue]

theorem erase_restore_withSpan (s : Span) (e : Expr π) :
    ((Relaxer.withSpan s e).restore σ).erase = (e.restore σ).erase := by
  cases e with
  | absent | ident | literal | binary | prefixed | group | call | assign | foreign => rfl

/-- A copy of a target has placeholders where the target has them. -/
theorem erase_restore_withoutStubs (e : Expr π) :
    (e.withoutStubs.restore σ).erase = (e.restore σ).erase := by
  induction e with
  | absent | ident | literal | foreign => rfl
  | binary op l r s hl hr => rw [withoutStubs, restore, restore, erase, erase, hl, hr]
  | prefixed op x s hx => rw [withoutStubs, restore, restore, erase, erase, hx]
  | group es s hes =>
    have hall : eraseAll (restoreAll σ (withoutStubsAll es)) = eraseAll (restoreAll σ es) := by
      rw [restoreAll_eq_map, restoreAll_eq_map, eraseAll_eq_map, eraseAll_eq_map,
        withoutStubsAll_eq_map, List.map_map, List.map_map, List.map_map]
      exact List.map_congr_left hes
    rw [withoutStubs, restore, restore, erase, erase, hall]
  | call f args s hf hargs =>
    have hall : eraseArgs (restoreArgs σ (withoutStubsArgs args))
        = eraseArgs (restoreArgs σ args) := by
      rw [restoreArgs_eq_map, restoreArgs_eq_map, eraseArgs_eq_map, eraseArgs_eq_map,
        withoutStubsArgs_eq_map, List.map_map, List.map_map, List.map_map]
      exact List.map_congr_left fun a ha => congrArg (Prod.mk a.1) (hargs a ha)
    rw [withoutStubs, restore, restore, erase, erase, hf, hall]
  | assign t v s ht hv => rw [withoutStubs, restore, restore, erase, erase, ht, hv]

theorem restore_relaxedCall (name : Bytes) (l r : Expr π) :
    (Relaxer.relaxedCall name l r).restore σ
      = Relaxer.relaxedCall name (l.restore σ) (r.restore σ) := by
  simp [Relaxer.relaxedCall, callOf]

variable (hσ : ∀ t x, σ t = some x → x.isAtom = true)

include hσ

/-- An atom needs parentheses as the placeholder does. -/
theorem needsGrouping_restore (e : Expr π) : (e.restore σ).needsGrouping = e.needsGrouping := by
  cases e with
  | absent | ident | literal | binary | prefixed | group | call | assign => rfl
  | foreign t p s =>
    rw [restore]
    cases ht : σ t with
    | none => rfl
    | some x => exact needsGrouping_of_isAtom (hσ t x ht)

theorem isStub_restore {e : Expr π} (h : e.isStub = false) : (e.restore σ).isStub = false := by
  cases e with
  | absent => exact h
  | ident | literal | binary | prefixed | group | call | assign => rfl
  | foreign t p s =>
    rw [restore]
    cases ht : σ t with
    | none => rfl
    | some x => exact isStub_of_isAtom (hσ t x ht)

theorem erase_restore_negate (e : Expr π) :
    (e.negate.restore σ).erase = (e.restore σ).negate.erase := by
  rw [negate, negate, restore, erase, erase, needsGrouping_restore hσ]
  by_cases hneeds : e.needsGrouping = true
  · rw [if_pos hneeds, if_pos hneeds, restore, erase, erase, restoreAll, restoreAll]
  · rw [if_neg hneeds, if_neg hneeds]

theorem erase_restore_combine (rx : Relaxer) (c : Combine) (l r : Expr π) :
    ((rx.combine c l r).restore σ).erase
      = (rx.combine c (l.restore σ) (r.restore σ)).erase := by
  cases c with
  | sum => rw [Relaxer.combine, restore_relaxedCall, Relaxer.combine]
  | difference =>
    rw [Relaxer.combine, restore_relaxedCall, Relaxer.combine]
    exact erase_relaxedCall_congr rx.sum rfl (erase_restore_negate hσ r)
  | product => rw [Relaxer.combine, restore_relaxedCall, Relaxer.combine]
  | left | right | nothing => rfl
  | callOf name => rw [Relaxer.combine, restore_relaxedCall, Relaxer.combine]
  | operation op => rw [Relaxer.combine, restore, Relaxer.combine]

/-- **What rules do with placeholders they do with the parts themselves**, up to equality. -/
theorem erase_restore_applyRule (rx : Relaxer) (rule : Rule) (op : Bytes) (s : Span)
    (l : Expr π) {r : Expr π} (hr : r.isStub = false) :
    ((rx.applyRule rule op s l r).restore σ).erase
      = (rx.applyRule rule op s (l.restore σ) (r.restore σ)).erase := by
  cases rule with
  | keep => rw [Relaxer.applyRule, restore, Relaxer.applyRule]
  | binary c =>
    rw [Relaxer.applyRule, Relaxer.applyRule, erase_restore_withSpan, erase_withSpan,
      erase_restore_combine hσ]
  | compound c =>
    have hcopy : (l.withoutStubs.restore σ).erase = (l.restore σ).withoutStubs.erase := by
      rw [erase_restore_withoutStubs, erase_withoutStubs]
    have hstub := isStub_restore hσ hr
    rw [Relaxer.applyRule, Relaxer.applyRule, restore, erase, erase, erase_restore_withSpan,
      erase_withSpan, erase_restore_combine hσ, erase_combine_congr c hcopy rfl hstub hstub]

end Restoring
end Expr

/-! ### What placeholders stand for -/

namespace Placeholder

/-- The part that a text stands for, if placeholders from number `n` on hold the places of some
parts. -/
def standsFor (supply : Nat → Placeholder π) (n : Nat) : List (Expr π) → Bytes → Option (Expr π)
  | [], _ => none
  | x :: xs, t => if (supply n).text = t then some x else standsFor supply (n + 1) xs t

/-- Placeholders whose texts differ from each other and from all foreign constructs of a tree. -/
structure Fresh (supply : Nat → Placeholder π) (e : Expr π) : Prop where
  distinct : Function.Injective fun i => (supply i).text
  unused : ∀ i p s, .foreign (supply i).text p s ∉ e.leaves

/-- The texts of placeholders from number `n` on stand for some parts. -/
def Stores (σ : Bytes → Option (Expr π)) (supply : Nat → Placeholder π) (n : Nat)
    (parts : List (Expr π)) : Prop :=
  ∀ i x, parts[i]? = some x → σ (supply (n + i)).text = some x

variable {supply : Nat → Placeholder π}

theorem mem_of_standsFor {n : Nat} {parts : List (Expr π)} {t : Bytes} {x : Expr π}
    (h : standsFor supply n parts t = some x) : x ∈ parts := by
  induction parts generalizing n with
  | nil => cases h
  | cons y ys ih =>
    rw [standsFor] at h
    by_cases ht : (supply n).text = t
    · rw [if_pos ht] at h
      rw [Option.some.inj h]
      exact List.mem_cons_self
    · rw [if_neg ht] at h
      exact List.mem_cons_of_mem y (ih h)

theorem standsFor_eq_none {t : Bytes} (h : ∀ i, (supply i).text ≠ t) (n : Nat)
    (parts : List (Expr π)) : standsFor supply n parts t = none := by
  induction parts generalizing n with
  | nil => rfl
  | cons y ys ih => rw [standsFor, if_neg (h n), ih]

theorem stores_standsFor (h : Function.Injective fun i => (supply i).text) (n : Nat)
    (parts : List (Expr π)) : Stores (standsFor supply n parts) supply n parts := by
  induction parts generalizing n with
  | nil => intro i x hx; cases hx
  | cons y ys ih =>
    intro i x hx
    cases i with
    | zero => rw [standsFor, Nat.add_zero, if_pos rfl, ← hx, List.getElem?_cons_zero]
    | succ i =>
      have hother : (supply n).text ≠ (supply (n + (i + 1))).text := fun heq => by
        have hindex := h heq
        omega
      rw [standsFor, if_neg hother, Nat.add_comm i 1, ← Nat.add_assoc]
      exact ih (n + 1) i x (by rwa [List.getElem?_cons_succ] at hx)

theorem stores_append {σ : Bytes → Option (Expr π)} {n : Nat} {xs ys : List (Expr π)}
    (h : Stores σ supply n (xs ++ ys)) :
    Stores σ supply n xs ∧ Stores σ supply (n + xs.length) ys := by
  refine ⟨fun i x hx => ?_, fun i y hy => ?_⟩
  · refine h i x ?_
    rw [List.getElem?_append_left (List.getElem?_eq_some_iff.mp hx).1, hx]
  · rw [Nat.add_assoc]
    refine h (xs.length + i) y ?_
    rw [List.getElem?_append_right (Nat.le_add_right _ _), Nat.add_sub_cancel_left, hy]

theorem Stores.node {σ : Bytes → Option (Expr π)} {n : Nat} {x : Expr π}
    (h : Stores σ supply n [x]) : (supply n).node.restore σ = x := by
  have hx := h 0 x rfl
  rw [Nat.add_zero] at hx
  rw [Placeholder.node, Expr.restore, hx, Option.getD_some]

/-- The foreign constructs of a list are not longer than some bound. -/
theorem exists_longer (is : List (Item π)) :
    ∃ bound, ∀ t p s, .foreign t p s ∈ is → t.length < bound := by
  induction is with
  | nil => exact ⟨0, fun t p s h => by cases h⟩
  | cons item is ih =>
    obtain ⟨bound, hbound⟩ := ih
    cases item with
    | foreign u q r =>
      refine ⟨max bound (u.length + 1), fun t p s h => ?_⟩
      rcases List.mem_cons.mp h with h | h
      · cases h
        omega
      · have hlength := hbound t p s h
        omega
    | name | constant | label =>
      refine ⟨bound, fun t p s h => hbound t p s ?_⟩
      exact (List.mem_cons.mp h).resolve_left nofun

/-- There are fresh placeholders for every tree: their texts are longer than all that occur. -/
theorem exists_fresh (e : Expr π) : ∃ supply : Nat → Placeholder π, Fresh supply e := by
  obtain ⟨bound, hbound⟩ := exists_longer e.leaves
  refine ⟨fun i => ⟨List.replicate (bound + i) 0x3F, none, .null⟩, ?_, ?_⟩
  · intro i j h
    have hlength := congrArg List.length h
    simp only [List.length_replicate] at hlength
    omega
  · intro i p s h
    have hlength := hbound _ p s h
    simp only [List.length_replicate] at hlength
    omega

end Placeholder

/-! ### Relaxing what is masked -/

/-- The relaxer that enters assignments and operators in front of an operand. -/
def Relaxer.entering (rx : Relaxer) : Relaxer := { rx with nested := true }

/-- The relaxer that passes them by. -/
def Relaxer.passing (rx : Relaxer) : Relaxer := { rx with nested := false }

namespace Expr

open Placeholder

/-- Parts that have been masked can be put back after relaxing: the tree equals the one that is
relaxed without entering them. -/
def Restorable (rx : Relaxer) (supply : Nat → Placeholder π) (σ : Bytes → Option (Expr π))
    (e : Expr π) : Prop :=
  ∀ n, e.SparedBy σ → Stores σ supply n e.atoms →
    ((rx.entering.relax (e.mask supply n)).restore σ).erase = (rx.passing.relax e).erase

section Masked

variable {rx : Relaxer} {supply : Nat → Placeholder π} {σ : Bytes → Option (Expr π)}

theorem relax_node (p : Placeholder π) : rx.relax p.node = p.node := rfl

theorem relax_passing_of_isAtom {e : Expr π} (h : e.isAtom = true) : rx.passing.relax e = e := by
  cases e with
  | prefixed | assign => rfl
  | absent | ident | literal | binary | group | call | foreign => cases h

theorem erase_restore_relaxAll {es : List (Expr π)} (h : ∀ e ∈ es, e.Restorable rx supply σ)
    {n : Nat} (hspared : ∀ e ∈ es, e.SparedBy σ) (hstores : Stores σ supply n (atomsAll es)) :
    eraseAll (restoreAll σ (rx.entering.relaxAll (maskAll supply n es)))
      = eraseAll (rx.passing.relaxAll es) := by
  induction es generalizing n with
  | nil => rfl
  | cons e es ih =>
    obtain ⟨hfirst, hrest⟩ := stores_append hstores
    rw [List.forall_mem_cons] at h hspared
    rw [maskAll, Relaxer.relaxAll, Relaxer.relaxAll, restoreAll, eraseAll, eraseAll,
      h.1 n hspared.1 hfirst, ih h.2 hspared.2 hrest]

theorem erase_restore_relaxArgs {args : List (Bytes × Expr π)}
    (h : ∀ a ∈ args, a.2.Restorable rx supply σ) {n : Nat}
    (hspared : ∀ a ∈ args, a.2.SparedBy σ) (hstores : Stores σ supply n (atomsArgs args)) :
    eraseArgs (restoreArgs σ (rx.entering.relaxArgs (maskArgs supply n args)))
      = eraseArgs (rx.passing.relaxArgs args) := by
  induction args generalizing n with
  | nil => rfl
  | cons a args ih =>
    obtain ⟨label, e⟩ := a
    obtain ⟨hfirst, hrest⟩ := stores_append hstores
    rw [List.forall_mem_cons] at h hspared
    rw [maskArgs, Relaxer.relaxArgs, Relaxer.relaxArgs, restoreArgs, eraseArgs, eraseArgs,
      h.1 n hspared.1 hfirst, ih h.2 hspared.2 hrest]

/-- What is masked can be put back, if placeholders stand for nothing but atoms. -/
theorem restorable (hσ : ∀ t x, σ t = some x → x.isAtom = true) (e : Expr π) :
    e.Restorable rx supply σ := by
  induction e with
  | absent | ident | literal => intro n _ _; rfl
  | foreign t p s =>
    intro n hspared _
    rw [mask, Relaxer.relax, Relaxer.relax, restore_eq_self hspared]
  | binary op l r s hl hr =>
    intro n hspared hstores
    obtain ⟨hleft, hright⟩ := hspared.binary
    obtain ⟨hfirst, hrest⟩ := stores_append hstores
    have hstub := isStub_relax rx.entering (r.mask supply (n + l.atoms.length))
    have hrule : rx.entering.ruleFor op = rx.passing.ruleFor op := rfl
    rw [mask, Relaxer.relax, Relaxer.relax, erase_restore_applyRule hσ _ _ op s _ hstub, hrule,
      Relaxer.applyRule_congr (show rx.entering.sum = rx.passing.sum from rfl) rfl]
    exact erase_applyRule_congr _ op s s (hl n hleft hfirst) (hr _ hright hrest)
      (isStub_restore hσ hstub) (isStub_relax rx.passing r)
  | prefixed | assign =>
    intro n _ hstores
    rw [mask, relax_node, hstores.node, relax_passing_of_isAtom rfl]
  | group es s hes =>
    intro n hspared hstores
    rw [mask, Relaxer.relax, Relaxer.relax, restore, erase, erase,
      erase_restore_relaxAll hes hspared.group hstores]
  | call f args s _ hargs =>
    intro n hspared hstores
    obtain ⟨hcallee, hvalues⟩ := hspared.call
    rw [mask, Relaxer.relax, Relaxer.relax, restore, erase, erase, restore_eq_self hcallee,
      erase_restore_relaxArgs hargs hvalues hstores]

/-- Without atoms there is nothing to enter. -/
theorem relax_entering_of_atoms_eq_nil {e : Expr π} (h : e.atoms = []) :
    rx.entering.relax e = rx.passing.relax e := by
  induction e with
  | absent | ident | literal | foreign => rfl
  | binary op l r s hl hr =>
    obtain ⟨hleft, hright⟩ := List.append_eq_nil_iff.mp h
    have hrule : rx.entering.ruleFor op = rx.passing.ruleFor op := rfl
    rw [Relaxer.relax, Relaxer.relax, hl hleft, hr hright, hrule]
    exact Relaxer.applyRule_congr rfl rfl _ op s _ _
  | prefixed | assign => cases h
  | group es s hes =>
    rw [atoms, atomsAll_eq_flatMap, List.flatMap_eq_nil_iff] at h
    rw [Relaxer.relax, Relaxer.relax, Relaxer.relaxAll_eq_map, Relaxer.relaxAll_eq_map]
    exact congrArg (group · s) (List.map_congr_left fun e he => hes e he (h e he))
  | call f args s _ hargs =>
    rw [atoms, atomsArgs_eq_flatMap, List.flatMap_eq_nil_iff] at h
    rw [Relaxer.relax, Relaxer.relax, Relaxer.relaxArgs_eq_map, Relaxer.relaxArgs_eq_map]
    refine congrArg (call f · s) (List.map_congr_left fun a ha => ?_)
    rw [hargs a ha (h a ha)]

end Masked
end Expr

open Placeholder in
/-- **What is not entered is treated like a foreign construct, and nothing else changes.** For every
tree there are fresh placeholders, and whichever are chosen: if each outermost assignment and
operator in front of an operand, outside callees, is masked by one, the masked tree is relaxed with
everything entered, and the parts are put back for every copy of their placeholders, then the result
equals the tree relaxed without entering them. On a tree without such parts it makes no difference
at all whether they are entered. -/
theorem relax_passing_by (rx : Relaxer) (e : Expr π) :
    (∃ supply : Nat → Placeholder π, Fresh supply e) ∧
    (∀ supply : Nat → Placeholder π, Fresh supply e →
      ((rx.entering.relax (e.mask supply 0)).restore (standsFor supply 0 e.atoms)).equal
        (rx.passing.relax e) = true) ∧
    (e.atoms = [] → rx.entering.relax e = rx.passing.relax e) := by
  refine ⟨exists_fresh e, ?_, Expr.relax_entering_of_atoms_eq_nil⟩
  intro supply hfresh
  rw [Expr.equal_iff_erase]
  have hatoms : ∀ t x, standsFor supply 0 e.atoms t = some x → x.isAtom = true :=
    fun t x hx => Expr.isAtom_of_mem_atoms (mem_of_standsFor hx)
  have hspared : e.SparedBy (standsFor supply 0 e.atoms) := by
    intro t p s ht
    refine standsFor_eq_none (fun i htext => ?_) 0 e.atoms
    exact hfresh.unused i p s (htext ▸ ht)
  exact Expr.restorable hatoms e 0 hspared (stores_standsFor hfresh.distinct 0 e.atoms)

/-- Placeholders `??`, `???` and so on. -/
def questionMarks (i : Nat) : Placeholder Nat := ⟨List.replicate (i + 2) 0x3F, none, .null⟩

/-- The tree of `(!f)(-(x * …) -= t - (a = b * c))`, with a payload at `t` and a part missing. -/
def maskingExample : Expr Nat :=
  .call (.prefixed (utf8 "!") (.ident (utf8 "f") ⟨2, 3⟩) ⟨1, 3⟩)
    [([], .binary (utf8 "-=")
      (.prefixed (utf8 "-") (.binary (utf8 "*") (.ident (utf8 "x") ⟨7, 8⟩) (.absent (some .call))
        ⟨7, 11⟩) ⟨5, 12⟩)
      (.binary (utf8 "-") (.foreign (utf8 "t") (some 7) ⟨16, 17⟩)
        (.assign (.ident (utf8 "a") ⟨21, 22⟩)
          (.binary (utf8 "*") (.ident (utf8 "b") ⟨25, 26⟩) (.ident (utf8 "c") ⟨29, 30⟩) ⟨25, 30⟩)
          ⟨21, 30⟩) ⟨16, 31⟩) ⟨5, 31⟩)] ⟨0, 32⟩

theorem fresh_questionMarks : Placeholder.Fresh questionMarks maskingExample := by
  refine ⟨?_, ?_⟩
  · intro i j h
    simpa [questionMarks] using congrArg List.length h
  · intro i p s h
    have hleaves : maskingExample.leaves
        = [.name (utf8 "f") ⟨2, 3⟩, .name (utf8 "x") ⟨7, 8⟩, .foreign (utf8 "t") (some 7) ⟨16, 17⟩,
          .name (utf8 "a") ⟨21, 22⟩, .name (utf8 "b") ⟨25, 26⟩, .name (utf8 "c") ⟨29, 30⟩] := rfl
    have htext : (questionMarks i).text = utf8 "t" := by simp_all
    have hlength : (questionMarks i).text.length = 1 := by rw [htext]; rfl
    rw [questionMarks, List.length_replicate] at hlength
    omega

theorem relax_passing_by_maskingExample :
    Placeholder.Fresh questionMarks maskingExample ∧ maskingExample.atoms.length = 2 ∧
    ((Relaxer.standard.entering.relax (maskingExample.mask questionMarks 0)).restore
        (Placeholder.standsFor questionMarks 0 maskingExample.atoms)).equal
      (Relaxer.standard.passing.relax maskingExample) = true ∧
    consultedExample.atoms = [] ∧
    Relaxer.standard.entering.relax consultedExample
      = Relaxer.standard.passing.relax consultedExample :=
  ⟨fresh_questionMarks, rfl,
    (relax_passing_by Relaxer.standard maskingExample).2.1 questionMarks fresh_questionMarks, rfl,
    (relax_passing_by Relaxer.standard consultedExample).2.2 rfl⟩

end RelaxArith
