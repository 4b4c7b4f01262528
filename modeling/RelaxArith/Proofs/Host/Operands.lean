/-
Marker calls with a wrong number of operands.

A walk that comes to its end has visited everything in a tree, so each call of the marker in it had
one operand.  The other way round, a program with a call of the marker that has none or several is
never relaxed, whatever was replaced in it before that was noticed.
-/
import RelaxArith.Proofs.Host.Program

namespace RelaxArith.Host

open Relation

/-- Somewhere in a tree the marker is called with no operand, or with several. -/
def Node.Miscalls (m : Marker) (x : Node) : Prop :=
  ∃ fn args p e q, (Node.call fn args p e q).Inside x ∧ fn.qualifiedName? = some m.name ∧
    args.length ≠ 1

variable {m : Marker} {x y : Node} {k : Nat}

theorem Each.exists_of_mem_left {r : Node → Node → Nat → Prop} {xs ys : List Node} {k : Nat}
    (h : Each r xs ys k) : ∀ x ∈ xs, ∃ y l, r x y l := by
  induction h with
  | nil => nofun
  | @cons x y xs ys k l hx _ ih => exact List.forall_mem_cons.mpr ⟨⟨y, k, hx⟩, ih⟩

namespace Expands

/-- With a tree, its parts expand. -/
theorem of_mem_parts (h : Expands m y x k) {z : Node} (hz : z ∈ y.parts) :
    ∃ z' l, Expands m z z' l := by
  cases h with
  | missing | ident | literal => cases hz
  | selector hx | unary hx | paren hx =>
    rw [List.mem_singleton.mp hz]
    exact ⟨_, _, hx⟩
  | binary hx hy =>
    rcases List.mem_cons.mp hz with rfl | hz
    · exact ⟨_, _, hx⟩
    · rw [List.mem_singleton.mp hz]
      exact ⟨_, _, hy⟩
  | call hfn hargs =>
    rcases List.mem_cons.mp hz with rfl | hz
    · exact ⟨_, _, hfn⟩
    · exact hargs.exists_of_mem_left z hz
  | marker hfn harg =>
    rcases List.mem_cons.mp hz with rfl | hz
    · exact ⟨_, _, hfn⟩
    · rw [List.mem_singleton.mp hz]
      exact ⟨_, _, harg⟩
  | other hparts => exact hparts.exists_of_mem_left z hz

theorem of_inside (h : Expands m y x k) {z : Node} (hz : z.Inside y) : ∃ z' l, Expands m z z' l := by
  induction hz using ReflTransGen.head_induction_on with
  | refl => exact ⟨x, k, h⟩
  | head hmem _ ih =>
    obtain ⟨_, _, hexpands⟩ := ih
    exact hexpands.of_mem_parts hmem

/-- A name stays as it is. -/
theorem eq_of_qualifiedName? (h : Expands m x y k) {q : Bytes} (hq : x.qualifiedName? = some q) :
    y = x := by
  induction x generalizing y k q with
  | ident =>
    cases h
    rfl
  | selector x sel p ih =>
    cases h with
    | selector hx =>
      rw [Node.qualifiedName?] at hq
      obtain ⟨q', hq', -⟩ := Option.map_eq_some_iff.mp hq
      rw [ih hx hq']
  | missing | literal | binary | unary | paren | call | other => cases hq

/-- In a tree that expands, the marker is called with one operand each time. -/
theorem not_miscalls (h : Expands m x y k) : ¬x.Miscalls m := by
  intro hmiscalls
  obtain ⟨fn, args, p, e, q, hinside, hname, hargs⟩ := hmiscalls
  obtain ⟨_, _, hcall⟩ := h.of_inside hinside
  cases hcall with
  | call hfn _ hother => exact hother (by rw [hfn.eq_of_qualifiedName? hname]; exact hname)
  | marker => exact hargs rfl

end Expands

/-- A source in which the marker is called with no operand or several is not relaxed. -/
theorem relaxSource_of_miscalls {file source : Bytes} {p : Program}
    (hp : Program.parse? file source = some p) (h : p.resolve.file.Miscalls m) :
    ∃ f, relaxSource m file source = .error f := by
  cases hexpand : p.resolve.expand m with
  | error f => exact ⟨f, by simp only [relaxSource, hp, hexpand]⟩
  | ok r =>
    obtain ⟨p', n⟩ := r
    obtain ⟨file', hexpands, -⟩ := Program.expands_of_expand hexpand
    exact absurd h hexpands.not_miscalls

/-- A source that is no program is not relaxed. -/
theorem relaxSource_of_unparsable {file source : Bytes} (hp : Program.parse? file source = none) :
    relaxSource m file source = .error ⟨.unparsable, 0⟩ := by
  simp only [relaxSource, hp]

end RelaxArith.Host
