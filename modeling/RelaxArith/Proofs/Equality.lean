/-
Equality of trees, and copies without stubs.

Equality compares erasures, so its laws are those of `=`: no induction over two or three trees at
once is needed for symmetry or transitivity.

A copy of a tree has a plain missing part wherever the tree has a stub, and is the same tree
elsewhere.  That nothing gets lost is said place by place: a path from the root leads to a node of
the copy exactly if it leads to a node of the tree, and of that node the copy keeps the span and the
payload.  Its shape, its symbols and its leaves it keeps as well, since it equals the tree.
-/
import RelaxArith.Proofs.Erasure
import RelaxArith.Proofs.Stubs

namespace RelaxArith

variable {π : Type}

namespace Expr

/-- What the host has noted at a node. -/
def payload? : Expr π → Option π
  | foreign _ payload _ => payload
  | _ => none

/-- The part of a tree that a path leads to. A path says at each node which child to go to. -/
def part? (e : Expr π) : List Nat → Option (Expr π)
  | [] => some e
  | i :: path => e.children[i]?.bind fun c => c.part? path

/-! ### What a copy keeps -/

theorem erase_withoutStubs (e : Expr π) : e.withoutStubs.erase = e.erase := by
  induction e with
  | absent | ident | literal | foreign => rfl
  | binary op l r s hl hr => rw [withoutStubs, erase, erase, hl, hr]
  | prefixed op x s hx => rw [withoutStubs, erase, erase, hx]
  | group es s hes =>
    have hall : eraseAll (withoutStubsAll es) = eraseAll es := by
      rw [eraseAll_eq_map, eraseAll_eq_map, withoutStubsAll_eq_map, List.map_map]
      exact List.map_congr_left hes
    rw [withoutStubs, erase, erase, hall]
  | call f args s hf hargs =>
    have hall : eraseArgs (withoutStubsArgs args) = eraseArgs args := by
      rw [eraseArgs_eq_map, eraseArgs_eq_map, withoutStubsArgs_eq_map, List.map_map]
      exact List.map_congr_left fun a ha => congrArg (Prod.mk a.1) (hargs a ha)
    rw [withoutStubs, erase, erase, hf, hall]
  | assign t v s ht hv => rw [withoutStubs, erase, erase, ht, hv]

theorem span_withoutStubs (e : Expr π) : e.withoutStubs.span = e.span := by
  cases e with
  | absent | ident | literal | binary | prefixed | group | call | assign | foreign => rfl

theorem payload?_withoutStubs (e : Expr π) : e.withoutStubs.payload? = e.payload? := by
  cases e with
  | absent | ident | literal | binary | prefixed | group | call | assign | foreign => rfl

theorem children_withoutStubs (e : Expr π) :
    e.withoutStubs.children = e.children.map withoutStubs := by
  cases e with
  | absent | ident | literal | binary | prefixed | assign | foreign => rfl
  | group es s => rw [withoutStubs, children, children, withoutStubsAll_eq_map]
  | call f args s =>
    rw [withoutStubs, children, children, withoutStubsArgs_eq_map, List.map_map, List.map_cons,
      List.map_map]
    rfl

/-- The parts of a copy are the copies of the parts. -/
theorem part?_withoutStubs (e : Expr π) (path : List Nat) :
    e.withoutStubs.part? path = (e.part? path).map withoutStubs := by
  induction path generalizing e with
  | nil => rfl
  | cons i path ih =>
    rw [part?, part?, children_withoutStubs, List.getElem?_map]
    cases e.children[i]? with
    | none => rfl
    | some c => exact ih c

/-- A copy is a tree without stubs, so it is its own copy. -/
theorem withoutStubs_withoutStubs (e : Expr π) : e.withoutStubs.withoutStubs = e.withoutStubs :=
  withoutStubs_eq (containsStub_withoutStubs e)

end Expr

open RelaxArith.Expr

/-- **Equality is equality of erasures.** Two trees are equal exactly if they are the same once all
spans and payloads are dropped and every stub is a plain missing part. So equality is reflexive,
symmetric and transitive. The copy of a tree without its stubs equals the tree; the node that a path
leads to has the same span and the same payload in both; no stub stands in the copy; and copying the
copy changes nothing. -/
theorem equal_is_equality_of_erasures :
    (∀ e f : Expr π, e.equal f = true ↔ e.erase = f.erase) ∧
    Equivalence (fun e f : Expr π => e.equal f = true) ∧
    ∀ e : Expr π,
      e.withoutStubs.equal e = true ∧
      (∀ path, (e.withoutStubs.part? path).map (fun x => (x.span, x.payload?))
        = (e.part? path).map fun x => (x.span, x.payload?)) ∧
      (∀ k, ¬ (absent (some k)).Inside e.withoutStubs) ∧
      e.withoutStubs.withoutStubs = e.withoutStubs := by
  have hequal : ∀ e f : Expr π, e.equal f = true ↔ e.erase = f.erase := fun _ _ => equal_iff_erase
  refine ⟨hequal, ⟨?_, ?_, ?_⟩, fun e => ⟨?_, ?_, ?_, ?_⟩⟩
  · intro e
    exact (hequal e e).mpr rfl
  · intro e f hef
    exact (hequal f e).mpr ((hequal e f).mp hef).symm
  · intro e f g hef hfg
    exact (hequal e g).mpr (((hequal e f).mp hef).trans ((hequal f g).mp hfg))
  · exact (hequal _ e).mpr (erase_withoutStubs e)
  · intro path
    have hnotes : ∀ x : Expr π,
        (x.withoutStubs.span, x.withoutStubs.payload?) = (x.span, x.payload?) :=
      fun x => Prod.ext (span_withoutStubs x) (payload?_withoutStubs x)
    rw [part?_withoutStubs, Option.map_map]
    exact congrArg (fun note => (e.part? path).map note) (funext hnotes)
  · intro k hk
    have hnone := containsStub_withoutStubs e
    rw [containsStub_iff.mpr ⟨k, hk⟩] at hnone
    cases hnone
  · exact withoutStubs_withoutStubs e

end RelaxArith
