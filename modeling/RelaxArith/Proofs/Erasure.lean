/-
What equality of trees compares.

`equal` is a recursion over two trees at once, with two more for their lists.  Erasing is a
recursion over one: it forgets spans and payloads, and of a missing part the kind that it should
have had.  Two trees are equal exactly if nothing tells their erasures apart, so every law of
equality is a law of `=`.
-/
import RelaxArith.Expr.Equality
import RelaxArith.Proofs.Tree

namespace RelaxArith.Expr

variable {π : Type}

mutual

/-- What is left of a tree without its spans, payloads and stubs. -/
def erase : Expr π → Expr Empty
  | absent _ => absent none
  | ident n _ => ident n .null
  | literal t r _ => literal t r .null
  | binary op l r _ => binary op l.erase r.erase .null
  | prefixed op x _ => prefixed op x.erase .null
  | group es _ => group (eraseAll es) .null
  | call f args _ => call f.erase (eraseArgs args) .null
  | assign t v _ => assign t.erase v.erase .null
  | foreign t _ _ => foreign t none .null

/-- What is left of several trees. -/
def eraseAll : List (Expr π) → List (Expr Empty)
  | [] => []
  | e :: es => e.erase :: eraseAll es

/-- What is left of the arguments of a call: labels stay. -/
def eraseArgs : List (Bytes × Expr π) → List (Bytes × Expr Empty)
  | [] => []
  | (l, e) :: args => (l, e.erase) :: eraseArgs args

end

theorem eraseAll_eq_map (es : List (Expr π)) : eraseAll es = es.map erase := by
  induction es with
  | nil => rfl
  | cons e es ih => rw [eraseAll, ih, List.map_cons]

theorem eraseArgs_eq_map (args : List (Bytes × Expr π)) :
    eraseArgs args = args.map fun a => (a.1, a.2.erase) := by
  induction args with
  | nil => rfl
  | cons a args ih => rw [eraseArgs, ih, List.map_cons]

/-! ### Equality compares erasures -/

theorem equalAll_iff {es fs : List (Expr π)}
    (h : ∀ e ∈ es, ∀ f, e.equal f = true ↔ e.erase = f.erase) :
    equalAll es fs = true ↔ eraseAll es = eraseAll fs := by
  induction es generalizing fs with
  | nil => cases fs <;> simp [equalAll, eraseAll]
  | cons e es ih =>
    cases fs with
    | nil => simp [equalAll, eraseAll]
    | cons f fs =>
      have hes := @ih fs fun x hx => h x (by simp [hx])
      simp only [equalAll, eraseAll, Bool.and_eq_true, List.cons.injEq]
      rw [h e (by simp) f, hes]

theorem equalArgs_iff {as bs : List (Bytes × Expr π)}
    (h : ∀ a ∈ as, ∀ f, a.2.equal f = true ↔ a.2.erase = f.erase) :
    equalArgs as bs = true ↔ eraseArgs as = eraseArgs bs := by
  induction as generalizing bs with
  | nil => cases bs <;> simp [equalArgs, eraseArgs]
  | cons a as ih =>
    obtain ⟨l, e⟩ := a
    cases bs with
    | nil => simp [equalArgs, eraseArgs]
    | cons b bs =>
      obtain ⟨m, f⟩ := b
      have has := @ih bs fun x hx => h x (by simp [hx])
      simp only [equalArgs, eraseArgs, Bool.and_eq_true, List.cons.injEq, Prod.mk.injEq, beq_iff_eq]
      rw [h (l, e) (by simp) f, has]

/-- **Two trees are equal exactly if their erasures are the same.** -/
theorem equal_iff_erase {e f : Expr π} : e.equal f = true ↔ e.erase = f.erase := by
  induction e generalizing f with
  | absent k => cases f <;> simp [equal, erase]
  | ident n s => cases f <;> simp [equal, erase]
  | literal t r s => cases f <;> simp [equal, erase]
  | binary op l r s hl hr => cases f <;> simp [equal, erase, hl, hr, and_assoc]
  | prefixed op x s hx => cases f <;> simp [equal, erase, hx]
  | group es s hes =>
    cases f with
    | group fs s' =>
      rw [equal, equalAll_iff fun e he f => hes e he]
      simp [erase]
    | absent | ident | literal | binary | prefixed | call | assign | foreign =>
      simp [equal, erase]
  | call g args s hg hargs =>
    cases f with
    | call g' args' s' =>
      rw [equal, Bool.and_eq_true, hg, equalArgs_iff fun a ha f => hargs a ha]
      simp [erase]
    | absent | ident | literal | binary | prefixed | group | assign | foreign =>
      simp [equal, erase]
  | assign t v s ht hv => cases f <;> simp [equal, erase, ht, hv]
  | foreign t p s => cases f <;> simp [equal, erase]

end RelaxArith.Expr
