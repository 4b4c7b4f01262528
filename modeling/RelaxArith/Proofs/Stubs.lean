/-
Stubs.

Whether a tree contains a stub is a recursion over the tree.  What the proofs need of it is where
the stub is: a tree contains one exactly if one stands in it.  Replacing stubs by plain missing parts
leaves none, and changes nothing if there was none.
-/
import RelaxArith.Expr.Equality
import RelaxArith.Proofs.Tree

namespace RelaxArith.Expr

variable {π : Type}

/-! ### Where a stub is -/

theorem containsStubAll_eq_any (es : List (Expr π)) :
    containsStubAll es = es.any containsStub := by
  induction es with
  | nil => rfl
  | cons e es ih => rw [containsStubAll, ih, List.any_cons]

theorem containsStubArgs_eq_any (args : List (Bytes × Expr π)) :
    containsStubArgs args = args.any fun a => a.2.containsStub := by
  induction args with
  | nil => rfl
  | cons a args ih => rw [containsStubArgs, ih, List.any_cons]

theorem isStub_iff {e : Expr π} : e.isStub = true ↔ ∃ k, e = absent (some k) := by
  cases e with
  | absent k => cases k <;> simp [isStub]
  | ident | literal | binary | prefixed | group | call | assign | foreign => simp [isStub]

theorem containsStub_eq_any (e : Expr π) :
    e.containsStub = (e.isStub || e.children.any containsStub) := by
  cases e with
  | absent k => cases k <;> rfl
  | ident | literal | foreign => rfl
  | binary | prefixed | assign => simp [containsStub, isStub, children]
  | group es s =>
    rw [containsStub, containsStubAll_eq_any]
    rfl
  | call f args s =>
    have hvalues : args.any (fun a => a.2.containsStub) = (args.map Prod.snd).any containsStub :=
      List.any_map.symm
    rw [containsStub, containsStubArgs_eq_any, hvalues]
    rfl

/-- A tree contains a stub if it is one or one of its children contains one. -/
theorem containsStub_iff_children {e : Expr π} :
    e.containsStub = true ↔ e.isStub = true ∨ ∃ c ∈ e.children, c.containsStub = true := by
  rw [containsStub_eq_any, Bool.or_eq_true, List.any_eq_true]

/-- **A tree contains a stub exactly if one stands in it.** -/
theorem containsStub_iff {e : Expr π} :
    e.containsStub = true ↔ ∃ k, (absent (some k)).Inside e := by
  induction e using induct_children with
  | h e ih =>
    rw [containsStub_iff_children, isStub_iff]
    constructor
    · rintro (⟨k, rfl⟩ | ⟨c, hc, h⟩)
      · exact ⟨k, .refl⟩
      · obtain ⟨k, hk⟩ := (ih c hc).mp h
        exact ⟨k, hk.of_child hc⟩
    · rintro ⟨k, hk⟩
      rcases inside_iff.mp hk with rfl | ⟨c, hc, hkc⟩
      · exact .inl ⟨k, rfl⟩
      · exact .inr ⟨c, hc, (ih c hc).mpr ⟨k, hkc⟩⟩

/-- What stands in a tree contains no more stubs than the tree. -/
theorem containsStub_of_inside {x e : Expr π} (hx : x.Inside e) (h : x.containsStub = true) :
    e.containsStub = true := by
  obtain ⟨k, hk⟩ := containsStub_iff.mp h
  exact containsStub_iff.mpr ⟨k, hk.trans hx⟩

/-- The parts of a tree without stubs have none. -/
theorem containsStub_of_mem_children {c e : Expr π} (hc : c ∈ e.children)
    (h : e.containsStub = false) : c.containsStub = false := by
  rw [Bool.eq_false_iff] at h ⊢
  exact fun hstub => h (containsStub_iff_children.mpr (.inr ⟨c, hc, hstub⟩))

/-- A tree none of whose nodes is missing contains no stub. -/
theorem containsStub_of_all_present {e : Expr π} (h : e.All fun x => x.isAbsent = false) :
    e.containsStub = false := by
  rw [Bool.eq_false_iff]
  intro hstub
  obtain ⟨k, hk⟩ := containsStub_iff.mp hstub
  exact absurd (all_iff_inside.mp h _ hk) Bool.true_eq_false.mp

/-! ### Trees without stubs -/

theorem withoutStubsAll_eq_map (es : List (Expr π)) :
    withoutStubsAll es = es.map withoutStubs := by
  induction es with
  | nil => rfl
  | cons e es ih => rw [withoutStubsAll, ih, List.map_cons]

theorem withoutStubsArgs_eq_map (args : List (Bytes × Expr π)) :
    withoutStubsArgs args = args.map fun a => (a.1, a.2.withoutStubs) := by
  induction args with
  | nil => rfl
  | cons a args ih => rw [withoutStubsArgs, ih, List.map_cons]

theorem containsStub_withoutStubs (e : Expr π) : e.withoutStubs.containsStub = false := by
  induction e with
  | absent | ident | literal | foreign => rfl
  | binary op l r s hl hr => rw [withoutStubs, containsStub, hl, hr, Bool.or_false]
  | prefixed op x s hx => rw [withoutStubs, containsStub, hx]
  | group es s hes =>
    rw [withoutStubs, containsStub, withoutStubsAll_eq_map, containsStubAll_eq_any, List.any_map,
      List.any_eq_false]
    exact fun e he => Bool.eq_false_iff.mp (hes e he)
  | call f args s hf hargs =>
    rw [withoutStubs, containsStub, hf, Bool.false_or, withoutStubsArgs_eq_map,
      containsStubArgs_eq_any, List.any_map, List.any_eq_false]
    exact fun a ha => Bool.eq_false_iff.mp (hargs a ha)
  | assign t v s ht hv => rw [withoutStubs, containsStub, ht, hv, Bool.or_false]

/-- A tree without stubs is its own copy. -/
theorem withoutStubs_eq {e : Expr π} (h : e.containsStub = false) : e.withoutStubs = e := by
  induction e with
  | absent k =>
    cases k with
    | none => rfl
    | some k => cases h
  | ident | literal | foreign => rfl
  | binary op l r s hl hr =>
    rw [withoutStubs, hl (containsStub_of_mem_children (by simp [children]) h),
      hr (containsStub_of_mem_children (by simp [children]) h)]
  | prefixed op x s hx =>
    rw [withoutStubs, hx (containsStub_of_mem_children (by simp [children]) h)]
  | group es s hes =>
    have hsame : es.map withoutStubs = es.map id :=
      List.map_congr_left fun e he => hes e he (containsStub_of_mem_children (e := .group es s) he h)
    rw [withoutStubs, withoutStubsAll_eq_map, hsame, List.map_id]
  | call f args s hf hargs =>
    have hvalue : ∀ a ∈ args, a.2.containsStub = false := fun a ha =>
      containsStub_of_mem_children (List.mem_cons_of_mem f (List.mem_map_of_mem ha)) h
    have hsame : args.map (fun a => (a.1, a.2.withoutStubs)) = args.map id :=
      List.map_congr_left fun a ha => congrArg (Prod.mk a.1) (hargs a ha (hvalue a ha))
    rw [withoutStubs, withoutStubsArgs_eq_map, hsame, List.map_id,
      hf (containsStub_of_mem_children List.mem_cons_self h)]
  | assign t v s ht hv =>
    rw [withoutStubs, ht (containsStub_of_mem_children (by simp [children]) h),
      hv (containsStub_of_mem_children (by simp [children]) h)]

end RelaxArith.Expr
