/-
What expanding marker calls does to a file.

The walk over a tree goes from the leaves up and replaces as it goes, so the callee of a call may
become the marker only after something inside it was replaced, and an argument may carry along parts
that were changed before.  `Expands` says what comes out without saying how it is computed: each
construct with its parts expanded, and in the place of a call of the marker the relaxed form of its
expanded argument.  The walk ends without an error exactly if a tree expands, and then counts what
was replaced.

Where the marker is not called at all, nothing is replaced; where it is not called inside callees,
every call of it is.
-/
import RelaxArith.Host.Marker
import RelaxArith.Proofs.Except
import RelaxArith.Proofs.Host.Exchange

namespace RelaxArith.Host

open RelaxArith.Expr

/-! ### Expanded trees -/

/-- A relation between trees, with a number, holds of lists of them one by one; the numbers are
added up. -/
inductive Each (r : Node → Node → Nat → Prop) : List Node → List Node → Nat → Prop
  | nil : Each r [] [] 0
  | cons {x y : Node} {xs ys : List Node} {k l : Nat} (hx : r x y k) (hxs : Each r xs ys l) :
      Each r (x :: xs) (y :: ys) (k + l)

theorem Each.exists_of_mem {r : Node → Node → Nat → Prop} {xs ys : List Node} {k : Nat}
    (h : Each r xs ys k) : ∀ y ∈ ys, ∃ x ∈ xs, ∃ l, r x y l := by
  induction h with
  | nil => nofun
  | @cons x y xs ys k l hx _ ih =>
    refine List.forall_mem_cons.mpr ⟨⟨x, List.mem_cons_self, k, hx⟩, ?_⟩
    intro z hz
    obtain ⟨w, hw, j, hr⟩ := ih z hz
    exact ⟨w, List.mem_cons_of_mem x hw, j, hr⟩

/-- What `go` and `defer` start is a call. -/
def Startable (form : Form) (parts : List Node) : Prop :=
  ∀ p x, form = .go p ∨ form = .defer p → parts = [x] → x.isCall = true

/-- A tree becomes another one if, from the leaves up, each call of the marker is replaced by the
relaxed form of its argument and all else is left alone; with the number of calls replaced. -/
inductive Expands (m : Marker) : Node → Node → Nat → Prop
  | missing : Expands m .missing .missing 0
  | ident (name : Bytes) (p : Nat) (res : Bool) :
      Expands m (.ident name p res) (.ident name p res) 0
  | literal (kind : LiteralKind) (raw : Bytes) (p w : Nat) :
      Expands m (.literal kind raw p w) (.literal kind raw p w) 0
  | selector {x x' : Node} {sel : Bytes} {p k : Nat} (hx : Expands m x x' k) :
      Expands m (.selector x sel p) (.selector x' sel p) k
  | binary {op : Bytes} {x x' y y' : Node} {p k l : Nat} (hx : Expands m x x' k)
      (hy : Expands m y y' l) : Expands m (.binary op x y p) (.binary op x' y' p) (k + l)
  | unary {op : Bytes} {x x' : Node} {p k : Nat} (hx : Expands m x x' k) :
      Expands m (.unary op x p) (.unary op x' p) k
  | paren {x x' : Node} {p q k : Nat} (hx : Expands m x x' k) :
      Expands m (.paren x p q) (.paren x' p q) k
  | call {fn fn' : Node} {args args' : List Node} {p e q k l : Nat} (hfn : Expands m fn fn' k)
      (hargs : Each (Expands m) args args' l) (hname : fn'.qualifiedName? ≠ some m.name) :
      Expands m (.call fn args p e q) (.call fn' args' p e q) (k + l)
  | marker {fn fn' arg arg' x : Node} {p e q k l : Nat} (hfn : Expands m fn fn' k)
      (harg : Expands m arg arg' l) (hname : fn'.qualifiedName? = some m.name)
      (hx : Node.ofExpr (m.relaxer.relax arg'.toExpr) = .ok x) :
      Expands m (.call fn [arg] p e q) x (k + l + 1)
  | other {form : Form} {parts parts' : List Node} {k : Nat}
      (hparts : Each (Expands m) parts parts' k) (hstart : Startable form parts') :
      Expands m (.other form parts) (.other form parts') k

section Induction

variable {m : Marker} {motive : ∀ x y k, Expands m x y k → Prop}
  (missing : motive .missing .missing 0 .missing)
  (ident : ∀ name p res, motive _ _ _ (.ident name p res))
  (literal : ∀ kind raw p w, motive _ _ _ (.literal kind raw p w))
  (selector : ∀ {x x' sel p k} (hx : Expands m x x' k), motive x x' k hx →
    motive (.selector x sel p) (.selector x' sel p) k (.selector hx))
  (binary : ∀ {op x x' y y' p k l} (hx : Expands m x x' k) (hy : Expands m y y' l),
    motive x x' k hx → motive y y' l hy →
    motive (.binary op x y p) (.binary op x' y' p) (k + l) (.binary hx hy))
  (unary : ∀ {op x x' p k} (hx : Expands m x x' k), motive x x' k hx →
    motive (.unary op x p) (.unary op x' p) k (.unary hx))
  (paren : ∀ {x x' p q k} (hx : Expands m x x' k), motive x x' k hx →
    motive (.paren x p q) (.paren x' p q) k (.paren hx))
  (call : ∀ {fn fn' args args' p e q k l} (hfn : Expands m fn fn' k)
    (hargs : Each (Expands m) args args' l) (hname : fn'.qualifiedName? ≠ some m.name),
    motive fn fn' k hfn → Each (fun x y k => ∃ h, motive x y k h) args args' l →
    motive (.call fn args p e q) (.call fn' args' p e q) (k + l) (.call hfn hargs hname))
  (marker : ∀ {fn fn' arg arg' x p e q k l} (hfn : Expands m fn fn' k)
    (harg : Expands m arg arg' l) (hname : fn'.qualifiedName? = some m.name)
    (hx : Node.ofExpr (m.relaxer.relax arg'.toExpr) = .ok x),
    motive fn fn' k hfn → motive arg arg' l harg →
    motive (.call fn [arg] p e q) x (k + l + 1) (.marker hfn harg hname hx))
  (other : ∀ {form parts parts' k} (hparts : Each (Expands m) parts parts' k)
    (hstart : Startable form parts'), Each (fun x y k => ∃ h, motive x y k h) parts parts' k →
    motive (.other form parts) (.other form parts') k (.other hparts hstart))

include missing ident literal selector binary unary paren call marker other

/-- What passes from the parts of expanded trees to the trees holds of all of them. -/
@[elab_as_elim]
theorem Expands.induct {x y : Node} {k : Nat} (h : Expands m x y k) : motive x y k h :=
  @Expands.rec m (fun x y k h => motive x y k h)
    (fun xs ys k _ => Each (fun x y k => ∃ h, motive x y k h) xs ys k)
    missing ident literal
    (fun hx ihx => selector hx ihx)
    (fun hx hy ihx ihy => binary hx hy ihx ihy)
    (fun hx ihx => unary hx ihx)
    (fun hx ihx => paren hx ihx)
    (fun hfn hargs hname ihfn ihargs => call hfn hargs hname ihfn ihargs)
    (fun hfn harg hname hx ihfn iharg => marker hfn harg hname hx ihfn iharg)
    (fun hparts hstart ihparts => other hparts hstart ihparts)
    .nil (fun hx _ ihx ihxs => .cons ⟨hx, ihx⟩ ihxs) x y k h

end Induction

/-! ### The walk -/

theorem startable_iff {form : Form} {p : Nat} (hform : form = .go p ∨ form = .defer p) (x : Node) :
    Startable form [x] ↔ x.isCall = true := by
  constructor
  · intro h
    exact h p x hform rfl
  · rintro h _ _ _ ⟨⟩
    exact h

namespace Marker

variable {m : Marker}

theorem visitOther_eq_ok_iff {form : Form} {parts : List Node} {n : Nat} {r : Node × Nat} :
    visitOther form parts n = .ok r ↔ Startable form parts ∧ r = (.other form parts, n) := by
  rw [visitOther.eq_def]
  split
  · rename_i p x
    rw [startable_iff (.inl rfl)]
    by_cases hcall : x.isCall = true <;> simp [hcall, eq_comm]
  · rename_i p x
    rw [startable_iff (.inr rfl)]
    by_cases hcall : x.isCall = true <;> simp [hcall, eq_comm]
  · rename_i hgo hdefer
    have hstart : Startable form parts := by
      rintro p x (rfl | rfl) rfl
      · exact absurd rfl (hgo p x rfl)
      · exact absurd rfl (hdefer p x rfl)
    simp [hstart, eq_comm]

/-- A call of the marker is replaced by the relaxed form of its one argument. -/
theorem replacement_eq_ok_iff {pos stop : Nat} {args : List Node} {x : Node} :
    m.replacement pos stop args = .ok x ↔
      ∃ arg, args = [arg] ∧ Node.ofExpr (m.relaxer.relax arg.toExpr) = .ok x := by
  cases args with
  | nil => simp [replacement, Relaxer.expand]
  | cons arg rest =>
    cases rest with
    | cons arg' rest => simp [replacement]
    | nil =>
      cases harg : arg.toExpr with
      | absent k =>
        -- an argument that is missing is no operand, and has no Go form either
        simp [replacement, Relaxer.expand, harg, isAbsent, Relaxer.relax, Node.ofExpr]
      | ident | literal | binary | prefixed | group | call | assign | foreign =>
        cases hx : Node.ofExpr (m.relaxer.relax arg.toExpr) with
        | error e =>
          rw [harg] at hx
          simp [replacement, Relaxer.expand, harg, isAbsent, hx]
        | ok y =>
          rw [harg] at hx
          simp [replacement, Relaxer.expand, harg, isAbsent, hx]

theorem visitCall_of_ne {fn : Node} (hname : fn.qualifiedName? ≠ some m.name) (args : List Node)
    (p e q n : Nat) : m.visitCall fn args p e q n = .ok (.call fn args p e q, n) := by
  rw [visitCall, if_neg hname]

theorem visitCall_eq_ok_iff {fn : Node} (hname : fn.qualifiedName? = some m.name)
    {args : List Node} {p e q n j : Nat} {x : Node} :
    m.visitCall fn args p e q n = .ok (x, j) ↔
      (∃ arg, args = [arg] ∧ Node.ofExpr (m.relaxer.relax arg.toExpr) = .ok x) ∧ j = n + 1 := by
  rw [visitCall, if_pos hname, ← replacement_eq_ok_iff]
  cases m.replacement (Node.call fn args p e q).pos (Node.call fn args p e q).stop args with
  | error err => simp
  | ok y => simp [eq_comm]

/-! Each construct as a composition of the walks over its parts. -/

section Equations

attribute [local simp] expand expandAll Except.bind

theorem expand_selector (n : Nat) (x : Node) (sel : Bytes) (p : Nat) :
    m.expand n (.selector x sel p) = (m.expand n x).bind fun r => .ok (.selector r.1 sel p, r.2) := by
  cases hx : m.expand n x <;> simp [hx]

theorem expand_binary (n : Nat) (op : Bytes) (x y : Node) (p : Nat) :
    m.expand n (.binary op x y p) = (m.expand n x).bind fun r =>
      (m.expand r.2 y).bind fun s => .ok (.binary op r.1 s.1 p, s.2) := by
  cases hx : m.expand n x with
  | error e => simp [hx]
  | ok r => cases hy : m.expand r.2 y <;> simp [hx, hy]

theorem expand_unary (n : Nat) (op : Bytes) (x : Node) (p : Nat) :
    m.expand n (.unary op x p) = (m.expand n x).bind fun r => .ok (.unary op r.1 p, r.2) := by
  cases hx : m.expand n x <;> simp [hx]

theorem expand_paren (n : Nat) (x : Node) (p q : Nat) :
    m.expand n (.paren x p q) = (m.expand n x).bind fun r => .ok (.paren r.1 p q, r.2) := by
  cases hx : m.expand n x <;> simp [hx]

theorem expand_call (n : Nat) (fn : Node) (args : List Node) (p e q : Nat) :
    m.expand n (.call fn args p e q) = (m.expand n fn).bind fun r =>
      (m.expandAll r.2 args).bind fun s => m.visitCall r.1 s.1 p e q s.2 := by
  cases hfn : m.expand n fn with
  | error e => simp [hfn]
  | ok r => cases hargs : m.expandAll r.2 args <;> simp [hfn, hargs]

theorem expand_other (n : Nat) (form : Form) (parts : List Node) :
    m.expand n (.other form parts)
      = (m.expandAll n parts).bind fun r => visitOther form r.1 r.2 := by
  cases hparts : m.expandAll n parts <;> simp [hparts]

theorem expandAll_cons (n : Nat) (x : Node) (xs : List Node) :
    m.expandAll n (x :: xs) = (m.expand n x).bind fun r =>
      (m.expandAll r.2 xs).bind fun s => .ok (r.1 :: s.1, s.2) := by
  cases hx : m.expand n x with
  | error e => simp [hx]
  | ok r => cases hxs : m.expandAll r.2 xs <;> simp [hx, hxs]

end Equations

theorem each_of_expandAll {xs ys : List Node} {n j : Nat}
    (h : ∀ x ∈ xs, ∀ n y j, m.expand n x = .ok (y, j) → ∃ k, j = n + k ∧ Expands m x y k)
    (hall : m.expandAll n xs = .ok (ys, j)) : ∃ k, j = n + k ∧ Each (Expands m) xs ys k := by
  induction xs generalizing n ys j with
  | nil =>
    cases hall
    exact ⟨0, rfl, .nil⟩
  | cons x xs ih =>
    rw [List.forall_mem_cons] at h
    rw [expandAll_cons] at hall
    obtain ⟨⟨x', n'⟩, hx, hrest⟩ := bind_eq_ok.mp hall
    obtain ⟨⟨xs', j'⟩, hxs, heq⟩ := bind_eq_ok.mp hrest
    cases heq
    obtain ⟨k, rfl, hexpands⟩ := h.1 n x' n' hx
    obtain ⟨l, rfl, heach⟩ := ih h.2 hxs
    exact ⟨k + l, Nat.add_assoc n k l, .cons hexpands heach⟩

/-- What the walk gives is an expanded tree. -/
theorem expands_of_expand {x x' : Node} {n j : Nat} (h : m.expand n x = .ok (x', j)) :
    ∃ k, j = n + k ∧ Expands m x x' k := by
  induction x generalizing n x' j with
  | missing =>
    cases h
    exact ⟨0, rfl, .missing⟩
  | ident name p res =>
    cases h
    exact ⟨0, rfl, .ident name p res⟩
  | literal kind raw p w =>
    cases h
    exact ⟨0, rfl, .literal kind raw p w⟩
  | selector x sel p ih =>
    rw [expand_selector] at h
    obtain ⟨⟨y, i⟩, hx, heq⟩ := bind_eq_ok.mp h
    cases heq
    obtain ⟨k, hk, hexpands⟩ := ih hx
    exact ⟨k, hk, .selector hexpands⟩
  | binary op x y p ihx ihy =>
    rw [expand_binary] at h
    obtain ⟨⟨z, i⟩, hx, hrest⟩ := bind_eq_ok.mp h
    obtain ⟨⟨w, j'⟩, hy, heq⟩ := bind_eq_ok.mp hrest
    cases heq
    obtain ⟨k, rfl, hleft⟩ := ihx hx
    obtain ⟨l, rfl, hright⟩ := ihy hy
    exact ⟨k + l, Nat.add_assoc n k l, .binary hleft hright⟩
  | unary op x p ih =>
    rw [expand_unary] at h
    obtain ⟨⟨y, i⟩, hx, heq⟩ := bind_eq_ok.mp h
    cases heq
    obtain ⟨k, hk, hexpands⟩ := ih hx
    exact ⟨k, hk, .unary hexpands⟩
  | paren x p q ih =>
    rw [expand_paren] at h
    obtain ⟨⟨y, i⟩, hx, heq⟩ := bind_eq_ok.mp h
    cases heq
    obtain ⟨k, hk, hexpands⟩ := ih hx
    exact ⟨k, hk, .paren hexpands⟩
  | call fn args p e q ihfn ihargs =>
    rw [expand_call] at h
    obtain ⟨⟨fn', i⟩, hfn, hrest⟩ := bind_eq_ok.mp h
    obtain ⟨⟨args', j'⟩, hargs, hvisit⟩ := bind_eq_ok.mp hrest
    obtain ⟨k, rfl, hexpands⟩ := ihfn hfn
    obtain ⟨l, rfl, heach⟩ := each_of_expandAll (fun x hx n y j => ihargs x hx) hargs
    by_cases hname : fn'.qualifiedName? = some m.name
    · obtain ⟨⟨arg', rfl, hx⟩, rfl⟩ := (visitCall_eq_ok_iff hname).mp hvisit
      -- one argument came out, so one went in
      cases heach with
      | cons harg hnil =>
        cases hnil
        exact ⟨_, by omega, .marker hexpands harg hname hx⟩
    · rw [visitCall_of_ne hname] at hvisit
      cases hvisit
      exact ⟨k + l, Nat.add_assoc n k l, .call hexpands heach hname⟩
  | other form parts ih =>
    rw [expand_other] at h
    obtain ⟨⟨parts', j'⟩, hparts, hvisit⟩ := bind_eq_ok.mp h
    obtain ⟨hstart, heq⟩ := visitOther_eq_ok_iff.mp hvisit
    cases heq
    obtain ⟨k, hk, heach⟩ := each_of_expandAll (fun x hx n y j => ih x hx) hparts
    exact ⟨k, hk, .other heach hstart⟩

theorem expandAll_of_each {xs ys : List Node} {k : Nat}
    (h : Each (fun x y k => ∃ _ : Expands m x y k, ∀ n, m.expand n x = .ok (y, n + k)) xs ys k)
    (n : Nat) : m.expandAll n xs = .ok (ys, n + k) := by
  induction h generalizing n with
  | nil => rfl
  | @cons x y xs ys k l hx _ ih =>
    obtain ⟨_, hx⟩ := hx
    rw [expandAll_cons]
    refine bind_eq_ok.mpr ⟨_, hx n, bind_eq_ok.mpr ⟨_, ih (n + k), ?_⟩⟩
    rw [Nat.add_assoc]

end Marker

/-- The walk finds the expanded tree. -/
theorem Expands.expand_eq {m : Marker} {x y : Node} {k : Nat} (h : Expands m x y k) (n : Nat) :
    m.expand n x = .ok (y, n + k) := by
  induction h using Expands.induct generalizing n with
  | missing | ident | literal => rfl
  | selector _ ih =>
    rw [Marker.expand_selector]
    exact bind_eq_ok.mpr ⟨_, ih n, rfl⟩
  | @binary op x x' y y' p k l _ _ ihx ihy =>
    rw [Marker.expand_binary, ← Nat.add_assoc]
    exact bind_eq_ok.mpr ⟨_, ihx n, bind_eq_ok.mpr ⟨_, ihy (n + k), rfl⟩⟩
  | unary _ ih =>
    rw [Marker.expand_unary]
    exact bind_eq_ok.mpr ⟨_, ih n, rfl⟩
  | paren _ ih =>
    rw [Marker.expand_paren]
    exact bind_eq_ok.mpr ⟨_, ih n, rfl⟩
  | @call fn fn' args args' p e q k l _ _ hname ihfn ihargs =>
    rw [Marker.expand_call, ← Nat.add_assoc]
    have hargs := Marker.expandAll_of_each ihargs (n + k)
    refine bind_eq_ok.mpr ⟨_, ihfn n, bind_eq_ok.mpr ⟨_, hargs, ?_⟩⟩
    exact Marker.visitCall_of_ne hname args' p e q (n + k + l)
  | @marker fn fn' arg arg' x p e q k l _ _ hname hx ihfn iharg =>
    have hargs : m.expandAll (n + k) [arg] = .ok ([arg'], n + k + l) := by
      rw [Marker.expandAll_cons]
      exact bind_eq_ok.mpr ⟨_, iharg (n + k), rfl⟩
    rw [Marker.expand_call]
    refine bind_eq_ok.mpr ⟨_, ihfn n, bind_eq_ok.mpr ⟨_, hargs, ?_⟩⟩
    exact (Marker.visitCall_eq_ok_iff hname).mpr ⟨⟨arg', rfl, hx⟩, by omega⟩
  | other _ hstart ihparts =>
    rw [Marker.expand_other]
    refine bind_eq_ok.mpr ⟨_, Marker.expandAll_of_each ihparts n, ?_⟩
    exact Marker.visitOther_eq_ok_iff.mpr ⟨hstart, rfl⟩

/-- A tree expands in one way. -/
theorem Expands.unique {m : Marker} {x y z : Node} {k l : Nat} (hy : Expands m x y k)
    (hz : Expands m x z l) : y = z ∧ k = l := by
  have heq := (hy.expand_eq 0).symm.trans (hz.expand_eq 0)
  obtain ⟨hyz, hkl⟩ := Prod.mk.inj (Except.ok.inj heq)
  exact ⟨hyz, Nat.add_left_cancel hkl⟩

/-! ### The number of calls -/

section Counting

variable {m : Marker} {x y : Node} {xs ys : List Node} {k : Nat}

theorem eq_of_each (h : Each (fun x y k => ∃ _ : Expands m x y k,
      m.name ∉ x.calledNames → y = x ∧ k = 0) xs ys k)
    (hnot : m.name ∉ Node.calledNamesAll xs) : ys = xs ∧ k = 0 := by
  induction h with
  | nil => exact ⟨rfl, rfl⟩
  | cons hx _ ih =>
    rw [Node.calledNamesAll, List.mem_append, not_or] at hnot
    obtain ⟨_, hx⟩ := hx
    obtain ⟨rfl, rfl⟩ := hx hnot.1
    obtain ⟨rfl, rfl⟩ := ih hnot.2
    exact ⟨rfl, rfl⟩

/-- A tree in which the marker is not called stays as it is. -/
theorem Expands.eq_of_not_mem (h : Expands m x y k) (hnot : m.name ∉ x.calledNames) :
    y = x ∧ k = 0 := by
  induction h using Expands.induct with
  | missing | ident | literal => exact ⟨rfl, rfl⟩
  | selector _ ih | unary _ ih | paren _ ih =>
    obtain ⟨rfl, rfl⟩ := ih hnot
    exact ⟨rfl, rfl⟩
  | binary _ _ ihx ihy =>
    rw [Node.calledNames, List.mem_append, not_or] at hnot
    obtain ⟨rfl, rfl⟩ := ihx hnot.1
    obtain ⟨rfl, rfl⟩ := ihy hnot.2
    exact ⟨rfl, rfl⟩
  | call _ _ _ ihfn ihargs =>
    rw [Node.calledNames, List.mem_append, List.mem_append, not_or, not_or] at hnot
    obtain ⟨rfl, rfl⟩ := ihfn hnot.1.2
    obtain ⟨rfl, rfl⟩ := eq_of_each ihargs hnot.2
    exact ⟨rfl, rfl⟩
  | marker _ _ hname _ ihfn _ =>
    -- the callee is as it was before, so it was the marker from the beginning
    rw [Node.calledNames, List.mem_append, List.mem_append, not_or, not_or] at hnot
    obtain ⟨rfl, rfl⟩ := ihfn hnot.1.2
    rw [hname] at hnot
    exact absurd (List.mem_singleton.mpr rfl) hnot.1.1
  | other _ _ ihparts =>
    obtain ⟨rfl, rfl⟩ := eq_of_each ihparts hnot
    exact ⟨rfl, rfl⟩

theorem count_of_each (h : Each (fun x y k => ∃ _ : Expands m x y k,
      m.name ∉ x.calleeNames → k = x.calledNames.count m.name) xs ys k)
    (hnot : m.name ∉ Node.calleeNamesAll xs) :
    k = (Node.calledNamesAll xs).count m.name := by
  induction h with
  | nil => rfl
  | cons hx _ ih =>
    rw [Node.calleeNamesAll, List.mem_append, not_or] at hnot
    obtain ⟨_, hx⟩ := hx
    rw [Node.calledNamesAll, List.count_append, ← hx hnot.1, ← ih hnot.2]

/-- Where the marker is not called inside callees, each of its calls is replaced once. -/
theorem Expands.eq_count (h : Expands m x y k) (hnot : m.name ∉ x.calleeNames) :
    k = x.calledNames.count m.name := by
  induction h using Expands.induct with
  | missing | ident | literal => rfl
  | selector _ ih | unary _ ih | paren _ ih => exact ih hnot
  | binary _ _ ihx ihy =>
    rw [Node.calleeNames, List.mem_append, not_or] at hnot
    rw [Node.calledNames, List.count_append, ← ihx hnot.1, ← ihy hnot.2]
  | call hfn _ hname _ ihargs =>
    rw [Node.calleeNames, List.mem_append, not_or] at hnot
    obtain ⟨rfl, rfl⟩ := hfn.eq_of_not_mem hnot.1
    have hother := mt Option.mem_toList.mp hname
    rw [Node.calledNames, List.count_append, List.count_append,
      List.count_eq_zero_of_not_mem hother, List.count_eq_zero_of_not_mem hnot.1,
      ← count_of_each ihargs hnot.2, Nat.zero_add]
  | marker hfn _ hname _ _ iharg =>
    rw [Node.calleeNames, List.mem_append, not_or] at hnot
    obtain ⟨rfl, rfl⟩ := hfn.eq_of_not_mem hnot.1
    have harg : m.name ∉ Node.calleeNames _ := fun h => hnot.2 (List.mem_append_left _ h)
    rw [Node.calledNames, List.count_append, List.count_append, hname,
      List.count_eq_zero_of_not_mem hnot.1, Node.calledNamesAll, Node.calledNamesAll,
      List.append_nil, ← iharg harg]
    simp [Nat.add_comm]
  | other _ _ ihparts => exact count_of_each ihparts hnot

end Counting

end RelaxArith.Host
