/-
Nothing is left to be replaced in an expanded tree.

A call of the marker can be left over in two ways: the relaxed form of an argument calls the marker,
or it carries along something that does.  The first cannot be because the functions of the relaxer
have other names and relaxing adds no other calls.  The second cannot be because arguments are
expanded before they are relaxed, also inside what the tree model does not look into.

Both are one invariant of the tree that is relaxed: no callee in it is the name of the marker, and
what its foreign nodes carry is settled.  Going over to trees gives it, relaxing keeps it, and going
back turns it into the statement about the Go expression.
-/
import RelaxArith.Proofs.Host.Expansion

namespace RelaxArith.Host

open RelaxArith.Expr

/-! ### Settled trees -/

/-- A tree in which the marker is not called, and `go` and `defer` start calls. -/
inductive Settled (m : Marker) : Node → Prop
  | missing : Settled m .missing
  | ident (name : Bytes) (p : Nat) (res : Bool) : Settled m (.ident name p res)
  | literal (kind : LiteralKind) (raw : Bytes) (p w : Nat) : Settled m (.literal kind raw p w)
  | selector {x : Node} {sel : Bytes} {p : Nat} (hx : Settled m x) : Settled m (.selector x sel p)
  | binary {op : Bytes} {x y : Node} {p : Nat} (hx : Settled m x) (hy : Settled m y) :
      Settled m (.binary op x y p)
  | unary {op : Bytes} {x : Node} {p : Nat} (hx : Settled m x) : Settled m (.unary op x p)
  | paren {x : Node} {p q : Nat} (hx : Settled m x) : Settled m (.paren x p q)
  | call {fn : Node} {args : List Node} {p e q : Nat} (hfn : Settled m fn)
      (hargs : ∀ x ∈ args, Settled m x) (hname : fn.qualifiedName? ≠ some m.name) :
      Settled m (.call fn args p e q)
  | other {form : Form} {parts : List Node} (hparts : ∀ x ∈ parts, Settled m x)
      (hstart : Startable form parts) : Settled m (.other form parts)

variable {m : Marker}

theorem each_self {xs : List Node} (h : ∀ x ∈ xs, Expands m x x 0) : Each (Expands m) xs xs 0 := by
  induction xs with
  | nil => exact .nil
  | cons x xs ih =>
    rw [List.forall_mem_cons] at h
    exact .cons h.1 (ih h.2)

/-- A settled tree stays as it is. -/
theorem Settled.expands {x : Node} (h : Settled m x) : Expands m x x 0 := by
  induction h with
  | missing => exact .missing
  | ident name p res => exact .ident name p res
  | literal kind raw p w => exact .literal kind raw p w
  | selector _ ih => exact .selector ih
  | binary _ _ ihx ihy => exact .binary ihx ihy
  | unary _ ih => exact .unary ih
  | paren _ ih => exact .paren ih
  | call _ _ hname ihfn ihargs => exact .call ihfn (each_self ihargs) hname
  | other _ hstart ihparts => exact .other (each_self ihparts) hstart

/-- In a settled tree the marker is called nowhere. -/
theorem Settled.not_mem_calledNames {x : Node} (h : Settled m x) : m.name ∉ x.calledNames := by
  induction h with
  | missing | ident | literal => exact List.not_mem_nil
  | selector _ ih | unary _ ih | paren _ ih => exact ih
  | binary _ _ ihx ihy =>
    rw [Node.calledNames, List.mem_append, not_or]
    exact ⟨ihx, ihy⟩
  | call _ _ hname ihfn ihargs =>
    rw [Node.calledNames, List.mem_append, List.mem_append, not_or, not_or]
    exact ⟨⟨mt Option.mem_toList.mp hname, ihfn⟩, Node.not_mem_calledNamesAll ihargs⟩
  | other _ _ ihparts => exact Node.not_mem_calledNamesAll ihparts

theorem settled_ofName (name : Bytes) : Settled m (Node.ofName name) :=
  Node.ofName_induct (fun name => .ident name 0 false) (fun _ _ hx => .selector hx) name

/-! ### Expressions without calls of the marker -/

/-- An expression tree without calls of the marker; what its foreign nodes carry is settled and
spells no name. Assignments have no Go form, so their parts do not matter. -/
inductive Unmarked (m : Marker) : Expr Payload → Prop
  | absent (k : Option Kind) : Unmarked m (.absent k)
  | ident (n : Bytes) (s : Span) : Unmarked m (.ident n s)
  | literal (t : LiteralType) (raw : Bytes) (s : Span) : Unmarked m (.literal t raw s)
  | binary {op : Bytes} {l r : Expr Payload} {s : Span} (hl : Unmarked m l) (hr : Unmarked m r) :
      Unmarked m (.binary op l r s)
  | prefixed {op : Bytes} {x : Expr Payload} {s : Span} (hx : Unmarked m x) :
      Unmarked m (.prefixed op x s)
  | paren {x : Expr Payload} {s : Span} (hx : Unmarked m x) : Unmarked m (.group [x] s)
  | call {f : Expr Payload} {args : List (Bytes × Expr Payload)} {s : Span} (hf : Unmarked m f)
      (hargs : ∀ a ∈ args, Unmarked m a.2) (hname : ∀ s, f ≠ .ident m.name s) :
      Unmarked m (.call f args s)
  | assign (t v : Expr Payload) (s : Span) : Unmarked m (.assign t v s)
  | foreign {text : Bytes} {x : Node} {s : Span} (hx : Settled m x)
      (hname : x.qualifiedName? = none) : Unmarked m (.foreign text (some (.node x)) s)

/-- What is not a name in Go is not a name in the tree. -/
theorem Node.qualifiedName?_of_toExpr {x : Node} {q : Bytes} {s : Span}
    (h : x.toExpr = .ident q s) : x.qualifiedName? = some q := by
  cases hx : x.qualifiedName? with
  | some q' =>
    rw [toExpr_of_qualifiedName? hx] at h
    cases h
    rfl
  | none =>
    cases x with
    | ident => cases hx
    | missing | literal | binary | unary | paren | other =>
      rw [toExpr] at h
      cases h
    | selector x sel p =>
      rw [transported_selector hx] at h
      cases h
    | call fn args p e q =>
      rw [toExpr] at h
      split at h <;> cases h

/-- The tree of a settled expression. -/
theorem Settled.unmarked_toExpr {x : Node} (h : Settled m x) : Unmarked m x.toExpr := by
  induction h with
  | missing => exact .absent none
  | ident name p res => exact .ident name _
  | literal kind raw p w => exact .literal _ raw _
  | @selector x sel p hx _ =>
    cases hq : (Node.selector x sel p).qualifiedName? with
    | none =>
      rw [Node.transported_selector hq]
      exact .foreign (.selector hx) hq
    | some q =>
      rw [Node.toExpr_of_qualifiedName? hq]
      exact .ident q _
  | binary _ _ ihx ihy => exact .binary ihx ihy
  | unary _ ih => exact .prefixed ih
  | paren _ ih => exact .paren ih
  | @call fn args p e q hfn hargs hname ihfn ihargs =>
    by_cases he : e = 0
    · rw [Node.toExpr, if_pos he, Node.toArgs_eq_map]
      refine .call ihfn ?_ ?_
      · intro a ha
        obtain ⟨x, hx, rfl⟩ := List.mem_map.mp ha
        exact ihargs x hx
      · intro s hs
        exact hname (Node.qualifiedName?_of_toExpr hs)
    · rw [Node.transported_call he]
      exact .foreign (.call hfn hargs hname) rfl
  | @other form parts hparts hstart _ =>
    rw [Node.transported_other form parts]
    exact .foreign (.other hparts hstart) rfl

/-! ### Relaxing adds no calls of the marker -/

/-- A marker that relaxes by the standard rules, and whose functions are called something else. -/
structure Marker.Distinct (m : Marker) : Prop where
  table : m.relaxer.table = .standard
  sum : m.relaxer.sum ≠ m.name
  product : m.relaxer.product ≠ m.name

namespace Unmarked

theorem withSpan {e : Expr Payload} (h : Unmarked m e) (s : Span) :
    Unmarked m (Relaxer.withSpan s e) := by
  cases h with
  | absent k => exact absent k
  | ident n s => exact ident n s
  | literal t raw s => exact literal t raw s
  | binary hl hr => exact binary hl hr
  | prefixed hx => exact prefixed hx
  | paren hx => exact paren hx
  | call hf hargs hname => exact call hf hargs hname
  | assign t v s => exact assign t v s
  | foreign hx hname => exact foreign hx hname

theorem negate {e : Expr Payload} (h : Unmarked m e) : Unmarked m e.negate := by
  refine prefixed ?_
  by_cases hgroup : e.needsGrouping = true
  · rw [if_pos hgroup]
    exact paren h
  · rw [if_neg hgroup]
    exact h

theorem relaxedCall {l r : Expr Payload} (hl : Unmarked m l) (hr : Unmarked m r) {name : Bytes}
    (hname : name ≠ m.name) : Unmarked m (Relaxer.relaxedCall name l r) := by
  refine call (ident name _) ?_ ?_
  · intro a ha
    obtain ⟨x, hx, rfl⟩ := List.mem_map.mp ha
    rcases List.mem_cons.mp hx with rfl | hx
    · exact hl
    · rwa [List.mem_singleton.mp hx]
  · rintro s ⟨⟩
    exact hname rfl

theorem combine (hm : m.Distinct) {c : Combine} (hc : c ∈ Combine.arithmetic) {l r : Expr Payload}
    (hl : Unmarked m l) (hr : Unmarked m r) : Unmarked m (m.relaxer.combine c l r) := by
  have hnames : ∀ name ∈ [m.relaxer.sum, m.relaxer.product], name ≠ m.name := by
    simpa using ⟨hm.sum, hm.product⟩
  exact Relaxer.combine_of_closed hc
    (fun name hname _ _ hl hr => hl.relaxedCall hr (hnames name hname))
    (fun _ he => he.negate) hl hr

theorem applyRule (hm : m.Distinct) (op : Bytes) (s : Span) {l r : Expr Payload}
    (hl : Unmarked m l) (hr : Unmarked m r) :
    Unmarked m (m.relaxer.applyRule (m.relaxer.ruleFor op) op s l r) := by
  rcases Relaxer.ruleFor_standard_cases hm.table op with
    ⟨_, c, _, hrule⟩ | ⟨_, c, hc, hrule⟩ | ⟨_, hrule⟩
  · rw [hrule]
    exact assign _ _ _
  · rw [hrule]
    exact (combine hm hc hl hr).withSpan s
  · rw [hrule]
    exact binary hl hr

/-- Relaxing brings in no calls of the marker. -/
theorem relax (hm : m.Distinct) {e : Expr Payload} (h : Unmarked m e) :
    Unmarked m (m.relaxer.relax e) := by
  induction h with
  | absent k => exact absent none
  | ident n s => exact ident n s
  | literal t raw s => exact literal t raw s
  | binary _ _ ihl ihr =>
    rw [Relaxer.relax]
    exact applyRule hm _ _ ihl ihr
  | prefixed hx ih =>
    rw [Relaxer.relax]
    by_cases hnested : m.relaxer.nested = true
    · rw [if_pos hnested]
      exact prefixed ih
    · rw [if_neg hnested]
      exact prefixed hx
  | paren _ ih => exact paren ih
  | call hf _ hname _ ihargs =>
    rw [Relaxer.relax, Relaxer.relaxArgs_eq_map]
    refine call hf ?_ hname
    intro a ha
    obtain ⟨b, hb, rfl⟩ := List.mem_map.mp ha
    exact ihargs b hb
  | assign t v s =>
    rw [Relaxer.relax]
    split <;> exact assign _ _ _
  | foreign hx hname => exact foreign hx hname

/-! ### Back to Go -/

/-- The Go expression of a tree without calls of the marker is settled, and is the name of the
marker only if the tree is. -/
theorem settled_ofExpr {e : Expr Payload} (h : Unmarked m e) {y : Node}
    (hy : Node.ofExpr e = .ok y) :
    Settled m y ∧ (y.qualifiedName? = some m.name → ∃ s, e = .ident m.name s) := by
  induction h generalizing y with
  | absent k =>
    rw [Node.ofExpr.eq_def] at hy
    rcases k with _ | _ | _ <;> cases hy
  | ident n s =>
    cases hy
    refine ⟨settled_ofName n, ?_⟩
    intro hname
    rw [Node.qualifiedName?_ofName] at hname
    exact ⟨s, by rw [Option.some.inj hname]⟩
  | literal t raw s =>
    cases hy
    exact ⟨.literal _ _ _ _, by simp [Node.qualifiedName?]⟩
  | binary _ _ ihl ihr =>
    obtain ⟨x, z, hx, hz, rfl⟩ := parts_of_ofExpr_binary hy
    exact ⟨.binary (ihl hx).1 (ihr hz).1, by simp [Node.qualifiedName?]⟩
  | prefixed _ ih =>
    obtain ⟨x, hx, rfl⟩ := part_of_ofExpr_prefixed hy
    exact ⟨.unary (ih hx).1, by simp [Node.qualifiedName?]⟩
  | paren _ ih =>
    obtain ⟨x, hx, rfl⟩ := part_of_ofExpr_group hy
    exact ⟨.paren (ih hx).1, by simp [Node.qualifiedName?]⟩
  | call _ _ hname ihf ihargs =>
    obtain ⟨fn, ys, hfn, hys, rfl⟩ := parts_of_ofExpr_call hy
    refine ⟨.call (ihf hfn).1 ?_ ?_, by simp [Node.qualifiedName?]⟩
    · intro y hy
      obtain ⟨a, ha, hay⟩ := exists_of_mem_ofArgs hys y hy
      exact (ihargs a ha hay).1
    · intro hq
      obtain ⟨s', hs'⟩ := (ihf hfn).2 hq
      exact hname s' hs'
  | assign t v s => cases hy
  | foreign hx hname =>
    cases hy
    refine ⟨hx, ?_⟩
    intro hq
    rw [hname] at hq
    cases hq

end Unmarked

/-! ### Expanded trees are settled -/

theorem settled_of_each {xs ys : List Node} {k : Nat}
    (h : Each (fun x y k => ∃ _ : Expands m x y k, Settled m y) xs ys k) :
    ∀ y ∈ ys, Settled m y := by
  intro y hy
  obtain ⟨_, _, _, _, hsettled⟩ := h.exists_of_mem y hy
  exact hsettled

/-- Nothing is left to be replaced in an expanded tree. -/
theorem Expands.settled (hm : m.Distinct) {x y : Node} {k : Nat} (h : Expands m x y k) :
    Settled m y := by
  induction h using Expands.induct with
  | missing => exact .missing
  | ident name p res => exact .ident name p res
  | literal kind raw p w => exact .literal kind raw p w
  | selector _ ih => exact .selector ih
  | binary _ _ ihx ihy => exact .binary ihx ihy
  | unary _ ih => exact .unary ih
  | paren _ ih => exact .paren ih
  | call _ _ hname ihfn ihargs => exact .call ihfn (settled_of_each ihargs) hname
  | marker _ _ _ hx _ iharg => exact ((iharg.unmarked_toExpr.relax hm).settled_ofExpr hx).1
  | other _ hstart ihparts => exact .other (settled_of_each ihparts) hstart

end RelaxArith.Host
