/-
What expanding the marker calls of a program does.

If it succeeds, the tree is the expanded one, but for imports; nothing is left to be expanded, so a
second time changes nothing.  If it fails on a tree that Go's grammar can give, then a marker call
has no argument or several.  The relaxed form of an argument always has a Go form, so nothing else
can go wrong with it; what else can happen is that all work is broken off, where `go` or `defer`
would be left without a call, or where lines cannot be joined.
-/
import RelaxArith.Proofs.Host.Imports
import RelaxArith.Proofs.Host.Settled

namespace RelaxArith.Host

variable {m : Marker}

/-! ### Success -/

namespace Settled

/-- A settled file stays settled without some of its imports. -/
theorem withoutImports {file : Node} (h : Settled m file) (path : Bytes) :
    Settled m (file.withoutImports path) := by
  rcases file.file_cases with ⟨p, name, decls, rfl⟩ | ⟨_, hwith⟩
  · cases h with
    | other hparts _ =>
      rw [List.forall_mem_cons] at hparts
      change Settled m (.other (.file p) (name :: decls.filterMap (Deletion.rest? path)))
      refine .other (List.forall_mem_cons.mpr ⟨hparts.1, ?_⟩) (by simp [Startable])
      intro y hy
      obtain ⟨decl, hdecl, hrest⟩ := List.mem_filterMap.mp hy
      have hsettled := hparts.2 decl hdecl
      rcases Deletion.rest?_cases path decl with
        ⟨_, hsame⟩ | ⟨form, specs, rfl, himport, hsome | ⟨hnone, _⟩⟩
      · rw [hsame] at hrest
        cases hrest
        exact hsettled
      · rw [hsome] at hrest
        cases hrest
        cases hsettled with
        | other hspecs _ =>
          refine .other (fun s hs => hspecs s (List.mem_filter.mp hs).1) ?_
          rintro q x (rfl | rfl) _ <;> cases himport
      · rw [hnone] at hrest
        cases hrest
  · rwa [Node.withoutImports, hwith]

end Settled

theorem Program.file_of_deleteUnusedImport {p p' : Program} {marker : Bytes}
    (h : p.deleteUnusedImport marker = .ok p') :
    p'.file = p.file ∨ ∃ path, p'.file = p.file.withoutImports path := by
  rw [deleteUnusedImport] at h
  split at h
  · cases h
    exact .inl rfl
  · split at h
    · exact .inr ⟨_, file_of_deleteImport h⟩
    · cases h
      exact .inl rfl

/-- A marker by names has the standard rules. -/
theorem Marker.distinct_ofNames {name sum product : Bytes} {nested : Bool}
    (hm : m = .ofNames name sum product nested) (hsum : m.relaxer.sum ≠ m.name)
    (hproduct : m.relaxer.product ≠ m.name) : m.Distinct := by
  refine ⟨?_, hsum, hproduct⟩
  rw [hm]
  rfl

/-- With relaxed functions whose names are not that of the marker, expanding a program replaces all
marker calls and nothing else.  Apart from imports the tree is the one that expands from the tree of
the program, in the only possible way; the marker is called nowhere in it, so expanding again
changes nothing; and unless the marker is called inside callees, the number is that of its calls. -/
theorem Program.expand_replaces_marker_calls {m : Marker} {name sum product : Bytes} {nested : Bool}
    {p p' : Program} {n : Nat} (hm : m = .ofNames name sum product nested)
    (hsum : m.relaxer.sum ≠ m.name) (hproduct : m.relaxer.product ≠ m.name)
    (h : p.expand m = .ok (p', n)) :
    (∃ file, Expands m p.file file n ∧
      (∀ y k, Expands m p.file y k → y = file ∧ k = n) ∧
      p'.file.besideImports = file.besideImports) ∧
    m.name ∉ p'.file.calledNames ∧
    p'.expand m = .ok (p', 0) ∧
    (m.name ∉ p.file.calleeNames → n = p.file.calledNames.count m.name) := by
  have hdistinct := Marker.distinct_ofNames hm hsum hproduct
  obtain ⟨file, hexpands, hcases⟩ := expands_of_expand h
  have hfile : Settled m file := hexpands.settled hdistinct
  have htree : p'.file = file ∨ ∃ path, p'.file = file.withoutImports path := by
    rcases hcases with ⟨_, rfl⟩ | ⟨_, hdelete⟩
    · exact .inl rfl
    · exact file_of_deleteUnusedImport hdelete
  have hsettled : Settled m p'.file := by
    rcases htree with heq | ⟨path, heq⟩
    · rwa [heq]
    · rw [heq]
      exact hfile.withoutImports path
  have hbeside : p'.file.besideImports = file.besideImports := by
    rcases htree with heq | ⟨path, heq⟩
    · rw [heq]
    · rw [heq, Node.besideImports_withoutImports]
  refine ⟨⟨file, hexpands, ?_, hbeside⟩, hsettled.not_mem_calledNames, ?_, hexpands.eq_count⟩
  · intro y k hy
    exact hy.unique hexpands
  · rw [expand, hsettled.expands.expand_eq 0]
    rfl

/-- Marker calls inside an argument, inside an index, and inside an argument that is an index. -/
def Program.nestedExample : Program :=
  ofSource (utf8 "package p\n\nimport \"fastmath\"\n\n" ++
    utf8 "var z = fastmath.Relaxed(a - fastmath.Relaxed(b * c)) + t[fastmath.Relaxed(i + j)]\n")

theorem Program.expand_replaces_marker_calls_nestedExample :
    ∃ p', nestedExample.expand .standard = .ok (p', 3) ∧
      Marker.standard.name ∉ p'.file.calledNames ∧ p'.expand .standard = .ok (p', 0) ∧
      nestedExample.file.calledNames.count Marker.standard.name = 3 := by
  have hrun : (nestedExample.expand .standard).toOption.map Prod.snd = some 3 := by
    decide +kernel
  cases h : nestedExample.expand .standard with
  | error f =>
    rw [h] at hrun
    cases hrun
  | ok r =>
    obtain ⟨p', n⟩ := r
    rw [h] at hrun
    obtain rfl : n = 3 := Option.some.inj hrun
    obtain ⟨_, hnot, hagain, hcount⟩ := expand_replaces_marker_calls (m := .standard) rfl
      (by decide +kernel) (by decide +kernel) h
    exact ⟨p', rfl, hnot, hagain, (hcount (by decide +kernel)).symm⟩

/-! ### Failure -/

/-- Expanding keeps what Go's grammar can give. -/
theorem Expands.proper (hrx : m.relaxer.table = .standard) {x y : Node} {k : Nat}
    (h : Expands m x y k) (hx : x.Proper) : y.Proper := by
  induction h using Expands.induct with
  | missing | ident | literal => exact hx
  | selector _ ih =>
    cases hx with
    | selector hx => exact .selector (ih hx)
  | binary _ _ ihx ihy =>
    cases hx with
    | binary hop hx hy => exact .binary hop (ihx hx) (ihy hy)
  | unary _ ih =>
    cases hx with
    | unary hop hx => exact .unary hop (ih hx)
  | paren _ ih =>
    cases hx with
    | paren hx => exact .paren (ih hx)
  | call _ _ _ ihfn ihargs =>
    cases hx with
    | call hfn hargs =>
      refine .call (ihfn hfn) ?_
      intro y hy
      obtain ⟨x, hx, _, _, hproper⟩ := ihargs.exists_of_mem y hy
      exact hproper (hargs x hx)
  | marker _ _ _ hofExpr _ iharg =>
    cases hx with
    | call _ hargs =>
      have harg := iharg (hargs _ List.mem_cons_self)
      obtain ⟨z, hz, hproper, _⟩ := (harg.hasGoForm.relax hrx).exists_ofExpr
      rw [hofExpr] at hz
      cases hz
      exact hproper
  | other _ _ ihparts =>
    cases hx with
    | other hparts =>
      refine .other ?_
      intro y hy hmissing
      obtain ⟨x, hx, _, hexpands, hproper⟩ := ihparts.exists_of_mem y hy
      refine hproper (hparts x hx ?_)
      rintro rfl
      cases hexpands
      exact hmissing rfl

/-- What can stop a walk over the tree of a Go program. -/
inductive Stops (m : Marker) : MarkerError → Prop
  | surplus {k : Nat} (hk : 1 < k) : Stops m (.surplus m.name k)
  | missingOperand (span : Span) :
      Stops m (.expansion ⟨ExpansionError.missingOperand, m.name, span⟩)
  | notCall (type : Bytes) : Stops m (.notCall type)

namespace Marker

theorem exists_of_expandAll_error {xs : List Node} {n : Nat} {s : Stopped}
    (h : m.expandAll n xs = .error s) : ∃ x ∈ xs, ∃ j, m.expand j x = .error s := by
  induction xs generalizing n with
  | nil => cases h
  | cons x xs ih =>
    rw [expandAll_cons] at h
    obtain hx | ⟨r, _, hrest⟩ := bind_eq_error.mp h
    · exact ⟨x, List.mem_cons_self, n, hx⟩
    · obtain hxs | ⟨_, _, heq⟩ := bind_eq_error.mp hrest
      · obtain ⟨y, hy, i, hyi⟩ := ih hxs
        exact ⟨y, List.mem_cons_of_mem x hy, i, hyi⟩
      · cases heq

/-- A call of the marker is replaced unless it has no argument or several. -/
theorem stops_of_replacement (hrx : m.relaxer.table = .standard) {pos stop : Nat}
    {args : List Node} (hargs : ∀ x ∈ args, x.Proper) {e : MarkerError}
    (h : m.replacement pos stop args = .error e) : Stops m e := by
  rw [replacement] at h
  by_cases hmany : 1 < args.length
  · rw [if_pos hmany] at h
    cases h
    exact .surplus hmany
  · rw [if_neg hmany] at h
    cases args with
    | nil =>
      cases h
      exact .missingOperand _
    | cons arg rest =>
      rw [List.forall_mem_cons] at hargs
      obtain ⟨y, hy, _, _⟩ := (hargs.1.hasGoForm.relax hrx).exists_ofExpr
      by_cases habsent : arg.toExpr.isAbsent = true
      · simp only [Relaxer.expand, List.map_cons, if_pos habsent] at h
        cases h
        exact .missingOperand _
      · simp only [Relaxer.expand, List.map_cons, if_neg habsent, hy] at h
        cases h

theorem stops_of_visitCall (hrx : m.relaxer.table = .standard) {fn : Node} {args : List Node}
    (hargs : ∀ x ∈ args, x.Proper) {p e q n : Nat} {s : Stopped}
    (h : m.visitCall fn args p e q n = .error s) : Stops m s.error := by
  by_cases hname : fn.qualifiedName? = some m.name
  · rw [visitCall, if_pos hname] at h
    cases hreplacement : m.replacement (Node.call fn args p e q).pos (Node.call fn args p e q).stop
        args with
    | error e =>
      simp only [hreplacement] at h
      cases h
      exact stops_of_replacement hrx hargs hreplacement
    | ok x =>
      simp only [hreplacement] at h
      cases h
  · rw [visitCall_of_ne hname] at h
    cases h

theorem stops_of_visitOther {form : Form} {parts : List Node} {n : Nat} {s : Stopped}
    (h : visitOther form parts n = .error s) : Stops m s.error := by
  rw [visitOther.eq_def] at h
  split at h
  · split at h
    · cases h
    · cases h
      exact .notCall _
  · split at h
    · cases h
    · cases h
      exact .notCall _
  · cases h

/-- What stops the walk over a tree that Go's grammar can give. -/
theorem stops_of_expand (hrx : m.relaxer.table = .standard) {x : Node}
    (hx : x ≠ .missing → x.Proper) {n : Nat} {s : Stopped} (h : m.expand n x = .error s) :
    Stops m s.error := by
  induction x generalizing n with
  | missing | ident | literal => cases h
  | selector x sel p ih =>
    cases hx (by simp) with
    | selector hx =>
      rw [expand_selector] at h
      obtain hfirst | ⟨_, _, heq⟩ := bind_eq_error.mp h
      · exact ih (fun _ => hx) hfirst
      · cases heq
  | binary op x y p ihx ihy =>
    cases hx (by simp) with
    | binary _ hx hy =>
      rw [expand_binary] at h
      obtain hleft | ⟨r, _, hrest⟩ := bind_eq_error.mp h
      · exact ihx (fun _ => hx) hleft
      · obtain hright | ⟨_, _, heq⟩ := bind_eq_error.mp hrest
        · exact ihy (fun _ => hy) hright
        · cases heq
  | unary op x p ih =>
    cases hx (by simp) with
    | unary _ hx =>
      rw [expand_unary] at h
      obtain hfirst | ⟨_, _, heq⟩ := bind_eq_error.mp h
      · exact ih (fun _ => hx) hfirst
      · cases heq
  | paren x p q ih =>
    cases hx (by simp) with
    | paren hx =>
      rw [expand_paren] at h
      obtain hfirst | ⟨_, _, heq⟩ := bind_eq_error.mp h
      · exact ih (fun _ => hx) hfirst
      · cases heq
  | call fn args p e q ihfn ihargs =>
    cases hx (by simp) with
    | call hfn hargs =>
      rw [expand_call] at h
      obtain hcallee | ⟨r, _, hrest⟩ := bind_eq_error.mp h
      · exact ihfn (fun _ => hfn) hcallee
      · obtain hall | ⟨⟨args', i⟩, hall, hvisit⟩ := bind_eq_error.mp hrest
        · obtain ⟨x, hx, i, hxi⟩ := exists_of_expandAll_error hall
          exact ihargs x hx (fun _ => hargs x hx) hxi
        · -- what replaces an argument could stand in a program as well
          obtain ⟨k, _, heach⟩ :=
            each_of_expandAll (fun x _ n y j hxy => expands_of_expand hxy) hall
          refine stops_of_visitCall hrx ?_ hvisit
          intro y hy
          obtain ⟨x, hx, _, hexpands⟩ := heach.exists_of_mem y hy
          exact hexpands.proper hrx (hargs x hx)
  | other form parts ih =>
    cases hx (by simp) with
    | other hparts =>
      rw [expand_other] at h
      obtain hall | ⟨_, _, hvisit⟩ := bind_eq_error.mp h
      · obtain ⟨x, hx, i, hxi⟩ := exists_of_expandAll_error hall
        exact ih x hx (hparts x hx) hxi
      · exact stops_of_visitOther hvisit

end Marker

theorem Program.pos_of_tidy_error {p : Program} {n : Nat} {g : Lines.MergeFault}
    (h : tidy m n p = .error g) : 0 < n := by
  rw [tidy] at h
  by_cases hn : n = 0
  · rw [if_pos hn] at h
    cases h
  · exact Nat.pos_of_ne_zero hn

/-- A program that is not expanded failed at a marker call, or where lines are joined behind marker
calls that were replaced. -/
theorem Program.failure_cases {p : Program} {f : SourceFailure} (h : p.expand m = .error f) :
    (∃ s, m.expand 0 p.file = .error s ∧
      f = ⟨.marker (p.lines.position s.pos).text s.error, s.count⟩) ∨
    0 < f.count ∧ ∃ g, f.error = .lines g := by
  rw [expand] at h
  cases hfile : m.expand 0 p.file with
  | error s =>
    rw [hfile] at h
    dsimp only at h
    split at h
    · cases h
      exact .inl ⟨s, rfl, rfl⟩
    · split at h
      · rename_i htidy
        cases h
        exact .inr ⟨pos_of_tidy_error htidy, _, rfl⟩
      · cases h
        exact .inl ⟨s, rfl, rfl⟩
  | ok r =>
    obtain ⟨file, n⟩ := r
    rw [hfile] at h
    dsimp only at h
    split at h
    · rename_i htidy
      cases h
      exact .inr ⟨pos_of_tidy_error htidy, _, rfl⟩
    · cases h

/-- Where the walk stops, the program is not expanded. -/
theorem Program.exists_failure {p : Program} {s : Stopped} (h : m.expand 0 p.file = .error s) :
    ∃ f, p.expand m = .error f := by
  rw [expand, h]
  dsimp only
  split
  · exact ⟨_, rfl⟩
  · split <;> exact ⟨_, rfl⟩

theorem Program.error_of_expand {p : Program} {f : SourceFailure} (h : p.expand m = .error f) :
    (∃ s place, m.expand 0 p.file = .error s ∧ f.error = .marker place s.error) ∨
    ∃ g, f.error = .lines g := by
  obtain ⟨s, hs, rfl⟩ | ⟨_, hlines⟩ := failure_cases h
  · exact .inl ⟨s, _, hs, rfl⟩
  · exact .inr hlines

/-- Relaxing a Go expression gives one that becomes an equal tree again and carries along the same
expressions in the same order.  So the errors of expanding a program are that a marker call has no
argument, and that it has several; all else that can happen is a fault. -/
theorem relax_has_go_form (sum product : Bytes) (nested : Bool) :
    (∀ x : Node, x.Proper →
      ∃ y, Node.ofExpr ((Relaxer.ofNames sum product nested).relax x.toExpr) = .ok y ∧
        y.toExpr.equal ((Relaxer.ofNames sum product nested).relax x.toExpr) = true ∧
        ((Relaxer.ofNames sum product nested).relax x.toExpr).payloads = x.toExpr.payloads) ∧
    (∀ (m : Marker) (p : Program) (f : SourceFailure),
      m.relaxer = .ofNames sum product nested → p.file.Proper → p.expand m = .error f →
      f.error.isFault = false →
      ∃ place, (∃ k, 1 < k ∧ f.error = .marker place (.surplus m.name k)) ∨
        ∃ span, f.error = .marker place
          (.expansion ⟨ExpansionError.missingOperand, m.name, span⟩)) := by
  constructor
  · intro x hx
    have htable : (Relaxer.ofNames sum product nested).table = .standard := rfl
    have hform := hx.hasGoForm
    obtain ⟨y, hy, _, herase⟩ := (hform.relax htable).exists_ofExpr
    exact ⟨y, hy, Expr.equal_iff_erase.mpr herase, hform.payloads_relax htable⟩
  · intro m p f hrelaxer hproper h hfault
    have htable : m.relaxer.table = .standard := by
      rw [hrelaxer]
      rfl
    obtain ⟨s, place, hs, hf⟩ | ⟨g, hf⟩ := Program.error_of_expand h
    · have hstops := Marker.stops_of_expand htable (fun _ => hproper) hs
      rw [hf] at hfault ⊢
      generalize s.error = e at hstops hfault ⊢
      refine ⟨place, ?_⟩
      cases hstops with
      | surplus hk => exact .inl ⟨_, hk, rfl⟩
      | missingOperand span => exact .inr ⟨span, rfl⟩
      | notCall type => cases hfault
    · rw [hf] at hfault
      cases hfault

/-- A difference in which an element of a table is only carried along. -/
def differenceExample : Node :=
  .binary (utf8 "-") (.ident (utf8 "a") 1 false)
    (.other (.index 6 8) [.ident (utf8 "t") 5 false, .ident (utf8 "i") 7 false]) 3

/-- A variable whose value is a marker call with two arguments. -/
def surplusExample : Program :=
  let value := Node.call (.selector (.ident (utf8 "fastmath") 20 false) (utf8 "Relaxed") 29)
    [.ident (utf8 "a") 37 false, .ident (utf8 "b") 40 false] 36 0 41
  let spec := Node.other (.valueSpec 1 false) [.ident (utf8 "z") 16 false, .missing, value]
  ⟨.other (.file 1) [.ident (utf8 "p") 9 false, .other (.group (utf8 "var") 12 0 0 false) [spec]],
    ⟨[0], [], []⟩, []⟩

theorem proper_differenceExample : differenceExample.Proper := by
  refine .binary (by decide) (.ident _ _ _) (.other ?_)
  simp only [List.forall_mem_cons]
  exact ⟨fun _ => .ident _ _ _, fun _ => .ident _ _ _, nofun⟩

theorem proper_surplusExample : surplusExample.file.Proper := by
  have hvalue : ∀ x ∈ [Node.ident (utf8 "a") 37 false, .ident (utf8 "b") 40 false], x.Proper := by
    simp only [List.forall_mem_cons]
    exact ⟨.ident _ _ _, .ident _ _ _, nofun⟩
  refine .other ?_
  simp only [List.forall_mem_cons]
  refine ⟨fun _ => .ident _ _ _, fun _ => .other ?_, nofun⟩
  simp only [List.forall_mem_cons]
  refine ⟨fun _ => .other ?_, nofun⟩
  simp only [List.forall_mem_cons]
  exact ⟨fun _ => .ident _ _ _, fun h => absurd rfl h,
    fun _ => .call (.selector (.ident _ _ _)) hvalue, nofun⟩

theorem relax_has_go_form_examples :
    (∃ y, Node.ofExpr (Relaxer.standard.relax differenceExample.toExpr) = .ok y ∧
      y.toExpr.equal (Relaxer.standard.relax differenceExample.toExpr) = true ∧
      (Relaxer.standard.relax differenceExample.toExpr).payloads.length = 1) ∧
    ∃ f, surplusExample.expand .standard = .error f ∧ ∃ place,
      (∃ k, 1 < k ∧ f.error = .marker place (.surplus Marker.standard.name k)) ∨
      ∃ span, f.error = .marker place
        (.expansion ⟨ExpansionError.missingOperand, Marker.standard.name, span⟩) := by
  obtain ⟨hexpressions, hprograms⟩ := relax_has_go_form [] [] true
  obtain ⟨y, hy, hequal, hpayloads⟩ := hexpressions differenceExample proper_differenceExample
  refine ⟨⟨y, hy, hequal, (congrArg List.length hpayloads).trans rfl⟩, ?_⟩
  cases h : surplusExample.expand .standard with
  | ok r =>
    have hfails : (surplusExample.expand .standard).toOption.isNone = true := by decide +kernel
    rw [h] at hfails
    cases hfails
  | error f =>
    have hfault : (match surplusExample.expand .standard with
        | .error f => f.error.isFault
        | .ok _ => true) = false := by
      decide +kernel
    rw [h] at hfault
    exact ⟨f, rfl, hprograms .standard surplusExample f rfl proper_surplusExample h hfault⟩

end RelaxArith.Host
