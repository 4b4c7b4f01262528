/-
Which marker call stops the walk.

The walk over a file replaces marker calls as it goes, so whether a call is one of the marker can
depend on what was replaced in its callee, but on nothing outside of it.  `Node.calls` lists the
calls of a tree in the order of the walk, those inside of a call before it; `Call.Marks` picks those
of the marker.  The walk over a tree is a walk along that list (`scan`), which stops at the first
marker call that has no argument or several: the step is one construct, the run is the tree.  What
the error says, and how many calls were replaced before, is read off the list.

An error has the position of the callee.  What was put in has none, so the position is lost where
something was replaced inside the callee.
-/
import RelaxArith.Proofs.Host.Program

namespace RelaxArith.Host

/-! ### Calls in the order of the walk -/

/-- A call in a tree. -/
structure Call where
  fn : Node
  args : List Node
  rparen : Nat

/-- Does a construct start a call? -/
def Form.startsCall : Form → Bool
  | .go _ | .defer _ => true
  | _ => false

namespace Node

mutual

/-- The calls of a tree, each behind those inside of it. -/
def calls : Node → List Call
  | missing | ident .. | literal .. => []
  | selector x _ _ | unary _ x _ | paren x _ _ => x.calls
  | binary _ x y _ => x.calls ++ y.calls
  | call fn args _ _ q => fn.calls ++ (callsAll args ++ [⟨fn, args, q⟩])
  | other _ parts => callsAll parts

/-- The calls of several trees. -/
def callsAll : List Node → List Call
  | [] => []
  | x :: xs => x.calls ++ callsAll xs

end

mutual

/-- Is a call started by `go` or `defer` somewhere in a tree? -/
def startsCall : Node → Bool
  | missing | ident .. | literal .. => false
  | selector x _ _ | unary _ x _ | paren x _ _ => x.startsCall
  | binary _ x y _ => x.startsCall || y.startsCall
  | call fn args _ _ _ => fn.startsCall || anyStartsCall args
  | other form parts => form.startsCall || anyStartsCall parts

/-- Is a call started somewhere in one of several trees? -/
def anyStartsCall : List Node → Bool
  | [] => false
  | x :: xs => x.startsCall || anyStartsCall xs

end

end Node

/-! ### Calls of the marker -/

/-- A tree that spells the name of the marker once the marker calls in it are replaced. -/
def SpellsMarker (m : Marker) (x : Node) : Prop :=
  ∃ y k, Expands m x y k ∧ y.qualifiedName? = some m.name

theorem spellsMarker_iff {m : Marker} {x y : Node} {k : Nat} (h : Expands m x y k) :
    SpellsMarker m x ↔ y.qualifiedName? = some m.name := by
  constructor
  · rintro ⟨z, l, hz, hname⟩
    rwa [(h.unique hz).1]
  · exact fun hname => ⟨y, k, h, hname⟩

instance (m : Marker) (x : Node) : Decidable (SpellsMarker m x) :=
  match h : m.expand 0 x with
  | .ok (y, _) =>
    decidable_of_iff (y.qualifiedName? = some m.name)
      (by obtain ⟨_, _, hy⟩ := Marker.expands_of_expand h; exact (spellsMarker_iff hy).symm)
  | .error _ => .isFalse (by rintro ⟨_, _, hy, _⟩; rw [hy.expand_eq 0] at h; cases h)

namespace Call

/-- A call of the marker. -/
def Marks (m : Marker) (c : Call) : Prop := SpellsMarker m c.fn

/-- A call of the marker with no argument, or with several. -/
def Wrong (m : Marker) (c : Call) : Prop := c.Marks m ∧ c.args.length ≠ 1

instance (m : Marker) : DecidablePred (Marks m) := fun c =>
  inferInstanceAs (Decidable (SpellsMarker m c.fn))

instance (m : Marker) : DecidablePred (Wrong m) := fun c =>
  inferInstanceAs (Decidable (c.Marks m ∧ c.args.length ≠ 1))

/-- The position that an error about a call has: that of its callee, unless something was replaced
in there. -/
def shownPos (m : Marker) (c : Call) : Nat := if c.fn.calls.countP (Marks m) = 0 then c.fn.pos else 0

/-- What is wrong with a call of the marker that has not one argument. -/
def complaint (m : Marker) (c : Call) : MarkerError :=
  if c.args = [] then
    .expansion ⟨ExpansionError.missingOperand, m.name, ⟨c.shownPos m, c.rparen + 1⟩⟩
  else .surplus m.name c.args.length

end Call

/-! ### A walk along a list of calls -/

namespace Marker

open Call

variable {m : Marker}

/-- The walk along a list of calls: it counts those of the marker, up to one that is wrong. -/
def scan (m : Marker) (n : Nat) : List Call → Except Stopped Nat
  | [] => .ok n
  | c :: cs =>
    if c.Wrong m then .error ⟨c.shownPos m, c.complaint m, n⟩
    else m.scan (if c.Marks m then n + 1 else n) cs

theorem scan_append (n : Nat) (cs ds : List Call) :
    m.scan n (cs ++ ds) = (m.scan n cs).bind fun k => m.scan k ds := by
  induction cs generalizing n with
  | nil => rfl
  | cons c cs ih =>
    rw [List.cons_append, scan, scan]
    by_cases hc : c.Wrong m
    · rw [if_pos hc, if_pos hc]
      rfl
    · rw [if_neg hc, if_neg hc, ih]

/-- The walk comes to the end of the list if no call is wrong, and then it has counted. -/
theorem scan_eq_ok_iff {n k : Nat} {cs : List Call} :
    m.scan n cs = .ok k ↔ (∀ c ∈ cs, ¬c.Wrong m) ∧ k = n + cs.countP (Marks m) := by
  induction cs generalizing n with
  | nil => simp [scan, eq_comm]
  | cons c cs ih =>
    rw [scan, List.forall_mem_cons, List.countP_cons]
    by_cases hc : c.Wrong m
    · simp [hc]
    · rw [if_neg hc, ih]
      by_cases hmarks : c.Marks m
      · simp [hc, hmarks, Nat.add_assoc, Nat.add_comm 1]
      · simp [hc, hmarks]

/-- The walk stops at the first call that is wrong. -/
theorem exists_of_scan_eq_error {n : Nat} {cs : List Call} {s : Stopped}
    (h : m.scan n cs = .error s) :
    ∃ before c behind, cs = before ++ c :: behind ∧ (∀ b ∈ before, ¬b.Wrong m) ∧ c.Wrong m ∧
      s = ⟨c.shownPos m, c.complaint m, n + before.countP (Marks m)⟩ := by
  induction cs generalizing n with
  | nil => cases h
  | cons c cs ih =>
    rw [scan] at h
    by_cases hc : c.Wrong m
    · rw [if_pos hc] at h
      cases h
      exact ⟨[], c, cs, rfl, nofun, hc, rfl⟩
    · rw [if_neg hc] at h
      obtain ⟨before, d, behind, rfl, hbefore, hd, rfl⟩ := ih h
      refine ⟨c :: before, d, behind, rfl, List.forall_mem_cons.mpr ⟨hc, hbefore⟩, hd, ?_⟩
      rw [List.countP_cons]
      by_cases hmarks : c.Marks m
      · simp [hmarks, Nat.add_assoc, Nat.add_comm 1]
      · simp [hmarks]

end Marker

/-! ### The position of what was put in -/

variable {m : Marker}

theorem Node.pos_ofName (name : Bytes) : (ofName name).pos = 0 :=
  ofName_induct (motive := fun x => x.pos = 0) (fun _ => rfl) (fun _ _ hx => hx) name

/-- What is put in has no position if it spells a name. -/
theorem HasGoForm.pos_of_qualifiedName? {e : Expr Payload} (h : HasGoForm e) {y : Node}
    (hy : Node.ofExpr e = .ok y) {q : Bytes} (hq : y.qualifiedName? = some q) : y.pos = 0 := by
  cases h with
  | ident n s =>
    cases hy
    exact Node.pos_ofName n
  | literal =>
    cases hy
    cases hq
  | binary =>
    obtain ⟨_, _, _, _, rfl⟩ := parts_of_ofExpr_binary hy
    cases hq
  | prefixed =>
    obtain ⟨_, _, rfl⟩ := part_of_ofExpr_prefixed hy
    cases hq
  | paren =>
    obtain ⟨_, _, rfl⟩ := part_of_ofExpr_group hy
    cases hq
  | call =>
    obtain ⟨_, _, _, _, rfl⟩ := parts_of_ofExpr_call hy
    cases hq
  | foreign hx =>
    -- names are not carried along
    cases hy
    rw [Node.Transported, Node.toExpr_of_qualifiedName? hq] at hx
    cases hx

/-- A tree that comes to spell a name was that name before, or it has lost its position. -/
theorem Expands.pos_of_qualifiedName? (hrx : m.relaxer.table = .standard) {x y : Node} {k : Nat}
    (h : Expands m x y k) (hx : x.Proper) {q : Bytes} (hq : y.qualifiedName? = some q) :
    y.pos = if k = 0 then x.pos else 0 := by
  induction h using Expands.induct generalizing q with
  | ident => rfl
  | selector _ ih =>
    rw [Node.qualifiedName?] at hq
    obtain ⟨q', hq', _⟩ := Option.map_eq_some_iff.mp hq
    cases hx with
    | selector hx => exact ih hx hq'
  | marker _ harg _ hofExpr _ _ =>
    cases hx with
    | call _ hargs =>
      have harg := harg.proper hrx (hargs _ List.mem_cons_self)
      rw [if_neg (Nat.succ_ne_zero _)]
      exact (harg.hasGoForm.relax hrx).pos_of_qualifiedName? hofExpr hq
  | missing | literal | binary | unary | paren | call | other => cases hq

/-! ### The walk over a tree -/

theorem Each.length_eq {r : Node → Node → Nat → Prop} {xs ys : List Node} {k : Nat}
    (h : Each r xs ys k) : ys.length = xs.length := by
  induction h with
  | nil => rfl
  | cons _ _ ih => rw [List.length_cons, List.length_cons, ih]

namespace Marker

open Call

theorem replacement_of_many {pos stop : Nat} {args : List Node} (h : 1 < args.length) :
    m.replacement pos stop args = .error (.surplus m.name args.length) := by
  rw [replacement, if_pos h]

/-- A call is visited as the list of this call is walked along. -/
theorem visitCall_eq_scan (hrx : m.relaxer.table = .standard) {fn fn' : Node}
    {args args' : List Node} {p e q k l : Nat} (hfn : Expands m fn fn' k)
    (hargs : Each (Expands m) args args' l) (hproper : (Node.call fn args p e q).Proper)
    (hcount : k = fn.calls.countP (Marks m)) (n : Nat) :
    (m.visitCall fn' args' p e q n).map Prod.snd = m.scan n [⟨fn, args, q⟩] := by
  have hmarks : Marks m ⟨fn, args, q⟩ ↔ fn'.qualifiedName? = some m.name := spellsMarker_iff hfn
  have hwrong : Wrong m ⟨fn, args, q⟩ ↔ fn'.qualifiedName? = some m.name ∧ args'.length ≠ 1 := by
    rw [Wrong, hmarks, hargs.length_eq]
  have hlength := hargs.length_eq
  cases hproper with
  | call hfnproper hargsproper =>
    rw [scan, scan]
    by_cases hname : fn'.qualifiedName? = some m.name
    · have hpos : (Node.call fn' args' p e q).pos = shownPos m ⟨fn, args, q⟩ := by
        rw [shownPos, ← hcount]
        exact hfn.pos_of_qualifiedName? hrx hfnproper hname
      rw [visitCall, if_pos hname, hpos]
      cases hargs with
      | nil =>
        rw [if_pos (hwrong.mpr ⟨hname, Nat.zero_ne_one⟩)]
        rfl
      | @cons arg arg' rest rest' i j harg hrest =>
        cases hrest with
        | nil =>
          -- a single argument always has a Go form once it is relaxed
          have hform := (harg.proper hrx (hargsproper arg List.mem_cons_self)).hasGoForm
          obtain ⟨y, hy, _⟩ := (hform.relax hrx).exists_ofExpr
          rw [replacement_eq_ok_iff.mpr ⟨arg', rfl, hy⟩, if_neg fun h => (hwrong.mp h).2 rfl,
            if_pos (hmarks.mpr hname)]
          rfl
        | cons =>
          rw [replacement_of_many (by simp), if_pos (hwrong.mpr ⟨hname, by simp⟩), complaint,
            if_neg (List.cons_ne_nil _ _), hlength]
          rfl
    · rw [visitCall_of_ne hname, if_neg fun h => hname (hwrong.mp h).1,
        if_neg fun h => hname (hmarks.mp h)]
      rfl

theorem expandAll_eq_scan {xs : List Node}
    (h : ∀ x ∈ xs, ∀ n, (m.expand n x).map Prod.snd = m.scan n x.calls) (n : Nat) :
    (m.expandAll n xs).map Prod.snd = m.scan n (Node.callsAll xs) := by
  induction xs generalizing n with
  | nil => rfl
  | cons x xs ih =>
    rw [List.forall_mem_cons] at h
    rw [expandAll_cons, Node.callsAll, scan_append, ← h.1 n]
    cases m.expand n x with
    | error s => rfl
    | ok r =>
      dsimp only [Except.map, Except.bind]
      rw [← ih h.2]
      cases m.expandAll r.2 xs <;> rfl

theorem startsCall_of_mem {xs : List Node} (h : Node.anyStartsCall xs = false) :
    ∀ x ∈ xs, x.startsCall = false := by
  induction xs with
  | nil => nofun
  | cons x xs ih =>
    rw [Node.anyStartsCall, Bool.or_eq_false_iff] at h
    exact List.forall_mem_cons.mpr ⟨h.1, ih h.2⟩

/-- The walk over a tree is a walk along the list of its calls. -/
theorem expand_eq_scan (hrx : m.relaxer.table = .standard) {x : Node}
    (hx : x ≠ .missing → x.Proper) (hstarts : x.startsCall = false) (n : Nat) :
    (m.expand n x).map Prod.snd = m.scan n x.calls := by
  induction x generalizing n with
  | missing | ident | literal => rfl
  | selector x sel p ih =>
    cases hx (by simp) with
    | selector hx =>
      rw [expand_selector, Node.calls, ← ih (fun _ => hx) hstarts]
      cases m.expand n x <;> rfl
  | binary op x y p ihx ihy =>
    rw [Node.startsCall, Bool.or_eq_false_iff] at hstarts
    cases hx (by simp) with
    | binary _ hx hy =>
      rw [expand_binary, Node.calls, scan_append, ← ihx (fun _ => hx) hstarts.1]
      cases m.expand n x with
      | error s => rfl
      | ok r =>
        dsimp only [Except.map, Except.bind]
        rw [← ihy (fun _ => hy) hstarts.2]
        cases m.expand r.2 y <;> rfl
  | unary op x p ih =>
    cases hx (by simp) with
    | unary _ hx =>
      rw [expand_unary, Node.calls, ← ih (fun _ => hx) hstarts]
      cases m.expand n x <;> rfl
  | paren x p q ih =>
    cases hx (by simp) with
    | paren hx =>
      rw [expand_paren, Node.calls, ← ih (fun _ => hx) hstarts]
      cases m.expand n x <;> rfl
  | call fn args p e q ihfn ihargs =>
    rw [Node.startsCall, Bool.or_eq_false_iff] at hstarts
    have hproper := hx (by simp)
    cases hproper with
    | call hfn hargs =>
      have hcallee := ihfn (fun _ => hfn) hstarts.1 n
      have hall := expandAll_eq_scan fun x hx n =>
        ihargs x hx (fun _ => hargs x hx) (startsCall_of_mem hstarts.2 x hx) n
      rw [expand_call, Node.calls, scan_append, ← hcallee]
      cases hfn' : m.expand n fn with
      | error s => rfl
      | ok r =>
        dsimp only [Except.map, Except.bind]
        rw [scan_append, ← hall]
        cases hargs' : m.expandAll r.2 args with
        | error s => rfl
        | ok t =>
          obtain ⟨k, hk, hexpands⟩ := expands_of_expand hfn'
          obtain ⟨l, _, heach⟩ := each_of_expandAll (fun x _ n y j hxy => expands_of_expand hxy) hargs'
          rw [hfn'] at hcallee
          obtain ⟨_, hcount⟩ := scan_eq_ok_iff.mp hcallee.symm
          exact visitCall_eq_scan hrx hexpands heach (.call hfn hargs) (by omega) t.2
  | other form parts ih =>
    rw [Node.startsCall, Bool.or_eq_false_iff] at hstarts
    cases hx (by simp) with
    | other hparts =>
      have hall := expandAll_eq_scan fun x hx n =>
        ih x hx (hparts x hx) (startsCall_of_mem hstarts.2 x hx) n
      rw [expand_other, Node.calls, ← hall]
      cases m.expandAll n parts with
      | error s => rfl
      | ok r =>
        have hstart : Startable form r.1 := by
          rintro p x (rfl | rfl) _ <;> cases hstarts.1
        dsimp only [Except.bind]
        rw [visitOther_eq_ok_iff.mpr ⟨hstart, rfl⟩]
        rfl

end Marker

/-! ### Programs -/

namespace Program

open Call

theorem isFault_complaint (place : Bytes) (c : Call) :
    (SourceError.marker place (c.complaint m)).isFault = false := by
  rw [complaint]
  split <;> rfl

/-- **Expanding a program fails at the first marker call that has no argument or several.** Take a
program whose tree Go's grammar can give and in which `go` and `defer` start nothing, and its calls
in the order of the walk.  Unless lines cannot be joined, where an import is deleted behind marker
calls that were replaced, expanding the program fails if and only if a marker call has not one
argument.  Then the error is about the first one: it says which of the two is wrong with it, and its
position, which is known if no marker call was replaced inside its callee; and the number is that of
the marker calls before it.  Where expanding fails, relaxing the source fails in the same way and
gives no text. -/
theorem expand_fails_at_first_wrong_call {name sum product : Bytes} {nested : Bool} {p : Program}
    (hm : m = .ofNames name sum product nested) (hproper : p.file.Proper)
    (hstarts : p.file.startsCall = false) :
    ((∀ f, p.expand m = .error f → f.error.isFault = false) →
      ((∃ f, p.expand m = .error f) ↔ ∃ c ∈ p.file.calls, c.Wrong m)) ∧
    (∀ f, p.expand m = .error f → f.error.isFault = false →
      ∃ before c behind, p.file.calls = before ++ c :: behind ∧ (∀ b ∈ before, ¬b.Wrong m) ∧
        c.Wrong m ∧ f.count = before.countP (Marks m) ∧
        f.error = .marker (p.lines.position (c.shownPos m)).text (c.complaint m)) ∧
    (∀ f, p.expand m = .error f → f.error.isFault = true →
      0 < f.count ∧ ∃ g, f.error = .lines g) ∧
    ∀ f file source q, p.expand m = .error f → parse? file source = some q → q.resolve = p →
      relaxSource m file source = .error f := by
  have hrx : m.relaxer.table = .standard := by
    rw [hm]
    rfl
  have hwalk := Marker.expand_eq_scan hrx (fun _ => hproper) hstarts 0
  -- where the walk stops, it does so at the first call that is wrong
  have hstops {s : Stopped} (hs : m.expand 0 p.file = .error s) :
      ∃ before c behind, p.file.calls = before ++ c :: behind ∧ (∀ b ∈ before, ¬b.Wrong m) ∧
        c.Wrong m ∧ s = ⟨c.shownPos m, c.complaint m, before.countP (Marks m)⟩ := by
    rw [hs] at hwalk
    obtain ⟨before, c, behind, hcalls, hbefore, hc, heq⟩ :=
      Marker.exists_of_scan_eq_error hwalk.symm
    rw [Nat.zero_add] at heq
    exact ⟨before, c, behind, hcalls, hbefore, hc, heq⟩
  have hcause {f : SourceFailure} (hf : p.expand m = .error f) (hfault : f.error.isFault = false) :
      ∃ before c behind, p.file.calls = before ++ c :: behind ∧ (∀ b ∈ before, ¬b.Wrong m) ∧
        c.Wrong m ∧ f.count = before.countP (Marks m) ∧
        f.error = .marker (p.lines.position (c.shownPos m)).text (c.complaint m) := by
    obtain ⟨s, hs, rfl⟩ | ⟨_, g, hg⟩ := failure_cases hf
    · obtain ⟨before, c, behind, hcalls, hbefore, hc, rfl⟩ := hstops hs
      exact ⟨before, c, behind, hcalls, hbefore, hc, rfl, rfl⟩
    · rw [hg] at hfault
      cases hfault
  refine ⟨fun hfaults => ⟨?_, ?_⟩, fun f => hcause, ?_, ?_⟩
  · rintro ⟨f, hf⟩
    obtain ⟨before, c, behind, hcalls, _, hc, _⟩ := hcause hf (hfaults f hf)
    exact ⟨c, by rw [hcalls]; exact List.mem_append_right before List.mem_cons_self, hc⟩
  · rintro ⟨c, hmem, hc⟩
    cases hfile : m.expand 0 p.file with
    | error s => exact exists_failure hfile
    | ok r =>
      rw [hfile] at hwalk
      exact absurd hc ((Marker.scan_eq_ok_iff.mp hwalk.symm).1 c hmem)
  · intro f hf hfault
    obtain ⟨s, hs, rfl⟩ | hlines := failure_cases hf
    · obtain ⟨_, c, _, _, _, _, rfl⟩ := hstops hs
      rw [isFault_complaint] at hfault
      cases hfault
    · exact hlines
  · rintro f file source q hf hparse rfl
    simp only [relaxSource, hparse, hf]

/-- A marker call that is replaced, in front of one without an argument. -/
def operandExample : Program :=
  let marker (p : Nat) : Node := .selector (.ident (utf8 "fastmath") p false) (utf8 "Relaxed") (p + 9)
  let value := Node.binary (utf8 "+") (.call (marker 20) [.ident (utf8 "a") 37 false] 36 0 38)
    (.call (marker 42) [] 58 0 59) 40
  let spec := Node.other (.valueSpec 1 false) [.ident (utf8 "z") 16 false, .missing, value]
  ⟨.other (.file 1) [.ident (utf8 "p") 9 false, .other (.group (utf8 "var") 12 0 0 false) [spec]],
    ⟨[0, 10, 11], [], []⟩, []⟩

theorem proper_operandExample : operandExample.file.Proper := by
  have harg : ∀ x ∈ [Node.ident (utf8 "a") 37 false], x.Proper := by
    simp only [List.forall_mem_cons]
    exact ⟨.ident _ _ _, nofun⟩
  refine .other ?_
  simp only [List.forall_mem_cons]
  refine ⟨fun _ => .ident _ _ _, fun _ => .other ?_, nofun⟩
  simp only [List.forall_mem_cons]
  refine ⟨fun _ => .other ?_, nofun⟩
  simp only [List.forall_mem_cons]
  exact ⟨fun _ => .ident _ _ _, fun h => absurd rfl h, fun _ => .binary (by decide)
    (.call (.selector (.ident _ _ _)) harg) (.call (.selector (.ident _ _ _)) nofun), nofun⟩

theorem expand_fails_at_first_wrong_call_operandExample :
    ∃ f, operandExample.expand .standard = .error f ∧ f.count = 1 ∧
      ∃ before c behind, operandExample.file.calls = before ++ c :: behind ∧
        (∀ b ∈ before, ¬b.Wrong .standard) ∧ c.Wrong .standard ∧
        f.count = before.countP (Marks .standard) ∧
        f.error = .marker (operandExample.lines.position (c.shownPos .standard)).text
          (c.complaint .standard) := by
  cases h : operandExample.expand .standard with
  | ok r =>
    have hfails : (operandExample.expand .standard).toOption.isNone = true := by decide +kernel
    rw [h] at hfails
    cases hfails
  | error f =>
    have hrun : (match operandExample.expand .standard with
        | .error f => (f.count, f.error.isFault)
        | .ok _ => (0, true)) = (1, false) := by
      decide +kernel
    rw [h] at hrun
    obtain ⟨hcount, hfault⟩ := Prod.mk.inj hrun
    obtain ⟨_, hcause, _⟩ := expand_fails_at_first_wrong_call (m := .standard) rfl
      proper_operandExample rfl
    exact ⟨f, rfl, hcount, hcause f h hfault⟩

/-- A call without an argument whose callee is the marker only after a marker call in it was
replaced. -/
def insertedExample : Program :=
  ofSource (utf8 "package p\n\nvar x = fastmath.Relaxed(fastmath.Relaxed)()\n")

/-- The position of a wrong marker call is lost if its callee was put in. -/
theorem position_lost_with_inserted_callee :
    (match insertedExample.expand .standard with
      | .error f => some f
      | .ok _ => none) = some ⟨.marker (utf8 "-") (.expansion
        ⟨ExpansionError.missingOperand, utf8 "fastmath.Relaxed", ⟨0, 56⟩⟩), 1⟩ ∧
    (insertedExample.file.calls.map fun c => (decide (c.Wrong .standard), c.fn.pos,
        (insertedExample.lines.position c.fn.pos).text))
      = [(false, 20, utf8 "3:9"), (true, 20, utf8 "3:9")] := by
  decide +kernel

end Program

end RelaxArith.Host
