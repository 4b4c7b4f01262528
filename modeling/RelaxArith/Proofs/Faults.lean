/-
No fault in relaxing, and faults in formatting what was relaxed.

A stub cannot be negated, and the stub of a call cannot be asked for its span.  Relaxing does both
to trees that it got from itself, and never to a stub: what it returns may have stubs in it, but is
none.  So the relaxing that checks each look into a tree is the relaxing that does not.

Where a stub is left, formatting fails.  Relaxing takes missing parts for plain ones wherever it
gets, and with the standard rules nothing that it passes by is dropped.  It gets everywhere but into
callees, so stubs are left exactly where a callee has one.
-/
import RelaxArith.Proofs.Congruence
import RelaxArith.Relax.Checked

namespace RelaxArith

open RelaxArith.Expr

variable {π : Type}

/-! ### Relaxing never looks into a stub -/

namespace Relaxer

variable {rx : Relaxer} {l r : Expr π}

theorem combine?_eq (c : Combine) (l : Expr π) (hr : r.isStub = false) :
    rx.combine? c l r = .ok (rx.combine c l r) := by
  cases c with
  | difference =>
    rw [combine?, negate?, hr]
    rfl
  | sum | product | left | right | nothing | callOf | operation => rfl

theorem withSpan?_eq (s : Span) {e : Expr π} (h : e.isStub = false) :
    withSpan? s e = .ok (withSpan s e) := by
  cases e with
  | absent k =>
    cases k with
    | none => rfl
    | some k => cases h
  | ident | literal | binary | prefixed | group | call | assign | foreign => rfl

theorem isStub_withoutStubs (e : Expr π) : e.withoutStubs.isStub = false := by
  cases e with
  | absent | ident | literal | binary | prefixed | group | call | assign | foreign => rfl

/-- The step at an operation: as no operand is a stub, nothing that a rule makes of them is. -/
theorem applyRule?_eq (rule : Rule) (op : Bytes) (s : Span) (hl : l.isStub = false)
    (hr : r.isStub = false) :
    rx.applyRule? rule op s l r = .ok (rx.applyRule rule op s l r) := by
  cases rule with
  | keep => rfl
  | binary c =>
    have hreplacement : (rx.combine c l r).isStub = false := isStub_combine c hl hr
    rw [applyRule?, combine?_eq c l hr]
    exact withSpan?_eq s hreplacement
  | compound c =>
    have hcombined : (rx.combine c l.withoutStubs r).isStub = false :=
      isStub_combine c (isStub_withoutStubs l) hr
    rw [applyRule?, combine?_eq c l.withoutStubs hr]
    show (withSpan? s (rx.combine c l.withoutStubs r) >>= fun v => pure (Expr.assign l v s)) = _
    rw [withSpan?_eq s hcombined]
    rfl

theorem relaxAll?_eq {es : List (Expr π)} (h : ∀ e ∈ es, rx.relax? e = .ok (rx.relax e)) :
    rx.relaxAll? es = .ok (rx.relaxAll es) := by
  induction es with
  | nil => rfl
  | cons e es ih =>
    obtain ⟨he, hes⟩ := List.forall_mem_cons.mp h
    rw [relaxAll?, he, ih hes]
    rfl

theorem relaxArgs?_eq {args : List (Bytes × Expr π)}
    (h : ∀ a ∈ args, rx.relax? a.2 = .ok (rx.relax a.2)) :
    rx.relaxArgs? args = .ok (rx.relaxArgs args) := by
  induction args with
  | nil => rfl
  | cons a args ih =>
    obtain ⟨label, e⟩ := a
    obtain ⟨he, hargs⟩ := List.forall_mem_cons.mp h
    rw [relaxArgs?, he, ih hargs]
    rfl

/-- **Relaxing never looks into a stub**, whatever the rules, wherever the tree has stubs. -/
theorem relax?_eq (rx : Relaxer) (e : Expr π) : rx.relax? e = .ok (rx.relax e) := by
  induction e with
  | absent | ident | literal | foreign => rfl
  | binary op l r s hl hr =>
    rw [relax?, hl, hr]
    exact applyRule?_eq _ op s (isStub_relax rx l) (isStub_relax rx r)
  | prefixed op x s hx =>
    rw [relax?, relax]
    by_cases hnested : rx.nested = true
    · rw [if_pos hnested, if_pos hnested, hx]
      rfl
    · rw [if_neg hnested, if_neg hnested]
  | group es s hes =>
    rw [relax?, relaxAll?_eq hes]
    rfl
  | call f args s _ hargs =>
    rw [relax?, relaxArgs?_eq hargs]
    rfl
  | assign t v s ht hv =>
    rw [relax?, relax]
    by_cases hnested : rx.nested = true
    · rw [if_pos hnested, if_pos hnested, ht, hv]
      rfl
    · rw [if_neg hnested, if_neg hnested]

/-- A rule that gets a stub for an operand does fail. -/
example : standard.applyRule? (.binary .difference) (utf8 "-") ⟨0, 1⟩
    (.ident (utf8 "a") ⟨0, 1⟩) (.absent (some .literal) : Expr Unit) = .error .missingNode :=
  rfl

end Relaxer

/-! ### Stubs in callees -/

namespace Expr

/-- Somewhere in a tree something is called that is a stub or contains one. -/
def CallsStub (e : Expr π) : Prop :=
  ∃ f args s, (call f args s).Inside e ∧ f.containsStub = true

theorem CallsStub.containsStub {e : Expr π} (h : e.CallsStub) : e.containsStub = true := by
  obtain ⟨f, args, s, hinside, hf⟩ := h
  have hcall : (call f args s).containsStub = true := by
    rw [Expr.containsStub, hf, Bool.true_or]
  exact containsStub_of_inside hinside hcall

/-- The call is the tree itself or stands in one of its children. -/
theorem callsStub_iff {e : Expr π} :
    e.CallsStub ↔ (∃ f args s, e = call f args s ∧ f.containsStub = true) ∨
      ∃ c ∈ e.children, c.CallsStub := by
  constructor
  · rintro ⟨f, args, s, hinside, hf⟩
    rcases inside_iff.mp hinside with rfl | ⟨c, hc, hcall⟩
    · exact .inl ⟨f, args, s, rfl, hf⟩
    · exact .inr ⟨c, hc, f, args, s, hcall, hf⟩
  · rintro (⟨f, args, s, rfl, hf⟩ | ⟨c, hc, f, args, s, hcall, hf⟩)
    · exact ⟨f, args, s, .refl, hf⟩
    · exact ⟨f, args, s, hcall.of_child hc, hf⟩

theorem callsStub_iff_children {e : Expr π} (h : ∀ f args s, e ≠ call f args s) :
    e.CallsStub ↔ ∃ c ∈ e.children, c.CallsStub := by
  refine callsStub_iff.trans (or_iff_right ?_)
  rintro ⟨f, args, s, heq, _⟩
  exact h f args s heq

/-- Of a call only the callee matters, and the arguments: what is called in the callee is in it. -/
theorem callsStub_call_iff {f : Expr π} {args : List (Bytes × Expr π)} {s : Span} :
    (call f args s).CallsStub ↔ f.containsStub = true ∨ ∃ a ∈ args, a.2.CallsStub := by
  rw [callsStub_iff]
  constructor
  · rintro (⟨_, _, _, ⟨⟩, hf⟩ | ⟨c, hc, hcalls⟩)
    · exact .inl hf
    · rcases List.mem_cons.mp hc with rfl | hc
      · exact .inl hcalls.containsStub
      · obtain ⟨a, ha, rfl⟩ := List.mem_map.mp hc
        exact .inr ⟨a, ha, hcalls⟩
  · rintro (hf | ⟨a, ha, hcalls⟩)
    · exact .inl ⟨f, args, s, rfl, hf⟩
    · exact .inr ⟨a.2, List.mem_cons_of_mem f (List.mem_map_of_mem ha), hcalls⟩

/-! ### What rules put together -/

theorem containsStub_withSpan (s : Span) (e : Expr π) :
    (Relaxer.withSpan s e).containsStub = e.containsStub := by
  cases e with
  | absent | ident | literal | binary | prefixed | group | call | assign | foreign => rfl

theorem containsStub_negate (e : Expr π) : e.negate.containsStub = e.containsStub := by
  rw [negate, containsStub]
  by_cases hgroup : e.needsGrouping = true
  · rw [if_pos hgroup, containsStub, containsStubAll, containsStubAll, Bool.or_false]
  · rw [if_neg hgroup]

theorem containsStub_relaxedCall (name : Bytes) (l r : Expr π) :
    (Relaxer.relaxedCall name l r).containsStub = (l.containsStub || r.containsStub) := by
  simp [Relaxer.relaxedCall, callOf, containsStub, containsStubArgs]

theorem containsStub_combine (rx : Relaxer) {c : Combine} (hc : c ∈ Combine.arithmetic)
    (l r : Expr π) : (rx.combine c l r).containsStub = (l.containsStub || r.containsStub) :=
  Relaxer.combine_of_negate hc containsStub_relaxedCall containsStub_negate l r

end Expr

/-- The step at an operation: with the standard rules both operands stay. -/
theorem containsStub_applyRule {rx : Relaxer} (htable : rx.table = .standard) (op : Bytes)
    (s : Span) (l r : Expr π) :
    (rx.applyRule (rx.ruleFor op) op s l r).containsStub
      = (l.containsStub || r.containsStub) := by
  rcases Relaxer.ruleFor_standard_cases htable op with
    ⟨_, c, hc, hrule⟩ | ⟨_, c, hc, hrule⟩ | ⟨_, hrule⟩
  · rw [hrule, Relaxer.applyRule, Expr.containsStub, containsStub_withSpan,
      containsStub_combine rx hc, containsStub_withoutStubs, Bool.false_or]
  · rw [hrule, Relaxer.applyRule, containsStub_withSpan,
      containsStub_combine rx hc]
  · rw [hrule, Relaxer.applyRule, Expr.containsStub]

/-- The relaxed tree contains a stub exactly if one is called, or something with one in it. -/
theorem containsStub_relax_iff {rx : Relaxer} (htable : rx.table = .standard)
    (hnested : rx.nested = true) {e : Expr π} :
    (rx.relax e).containsStub = true ↔ e.CallsStub := by
  induction e with
  | absent | ident | literal | foreign =>
    rw [callsStub_iff_children (by simp)]
    simp [children, Relaxer.relax, Expr.containsStub]
  | binary op l r s hl hr =>
    rw [Relaxer.relax, containsStub_applyRule htable, Bool.or_eq_true, hl, hr,
      callsStub_iff_children (e := .binary op l r s) (by simp)]
    simp [children]
  | prefixed op x s hx =>
    rw [Relaxer.relax, if_pos hnested, Expr.containsStub, hx,
      callsStub_iff_children (e := .prefixed op x s) (by simp)]
    simp [children]
  | group es s hes =>
    rw [Relaxer.relax, Expr.containsStub, Relaxer.relaxAll_eq_map, containsStubAll_eq_any,
      List.any_map, List.any_eq_true, callsStub_iff_children (by simp)]
    exact exists_congr fun e => and_congr_right (hes e)
  | call f args s _ hargs =>
    rw [Relaxer.relax, Expr.containsStub, Relaxer.relaxArgs_eq_map, containsStubArgs_eq_any,
      List.any_map, Bool.or_eq_true, List.any_eq_true, callsStub_call_iff]
    exact or_congr_right (exists_congr fun a => and_congr_right (hargs a))
  | assign t v s ht hv =>
    rw [Relaxer.relax, if_pos hnested, Expr.containsStub, Bool.or_eq_true, ht, hv,
      callsStub_iff_children (e := .assign t v s) (by simp)]
    simp [children]

/-! ### Relaxing and formatting -/

/-- Formatting comes to a stub exactly if the tree contains one. -/
theorem Expr.format_fails_iff {e : Expr π} :
    (∃ fault, e.format = .error fault) ↔ e.containsStub = true := by
  rw [format, formatAt_eq, unlessStub]
  by_cases hstub : e.containsStub = true
  · rw [if_pos hstub]
    exact ⟨fun _ => hstub, fun _ => ⟨_, rfl⟩⟩
  · rw [if_neg hstub]
    refine ⟨?_, fun h => absurd h hstub⟩
    rintro ⟨_, ⟨⟩⟩

theorem Expr.negate?_fails_iff {e : Expr π} :
    (∃ fault, e.negate? = .error fault) ↔ e.isStub = true := by
  rw [negate?]
  by_cases hstub : e.isStub = true
  · rw [if_pos hstub]
    exact ⟨fun _ => hstub, fun _ => ⟨_, rfl⟩⟩
  · rw [if_neg hstub]
    refine ⟨?_, fun h => absurd h hstub⟩
    rintro ⟨_, ⟨⟩⟩

/-- **Stubs do no harm to relaxing, and survive in callees only.** Stubs cannot be negated, and a
tree with one in it cannot be formatted. Still every tree can be relaxed by every relaxer; and with
the standard rules, whatever the functions are called, the relaxed tree cannot be formatted exactly
if in some call of the tree the callee is a stub or has one in it. -/
theorem stubs_survive_in_callees (rx : Relaxer) (sum product : Bytes) (e : Expr π) :
    (∀ x : Expr π, (∃ fault, x.negate? = .error fault) ↔ ∃ k, x = .absent (some k)) ∧
    (∀ x : Expr π, (∃ fault, x.format = .error fault) ↔ ∃ k, (Expr.absent (some k)).Inside x) ∧
    rx.relax? e = .ok (rx.relax e) ∧
    ((∃ fault, ((Relaxer.mk sum product .standard true).relax e).format = .error fault) ↔
      ∃ f args s k, (Expr.call f args s).Inside e ∧ (Expr.absent (some k)).Inside f) := by
  refine ⟨fun x => negate?_fails_iff.trans isStub_iff,
    fun x => format_fails_iff.trans containsStub_iff, rx.relax?_eq e, ?_⟩
  rw [format_fails_iff, containsStub_relax_iff rfl rfl, CallsStub]
  simp only [containsStub_iff, exists_and_left]

end RelaxArith
