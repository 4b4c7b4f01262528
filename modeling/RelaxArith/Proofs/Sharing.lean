/-
Tables are shared exactly through aliases.

A workspace keeps its tables at places, and what is called a table in a session is a reference to a
place.  Three kinds of holders have one: the names of tables, the named relaxers, and the usual
relaxer, which is there from the beginning and has no name.  What this file says of them:

  * a rule added or deleted through one holder is seen by all holders of the same place;
  * whoever refers to another place sees no difference, now or after any number of steps, until
    somebody changes the table at that place;
  * two holders come to refer to one place only if one of them is made from the other: as another
    name for the table of a relaxer, or as a relaxer for a given table.  Standard tables, copies and
    relaxers without a given table are at places of their own.

Nobody can be made from the usual relaxer, so it never changes.  Relaxing a tree only looks at the
workspace and is no step.
-/
import RelaxArith.Rules.Workspace
import RelaxArith.Proofs.Rules

namespace RelaxArith

/-- Who refers to a table: a name for it, a relaxer of some name, or the usual relaxer. -/
inductive Holder where
  | table (name : Bytes)
  | relaxer (name : Bytes)
  | usual
deriving DecidableEq

namespace WorkspaceStep

/-- The change that a step makes, and the name of the table that it changes. -/
def change? : WorkspaceStep → Option (Bytes × (Table → Table))
  | .add name op (some rule) => some (name, fun t => t.add op rule)
  | .delete name op => some (name, fun t => t.delete op)
  | _ => .none

/-- The holder that a step makes. -/
def makes? : WorkspaceStep → Option Holder
  | .standard name | .empty name | .none name | .copy _ name | .tableOf _ name => some (.table name)
  | .relaxer name _ _ => some (.relaxer name)
  | _ => .none

/-- The holder whose table a step gives to the one that it makes. -/
def origin? : WorkspaceStep → Option Holder
  | .tableOf name _ => some (.relaxer name)
  | .relaxer _ _ table => if table.isEmpty then .none else some (.table table)
  | _ => .none

end WorkspaceStep

/-- Does an answer say that a step could not be carried out? -/
def WorkspaceAnswer.isFault : WorkspaceAnswer → Bool
  | .tableFault _ | .fault _ => true
  | _ => false

namespace Workspace

/-- The workspace at the beginning of a session: the usual relaxer has its table at the first
place. -/
def start : Workspace := { places := [.standard] }

/-- The workspace after a session. -/
def run (w : Workspace) (steps : List WorkspaceStep) : Workspace :=
  steps.foldl (fun w s => (w.step s).2) w

/-- The place that a holder refers to. -/
def placeOf? (w : Workspace) : Holder → Option Nat
  | .table name => w.place? name
  | .relaxer name => (w.relaxers.lookup name).map SharedRelaxer.place
  | .usual => some 0

/-- The rules that a holder's table holds now. -/
def rules? (w : Workspace) (h : Holder) : Option Table := (w.placeOf? h).map w.tableAt

/-- The usual relaxer with the rules that its table holds now. -/
def usualRelaxer (w : Workspace) : Relaxer := { Relaxer.standard with table := w.tableAt 0 }

/-- Two holders refer to the same place. -/
def Shares (w : Workspace) (h k : Holder) : Prop :=
  ∃ q, w.placeOf? h = some q ∧ w.placeOf? k = some q

/-- Somebody who shares a holder's table changes it in a session. -/
def ChangesFor (h : Holder) : Workspace → List WorkspaceStep → Prop
  | _, [] => False
  | w, s :: rest =>
    (∃ name change, s.change? = some (name, change) ∧ w.Shares h (.table name)) ∨
      ChangesFor h (w.step s).2 rest

/-- A holder finds the same rules in two workspaces: its operators are the same, and so is every
tree that it relaxes. -/
structure Unnoticed (w w' : Workspace) (h : Holder) : Prop where
  rules : w'.rules? h = w.rules? h
  operators : ∀ name, h = .table name → w'.operatorsOf name = w.operatorsOf name
  relaxed : ∀ name, h = .relaxer name →
    ∀ (π : Type) (e : Expr π), w'.relax? name e = w.relax? name e

/-! ### What a step does -/

/-- A workspace in which a name of a relaxer refers to a relaxer. -/
def hold (w : Workspace) (name : Bytes) (r : SharedRelaxer) : Workspace :=
  { w with relaxers := (name, r) :: w.relaxers.filter fun e => e.1 != name }

/-- Where a new holder gets its place from, if somebody is its origin or nobody is: the place is
that of the origin, or a new one, or there is none. -/
inductive Source (w : Workspace) : Option Holder → Workspace → Option Nat → Prop
  | same {o : Holder} {q : Nat} (ho : w.placeOf? o = some q) : Source w (some o) w (some q)
  | fresh {origin : Option Holder} (t : Table) (ho : ∀ o ∈ origin, w.placeOf? o = none) :
      Source w origin (w.allocate t).1 (some w.places.length)
  | nothing : Source w none w none

/-- All that a step can do: nothing, change the table at one place, or make one holder. -/
inductive Outcome (w : Workspace) (s : WorkspaceStep) : Workspace → Prop
  | same (hmakes : s.makes? = none ∨ (w.step s).1.isFault = true)
      (hchange : ∀ name change, s.change? = some (name, change) → w.place? name = none) :
      Outcome w s w
  | changed {name : Bytes} {change : Table → Table} {q : Nat}
      (hs : s.change? = some (name, change)) (hmakes : s.makes? = none)
      (hq : w.place? name = some q) : Outcome w s (w.update q (change (w.tableAt q)))
  | named {name : Bytes} {base : Workspace} {p : Option Nat} (hs : s.makes? = some (.table name))
      (hchange : s.change? = none) (hp : Source w s.origin? base p) :
      Outcome w s (base.bind name p)
  | held {name : Bytes} {base : Workspace} {r : SharedRelaxer}
      (hs : s.makes? = some (.relaxer name)) (hchange : s.change? = none)
      (hp : Source w s.origin? base (some r.place)) : Outcome w s (base.hold name r)

/-- A new relaxer shares the table of the name that it is given, if there is one. -/
theorem outcome_relaxer (w : Workspace) (name : Bytes) (options : Options) (table : Bytes) :
    Outcome w (.relaxer name options table) (w.step (.relaxer name options table)).2 := by
  cases hoptions : options.relaxer with
  | error f =>
    have hstep : w.step (.relaxer name options table) = (.tableFault f, w) := by
      rw [step, hoptions]
    rw [hstep]
    exact .same (.inr (by rw [hstep]; rfl)) nofun
  | ok rx =>
    cases hq : if table.isEmpty then none else w.place? table with
    | none =>
      have hstep : (w.step (.relaxer name options table)).2 = (w.allocate rx.table).1.hold name
          ⟨rx.sum, rx.product, rx.nested, w.places.length⟩ := by
        rw [step, hoptions]
        simp only [hq]
        rfl
      rw [hstep]
      refine .held rfl rfl (.fresh rx.table ?_)
      intro o ho
      rw [WorkspaceStep.origin?] at ho
      by_cases hempty : table.isEmpty = true
      · rw [if_pos hempty] at ho
        cases ho
      · rw [if_neg hempty] at ho hq
        rw [← Option.some.inj ho]
        exact hq
    | some q =>
      have hstep : (w.step (.relaxer name options table)).2
          = w.hold name ⟨rx.sum, rx.product, rx.nested, q⟩ := by
        rw [step, hoptions]
        simp only [hq]
        rfl
      rw [hstep]
      refine .held rfl rfl ?_
      rw [WorkspaceStep.origin?]
      by_cases hempty : table.isEmpty = true
      · rw [if_pos hempty] at hq
        cases hq
      · rw [if_neg hempty] at hq ⊢
        exact .same hq

theorem outcome_step (w : Workspace) (s : WorkspaceStep) : Outcome w s (w.step s).2 := by
  cases s with
  | standard name => exact .named rfl rfl (.fresh .standard nofun)
  | empty name => exact .named rfl rfl (.fresh .empty nofun)
  | none name => exact .named rfl rfl .nothing
  | add name op rule =>
    cases rule with
    | none => exact .same (.inl rfl) nofun
    | some rule =>
      cases hq : w.place? name with
      | none =>
        rw [step, hq]
        refine .same (.inl rfl) ?_
        rintro _ _ ⟨⟩
        exact hq
      | some q =>
        have hchange : (WorkspaceStep.add name op (some rule)).change?
            = some (name, fun t => t.add op rule) := rfl
        rw [step, hq]
        exact .changed hchange rfl hq
  | delete name op =>
    cases hq : w.place? name with
    | none =>
      rw [step, hq]
      refine .same (.inl rfl) ?_
      rintro _ _ ⟨⟩
      exact hq
    | some q =>
      have hchange : (WorkspaceStep.delete name op).change?
          = some (name, fun t => t.delete op) := rfl
      rw [step, hq]
      exact .changed hchange rfl hq
  | copy name target =>
    cases hq : w.place? name with
    | none =>
      rw [step, hq]
      exact .named rfl rfl .nothing
    | some q =>
      rw [step, hq]
      exact .named rfl rfl (.fresh (w.tableAt q) nofun)
  | operators name => exact .same (.inl rfl) nofun
  | relaxer name options table => exact w.outcome_relaxer name options table
  | tableOf name target =>
    cases hr : w.relaxers.lookup name with
    | none =>
      have hstep : w.step (.tableOf name target) = (.fault .missingNode, w) := by
        rw [step, hr]
      rw [hstep]
      exact .same (.inr (by rw [hstep]; rfl)) nofun
    | some r =>
      rw [step, hr]
      refine .named rfl rfl (.same ?_)
      rw [placeOf?, hr]
      rfl
  | functions name =>
    have hsame : (w.step (.functions name)).2 = w := by
      rw [step]
      split <;> rfl
    rw [hsame]
    exact .same (.inl rfl) nofun

/-! ### Places and the tables at them -/

theorem tableAt_allocate {w : Workspace} {q : Nat} (t : Table) (hq : q < w.places.length) :
    (w.allocate t).1.tableAt q = w.tableAt q := by
  simp [tableAt, allocate, List.getD_eq_getElem?_getD, List.getElem?_append_left hq]

theorem tableAt_update_self {w : Workspace} {q : Nat} (t : Table) (hq : q < w.places.length) :
    (w.update q t).tableAt q = t := by
  simp [tableAt, update, List.getD_eq_getElem?_getD, hq]

theorem tableAt_update_of_ne (w : Workspace) {p q : Nat} (t : Table) (h : p ≠ q) :
    (w.update p t).tableAt q = w.tableAt q := by
  simp [tableAt, update, List.getD_eq_getElem?_getD, List.getElem?_set_ne h]

theorem placeOf?_bind_self (w : Workspace) (name : Bytes) (p : Option Nat) :
    (w.bind name p).placeOf? (.table name) = p := by
  rw [placeOf?, place?, bind, List.lookup_cons_self]
  rfl

theorem placeOf?_bind_of_ne (w : Workspace) {name : Bytes} {h : Holder} (p : Option Nat)
    (hne : h ≠ .table name) : (w.bind name p).placeOf? h = w.placeOf? h := by
  cases h with
  | table n =>
    have hn : n ≠ name := fun heq => hne (congrArg Holder.table heq)
    show (List.lookup n ((name, p) :: _)).join = w.place? n
    rw [Table.lookup_cons_of_ne hn, Table.lookup_filter_of_ne hn, place?]
  | relaxer n => rfl
  | usual => rfl

theorem lookup_hold_of_ne (w : Workspace) {name n : Bytes} (r : SharedRelaxer) (hn : n ≠ name) :
    (w.hold name r).relaxers.lookup n = w.relaxers.lookup n := by
  show List.lookup n ((name, r) :: _) = _
  rw [Table.lookup_cons_of_ne hn, Table.lookup_filter_of_ne hn]

theorem placeOf?_hold_self (w : Workspace) (name : Bytes) (r : SharedRelaxer) :
    (w.hold name r).placeOf? (.relaxer name) = some r.place := by
  rw [placeOf?, hold, List.lookup_cons_self]
  rfl

theorem placeOf?_hold_of_ne (w : Workspace) {name : Bytes} {h : Holder} (r : SharedRelaxer)
    (hne : h ≠ .relaxer name) : (w.hold name r).placeOf? h = w.placeOf? h := by
  cases h with
  | table n => rfl
  | relaxer n =>
    have hn : n ≠ name := fun heq => hne (congrArg Holder.relaxer heq)
    rw [placeOf?, lookup_hold_of_ne w r hn]
    rfl
  | usual => rfl

/-- Every holder refers to a place that is there. -/
def Sound (w : Workspace) : Prop := ∀ h q, w.placeOf? h = some q → q < w.places.length

namespace Source

variable {w base : Workspace} {origin : Option Holder} {p : Option Nat}

theorem tables_eq (hp : Source w origin base p) : base.tables = w.tables := by
  cases hp with
  | same | fresh | nothing => rfl

theorem relaxers_eq (hp : Source w origin base p) : base.relaxers = w.relaxers := by
  cases hp with
  | same | fresh | nothing => rfl

theorem placeOf?_eq (hp : Source w origin base p) (h : Holder) : base.placeOf? h = w.placeOf? h := by
  cases h with
  | table name => rw [placeOf?, placeOf?, place?, place?, hp.tables_eq]
  | relaxer name => rw [placeOf?, placeOf?, hp.relaxers_eq]
  | usual => rfl

theorem tableAt_eq (hp : Source w origin base p) {q : Nat} (hq : q < w.places.length) :
    base.tableAt q = w.tableAt q := by
  cases hp with
  | same | nothing => rfl
  | fresh t => exact tableAt_allocate t hq

theorem length_le (hp : Source w origin base p) : w.places.length ≤ base.places.length := by
  cases hp with
  | same | nothing => exact Nat.le_refl _
  | fresh t => simp [allocate]

theorem lt_length (hp : Source w origin base p) (hw : w.Sound) {q : Nat} (hq : p = some q) :
    q < base.places.length := by
  cases hp with
  | same ho => exact hw _ q (ho.trans hq)
  | fresh t =>
    rw [← Option.some.inj hq]
    simp [allocate]
  | nothing => cases hq

/-- A new holder refers to the place of somebody only if its origin does. -/
theorem eq_some_iff (hp : Source w origin base p) (hw : w.Sound) {k : Holder} {q : Nat}
    (hk : w.placeOf? k = some q) : p = some q ↔ ∃ o ∈ origin, w.placeOf? o = some q := by
  cases hp with
  | @same o q' ho =>
    rw [← ho]
    simp
  | fresh t ho =>
    constructor
    · intro hq
      have hlt := hw k q hk
      rw [← Option.some.inj hq] at hlt
      exact absurd hlt (Nat.lt_irrefl _)
    · rintro ⟨o, hmem, hplace⟩
      rw [ho o hmem] at hplace
      cases hplace
  | nothing => simp

end Source

/-! ### Steps -/

namespace Outcome

variable {w w' : Workspace} {s : WorkspaceStep}

theorem sound (ho : Outcome w s w') (hw : w.Sound) : w'.Sound := by
  cases ho with
  | same => exact hw
  | changed =>
    intro h q hplace
    have hplace' : w.placeOf? h = some q := by
      cases h <;> exact hplace
    rw [update, List.length_set]
    exact hw h q hplace'
  | @named name base p hs _ hp =>
    intro h q hplace
    show q < base.places.length
    by_cases hh : h = .table name
    · rw [hh, placeOf?_bind_self] at hplace
      exact hp.lt_length hw hplace
    · rw [placeOf?_bind_of_ne base p hh, hp.placeOf?_eq] at hplace
      exact Nat.lt_of_lt_of_le (hw h q hplace) hp.length_le
  | @held name base r hs _ hp =>
    intro h q hplace
    show q < base.places.length
    by_cases hh : h = .relaxer name
    · rw [hh, placeOf?_hold_self] at hplace
      exact hp.lt_length hw hplace
    · rw [placeOf?_hold_of_ne base r hh, hp.placeOf?_eq] at hplace
      exact Nat.lt_of_lt_of_le (hw h q hplace) hp.length_le

/-- A step leaves all references alone but that of the holder which it makes. -/
theorem placeOf?_eq (ho : Outcome w s w') {h : Holder} (hne : s.makes? ≠ some h) :
    w'.placeOf? h = w.placeOf? h := by
  cases ho with
  | same => rfl
  | changed => cases h <;> rfl
  | @named name base p hs _ hp =>
    have hh : h ≠ .table name := fun heq => hne (hs.trans (congrArg some heq.symm))
    rw [placeOf?_bind_of_ne base p hh, hp.placeOf?_eq]
  | @held name base r hs _ hp =>
    have hh : h ≠ .relaxer name := fun heq => hne (hs.trans (congrArg some heq.symm))
    rw [placeOf?_hold_of_ne base r hh, hp.placeOf?_eq]

theorem lookup_eq (ho : Outcome w s w') {name : Bytes} (hne : s.makes? ≠ some (.relaxer name)) :
    w'.relaxers.lookup name = w.relaxers.lookup name := by
  cases ho with
  | same | changed => rfl
  | named _ _ hp =>
    rw [← hp.relaxers_eq]
    rfl
  | @held n base r hs _ hp =>
    have hn : name ≠ n := fun heq => hne (hs.trans (by rw [heq]))
    rw [lookup_hold_of_ne base r hn, hp.relaxers_eq]

/-- A step leaves all tables alone but the one which it changes. -/
theorem tableAt_eq (ho : Outcome w s w') {q : Nat} (hq : q < w.places.length)
    (hsame : ∀ name change, s.change? = some (name, change) → w.place? name ≠ some q) :
    w'.tableAt q = w.tableAt q := by
  cases ho with
  | same => rfl
  | @changed name change p hs _ hp =>
    have hne : p ≠ q := fun heq => hsame name change hs (hp.trans (congrArg some heq))
    exact tableAt_update_of_ne w _ hne
  | named _ _ hp => exact hp.tableAt_eq hq
  | held _ _ hp => exact hp.tableAt_eq hq

/-- A change is seen by all holders of the place. -/
theorem rules?_of_shares (ho : Outcome w s w') (hw : w.Sound) {name : Bytes}
    {change : Table → Table} (hs : s.change? = some (name, change)) {h : Holder}
    (hshares : w.Shares h (.table name)) : w'.rules? h = (w.rules? h).map change := by
  obtain ⟨q, hplace, hname⟩ := hshares
  cases ho with
  | same _ hchange =>
    rw [placeOf?, hchange name change hs] at hname
    cases hname
  | @changed n f p hs' _ hp =>
    rw [hs] at hs'
    obtain ⟨rfl, rfl⟩ := Prod.mk.inj (Option.some.inj hs')
    rw [placeOf?, hp] at hname
    obtain rfl := Option.some.inj hname
    have hplace' : (w.update p (change (w.tableAt p))).placeOf? h = some p := by
      cases h <;> exact hplace
    rw [rules?, rules?, hplace, hplace', Option.map_some, Option.map_some, Option.map_some,
      tableAt_update_self _ (hw h p hplace)]
  | named _ hchange _ =>
    rw [hs] at hchange
    cases hchange
  | held _ hchange _ =>
    rw [hs] at hchange
    cases hchange

/-- The holder that a step makes refers to a place that was there only if its origin does. -/
theorem placeOf?_made (ho : Outcome w s w') (hw : w.Sound) {h k : Holder} {q : Nat}
    (hmakes : s.makes? = some h) (hk : w.placeOf? k = some q) :
    ((w.step s).1.isFault = true ∧ w' = w) ∨
      (w'.placeOf? h = some q ↔ ∃ o ∈ s.origin?, w.placeOf? o = some q) := by
  cases ho with
  | same hfault =>
    rcases hfault with hnone | hfault
    · rw [hmakes] at hnone
      cases hnone
    · exact Or.inl ⟨hfault, rfl⟩
  | changed _ hnone _ =>
    rw [hmakes] at hnone
    cases hnone
  | named hs _ hp =>
    rw [hmakes] at hs
    rw [Option.some.inj hs, placeOf?_bind_self]
    exact Or.inr (hp.eq_some_iff hw hk)
  | held hs _ hp =>
    rw [hmakes] at hs
    rw [Option.some.inj hs, placeOf?_hold_self]
    exact Or.inr (hp.eq_some_iff hw hk)

/-- The holder that a step makes shares a table with those who share that of its origin. -/
theorem shares_iff (ho : Outcome w s w') (hw : w.Sound) {h k : Holder}
    (hmakes : s.makes? = some h) (hdone : (w.step s).1.isFault = false) (hne : k ≠ h) :
    w'.Shares h k ↔ ∃ o ∈ s.origin?, w.Shares o k := by
  have hother : w'.placeOf? k = w.placeOf? k := ho.placeOf?_eq (by
    rw [hmakes]
    exact fun heq => hne (Option.some.inj heq).symm)
  have hnew : ∀ {q : Nat}, w.placeOf? k = some q →
      (w'.placeOf? h = some q ↔ ∃ o ∈ s.origin?, w.placeOf? o = some q) := by
    intro q hk
    refine (ho.placeOf?_made hw hmakes hk).resolve_left ?_
    rintro ⟨hfault, _⟩
    rw [hdone] at hfault
    cases hfault
  constructor
  · rintro ⟨q, hh, hk⟩
    rw [hother] at hk
    obtain ⟨o, hmem, horigin⟩ := (hnew hk).mp hh
    exact ⟨o, hmem, q, horigin, hk⟩
  · rintro ⟨o, hmem, q, horigin, hk⟩
    exact ⟨q, (hnew hk).mpr ⟨o, hmem, horigin⟩, hother.trans hk⟩

/-- Nobody comes to share the table of the usual relaxer, since it is nobody's origin. -/
theorem not_shares_usual (ho : Outcome w s w') (hw : w.Sound)
    (halone : ∀ h, h ≠ .usual → ¬ w.Shares h .usual) {h : Holder} (hne : h ≠ .usual) :
    ¬ w'.Shares h .usual := by
  rintro ⟨q, hh, hu⟩
  have husual : w.placeOf? .usual = some q := hu
  by_cases hmakes : s.makes? = some h
  · rcases ho.placeOf?_made hw hmakes husual with ⟨_, hsame⟩ | hmade
    · rw [hsame] at hh
      exact halone h hne ⟨q, hh, husual⟩
    · obtain ⟨o, hmem, horigin⟩ := hmade.mp hh
      refine halone o ?_ ⟨q, horigin, husual⟩
      rintro rfl
      cases s <;> simp [WorkspaceStep.origin?] at hmem
  · rw [ho.placeOf?_eq hmakes] at hh
    exact halone h hne ⟨q, hh, husual⟩

end Outcome

/-! ### Sessions -/

theorem sound_start : start.Sound := by
  intro h q hq
  cases h with
  | table name => cases hq
  | relaxer name => cases hq
  | usual =>
    rw [← Option.some.inj hq]
    exact Nat.zero_lt_one

theorem Sound.run {w : Workspace} (hw : w.Sound) (steps : List WorkspaceStep) :
    (w.run steps).Sound := by
  induction steps generalizing w with
  | nil => exact hw
  | cons s rest ih => exact ih ((w.outcome_step s).sound hw)

/-- Whoever keeps its reference, and finds the same table at its place, sees no difference. -/
theorem unnoticed_of_tableAt {w w' : Workspace} {h : Holder}
    (hplace : w'.placeOf? h = w.placeOf? h)
    (hlookup : ∀ name, h = .relaxer name → w'.relaxers.lookup name = w.relaxers.lookup name)
    (htable : ∀ q, w.placeOf? h = some q → w'.tableAt q = w.tableAt q) : Unnoticed w w' h := by
  refine ⟨?_, ?_, ?_⟩
  · rw [rules?, rules?, hplace]
    exact Option.map_congr htable
  · rintro name rfl
    rw [operatorsOf, operatorsOf, show w'.place? name = w.place? name from hplace]
    cases hq : w.place? name with
    | none => rfl
    | some q => exact congrArg Table.operators (htable q hq)
  · rintro name rfl π e
    have hsame : w'.relaxer? name = w.relaxer? name := by
      rw [relaxer?, relaxer?, hlookup name rfl]
      refine Option.map_congr fun r hr => ?_
      rw [htable r.place (by rw [placeOf?, hr]; rfl)]
    rw [relax?, relax?, hsame]

theorem Unnoticed.trans {w w' w'' : Workspace} {h : Holder} (h1 : Unnoticed w w' h)
    (h2 : Unnoticed w' w'' h) : Unnoticed w w'' h where
  rules := h2.rules.trans h1.rules
  operators name hname := (h2.operators name hname).trans (h1.operators name hname)
  relaxed name hname π e := (h2.relaxed name hname π e).trans (h1.relaxed name hname π e)

/-- The step lemma: who shares no table with the one that is changed sees no difference. -/
theorem unnoticed_step {w : Workspace} (hw : w.Sound) {s : WorkspaceStep} {h : Holder}
    (hmakes : s.makes? ≠ some h)
    (hchange : ∀ name change, s.change? = some (name, change) → ¬ w.Shares h (.table name)) :
    Unnoticed w (w.step s).2 h := by
  have ho := w.outcome_step s
  refine unnoticed_of_tableAt (ho.placeOf?_eq hmakes) ?_ ?_
  · rintro name rfl
    exact ho.lookup_eq hmakes
  · intro q hq
    refine ho.tableAt_eq (hw h q hq) ?_
    intro name change hs hname
    exact hchange name change hs ⟨q, hq, hname⟩

/-- The run lemma: a holder sees no difference until somebody changes a table that it shares. -/
theorem unnoticed_run {w : Workspace} (hw : w.Sound) {steps : List WorkspaceStep} {h : Holder}
    (hmakes : ∀ s ∈ steps, s.makes? ≠ some h) (hchange : ¬ ChangesFor h w steps) :
    Unnoticed w (w.run steps) h := by
  induction steps generalizing w with
  | nil => exact ⟨rfl, fun _ _ => rfl, fun _ _ _ _ => rfl⟩
  | cons s rest ih =>
    rw [ChangesFor, not_or] at hchange
    have hfirst : Unnoticed w (w.step s).2 h := by
      refine unnoticed_step hw (hmakes s (List.mem_cons_self ..)) ?_
      intro name change hs hshares
      exact hchange.1 ⟨name, change, hs, hshares⟩
    have hrest := ih ((w.outcome_step s).sound hw)
      (fun t ht => hmakes t (List.mem_cons_of_mem s ht)) hchange.2
    exact hfirst.trans hrest

theorem not_shares_usual_start {h : Holder} (hne : h ≠ .usual) : ¬ start.Shares h .usual := by
  rintro ⟨q, hh, _⟩
  cases h with
  | table name => cases hh
  | relaxer name => cases hh
  | usual => exact hne rfl

theorem not_changesFor_usual {w : Workspace} (hw : w.Sound)
    (halone : ∀ h, h ≠ .usual → ¬ w.Shares h .usual) (steps : List WorkspaceStep) :
    ¬ ChangesFor .usual w steps := by
  induction steps generalizing w with
  | nil => exact id
  | cons s rest ih =>
    have ho := w.outcome_step s
    rintro (⟨name, change, hs, q, hu, hname⟩ | hrest)
    · exact halone (.table name) nofun ⟨q, hname, hu⟩
    · exact ih (ho.sound hw) (fun k hk => ho.not_shares_usual hw halone hk) hrest

/-- The usual relaxer is the same after every session. -/
theorem usualRelaxer_run (steps : List WorkspaceStep) :
    (start.run steps).usualRelaxer = Relaxer.standard := by
  have hsame : Unnoticed start (start.run steps) .usual := by
    refine unnoticed_run sound_start ?_
      (not_changesFor_usual sound_start (fun _ => not_shares_usual_start) steps)
    intro s _
    cases s <;> exact nofun
  have htable : (start.run steps).tableAt 0 = Table.standard := Option.some.inj hsame.rules
  rw [usualRelaxer, htable]
  rfl

/-! ### New holders -/

theorem rules?_define (w : Workspace) (name : Bytes) (t : Table) :
    (w.define name t).rules? (.table name) = some t := by
  have hplace : (w.define name t).placeOf? (.table name) = some w.places.length :=
    placeOf?_bind_self _ name _
  rw [rules?, hplace]
  simp [tableAt, define, bind, allocate]

/-- A copy has the rules that the table has now. -/
theorem rules?_copy (w : Workspace) (name target : Bytes) :
    (w.step (.copy name target)).2.rules? (.table target) = w.rules? (.table name) := by
  have hplace : w.placeOf? (.table name) = w.place? name := rfl
  rw [step, rules?, rules?, hplace]
  cases hq : w.place? name with
  | none =>
    show ((w.bind target none).placeOf? (.table target)).map _ = none
    rw [placeOf?_bind_self]
    rfl
  | some q => exact w.rules?_define target (w.tableAt q)

/-- A relaxer that is given no table is the one that was chosen, whatever there was before. -/
theorem relaxer?_new (w : Workspace) (name : Bytes) {options : Options} {rx : Relaxer}
    (h : options.relaxer = .ok rx) :
    (w.step (.relaxer name options [])).2.relaxer? name = some rx := by
  rw [step, h]
  simp [relaxer?, allocate, tableAt]

/-! ### The whole of it -/

/-- **Tables are shared exactly through aliases.** After any session a holder sees no difference,
however long the session goes on, until a table that it shares is changed or it is made anew; a
change is seen by all who share the table; a new holder shares with those who share with its origin
and with nobody else, and the others share as before; standard tables, copies and relaxers without a
given table are what they are whatever was changed before; the usual relaxer never changes; and
without a rule nothing is added. -/
theorem shared_through_aliases (before : List WorkspaceStep) :
    let w := start.run before
    (∀ later h, (∀ s ∈ later, s.makes? ≠ some h) → ¬ ChangesFor h w later →
      Unnoticed w (w.run later) h) ∧
    (∀ s name change h, s.change? = some (name, change) → w.Shares h (.table name) →
      (w.step s).2.rules? h = (w.rules? h).map change) ∧
    (∀ s h k, s.makes? = some h → (w.step s).1.isFault = false → k ≠ h →
      ((w.step s).2.Shares h k ↔ ∃ o ∈ s.origin?, w.Shares o k)) ∧
    (∀ s h k, s.makes? ≠ some h → s.makes? ≠ some k →
      ((w.step s).2.Shares h k ↔ w.Shares h k)) ∧
    (∀ name, (w.step (.standard name)).2.rules? (.table name) = some .standard) ∧
    (∀ name target,
      (w.step (.copy name target)).2.rules? (.table target) = w.rules? (.table name)) ∧
    (∀ name options rx, options.relaxer = .ok rx →
      (w.step (.relaxer name options [])).2.relaxer? name = some rx) ∧
    w.usualRelaxer = Relaxer.standard ∧
    (∀ name op, (w.step (.add name op none)).2 = w) := by
  intro w
  have hw : w.Sound := sound_start.run before
  refine ⟨?_, ?_, ?_, ?_, ?_, w.rules?_copy, ?_, usualRelaxer_run before, ?_⟩
  · intro later h hmakes hchange
    exact unnoticed_run hw hmakes hchange
  · intro s name change h hs hshares
    exact (w.outcome_step s).rules?_of_shares hw hs hshares
  · intro s h k hmakes hdone hne
    exact (w.outcome_step s).shares_iff hw hmakes hdone hne
  · intro s h k hh hk
    have ho := w.outcome_step s
    rw [Shares, Shares, ho.placeOf?_eq hh, ho.placeOf?_eq hk]
  · intro name
    exact w.rules?_define name .standard
  · intro name options rx h
    exact w.relaxer?_new name h
  · intro name op
    rfl

/-- A standard table `t`, a relaxer `r` for it, and a copy `c` of it. -/
def sharingExample : List WorkspaceStep :=
  [.standard (utf8 "t"), .relaxer (utf8 "r") {} (utf8 "t"), .copy (utf8 "t") (utf8 "c")]

/-- A rule for quotients is added to the table of the relaxer, under another name for it. -/
def quotientSession : List WorkspaceStep :=
  [.tableOf (utf8 "r") (utf8 "u"), .add (utf8 "u") (utf8 "/") (some (.binary .product))]

/-- The copy sees nothing of the new rule, and the name `t` does. -/
theorem shared_through_aliases_quotientSession :
    (∀ s ∈ quotientSession, s.makes? ≠ some (.table (utf8 "c"))) ∧
    ¬ ChangesFor (.table (utf8 "c")) (start.run sharingExample) quotientSession ∧
    Unnoticed (start.run sharingExample) ((start.run sharingExample).run quotientSession)
      (.table (utf8 "c")) ∧
    ((start.run sharingExample).run quotientSession).operatorsOf (utf8 "t")
      ≠ (start.run sharingExample).operatorsOf (utf8 "t") := by
  have hmakes : ∀ s ∈ quotientSession, s.makes? ≠ some (.table (utf8 "c")) := by
    intro s hs
    rcases List.mem_cons.mp hs with rfl | hs
    · decide
    · rw [List.mem_singleton.mp hs]
      decide
  have hchange : ¬ ChangesFor (.table (utf8 "c")) (start.run sharingExample) quotientSession := by
    rintro (⟨name, change, hs, _⟩ | ⟨name, change, hs, q, hc, hu⟩ | h)
    · cases hs
    · cases hs
      cases hc
      cases hu
    · exact h
  exact ⟨hmakes, hchange,
    (shared_through_aliases sharingExample).1 quotientSession _ hmakes hchange, by decide⟩

end Workspace
end RelaxArith
