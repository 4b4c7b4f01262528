/-
What a table says about each symbol.

A table is kept as a sorted list.  What matters about it is which rule it has for a symbol, and
adding and deleting are described here by what they do to that, for every symbol at once, so that
no later proof has to look at the list.

Most rules only take apart: they put calls, assignments and signs in the place of operations and
never make a new operation.  A table of such rules stays one however it is changed by more of
them.
-/
import RelaxArith.Rules

namespace RelaxArith

namespace Table

/-! ### Looking up what was changed -/

theorem lookup_cons_of_ne {β : Type} {sym o : Bytes} (h : sym ≠ o) (r : β)
    (rest : List (Bytes × β)) : ((o, r) :: rest).lookup sym = rest.lookup sym := by
  rw [List.lookup_cons, beq_eq_false_iff_ne.mpr h]

theorem lookup_insert_self (op : Bytes) (rule : Rule) (entries : List (Bytes × Rule)) :
    (insert op rule entries).lookup op = some rule := by
  induction entries with
  | nil => exact List.lookup_cons_self
  | cons entry rest ih =>
    obtain ⟨o, r⟩ := entry
    rw [insert]
    by_cases hop : op = o
    · rw [if_pos hop, List.lookup_cons_self]
    rw [if_neg hop]
    by_cases hle : Bytes.le op o = true
    · rw [if_pos hle, List.lookup_cons_self]
    · rw [if_neg hle, lookup_cons_of_ne hop, ih]

theorem lookup_insert_of_ne {op sym : Bytes} (h : sym ≠ op) (rule : Rule)
    (entries : List (Bytes × Rule)) :
    (insert op rule entries).lookup sym = entries.lookup sym := by
  induction entries with
  | nil => exact lookup_cons_of_ne h rule []
  | cons entry rest ih =>
    obtain ⟨o, r⟩ := entry
    rw [insert]
    by_cases hop : op = o
    · -- the older rule is replaced, and it was not for this symbol either
      rw [if_pos hop, lookup_cons_of_ne h, lookup_cons_of_ne (hop ▸ h)]
    rw [if_neg hop]
    by_cases hle : Bytes.le op o = true
    · rw [if_pos hle, lookup_cons_of_ne h]
    · rw [if_neg hle, List.lookup_cons, List.lookup_cons, ih]

@[simp]
theorem get?_add (t : Table) (op sym : Bytes) (rule : Rule) :
    (t.add op rule).get? sym = if sym = op then some rule else t.get? sym := by
  by_cases hsym : sym = op
  · rw [if_pos hsym, hsym]
    exact lookup_insert_self op rule t.entries
  · rw [if_neg hsym]
    exact lookup_insert_of_ne hsym rule t.entries

theorem lookup_filter_self (op : Bytes) (entries : List (Bytes × Rule)) :
    (entries.filter fun e => e.1 != op).lookup op = none := by
  rw [List.lookup_eq_none_iff]
  intro entry hmem
  have hne : entry.1 ≠ op := by simpa using (List.mem_filter.mp hmem).2
  simpa using Ne.symm hne

theorem lookup_filter_of_ne {β : Type} {op sym : Bytes} (h : sym ≠ op)
    (entries : List (Bytes × β)) :
    (entries.filter fun e => e.1 != op).lookup sym = entries.lookup sym := by
  induction entries with
  | nil => rfl
  | cons entry rest ih =>
    obtain ⟨o, r⟩ := entry
    by_cases ho : o = op
    · rw [List.filter_cons_of_neg (by simpa using ho), ih, lookup_cons_of_ne (ho ▸ h)]
    · rw [List.filter_cons_of_pos (by simpa using ho), List.lookup_cons, List.lookup_cons, ih]

@[simp]
theorem get?_delete (t : Table) (op sym : Bytes) :
    (t.delete op).get? sym = if sym = op then none else t.get? sym := by
  by_cases hsym : sym = op
  · rw [if_pos hsym, hsym]
    exact lookup_filter_self op t.entries
  · rw [if_neg hsym]
    exact lookup_filter_of_ne hsym t.entries

@[simp]
theorem get?_empty (sym : Bytes) : Table.empty.get? sym = none := rfl

theorem mem_entries_of_get? {t : Table} {op : Bytes} {rule : Rule} (h : t.get? op = some rule) :
    (op, rule) ∈ t.entries := by
  obtain ⟨before, behind, hentries, _⟩ := List.lookup_eq_some_iff.mp h
  rw [hentries]
  simp

end Table

/-! ### Rules that make no operations -/

/-- Does a combination put an operation in the place of the one that it replaces? -/
def Combine.makesOperation : Combine → Bool
  | .operation _ => true
  | _ => false

/-- Does a rule put a new operation in the place of the one that it is for? -/
def Rule.makesOperation : Rule → Bool
  | .keep => false
  | .binary c => c.makesOperation
  | .compound c => c.makesOperation

/-- The combinations of the standard table. -/
def Combine.arithmetic : List Combine := [.sum, .difference, .product]

theorem Combine.mem_arithmetic {c : Combine} :
    c ∈ Combine.arithmetic ↔ c = .sum ∨ c = .difference ∨ c = .product := by
  simp [arithmetic]

namespace Table

/-- A table none of whose rules makes operations. -/
def MakesNoOperation (t : Table) : Prop :=
  ∀ op rule, t.get? op = some rule → rule.makesOperation = false

/-- A table that came about from the standard one or from the empty one by adding rules that make
no operations and by deleting rules, any number of times and in any order. -/
inductive Built : Table → Prop
  | standard : Built .standard
  | empty : Built .empty
  | add {t : Table} {op : Bytes} {rule : Rule} (ht : Built t)
      (hrule : rule.makesOperation = false) : Built (t.add op rule)
  | delete {t : Table} {op : Bytes} (ht : Built t) : Built (t.delete op)

/-- A rule of the standard table replaces an operation by a call, or by an assignment of one. -/
theorem exists_of_get?_standard {op : Bytes} {rule : Rule}
    (h : Table.standard.get? op = some rule) :
    ∃ c ∈ Combine.arithmetic, rule = .binary c ∨ rule = .compound c := by
  have hall : ∀ e ∈ Table.standard.entries,
      ∃ c ∈ Combine.arithmetic, e.2 = .binary c ∨ e.2 = .compound c := by
    decide
  exact hall (op, rule) (mem_entries_of_get? h)

/-- The standard table has rules for sums, differences and products, plain and as compound
assignments, and for nothing else. -/
theorem get?_standard_eq_none_iff {op : Bytes} :
    Table.standard.get? op = none ↔
      op ∉ [utf8 "+", utf8 "-", utf8 "*", utf8 "+=", utf8 "-=", utf8 "*="] := by
  have hsymbols : ∀ sym, sym ∈ Table.standard.operators ↔
      sym ∈ [utf8 "+", utf8 "-", utf8 "*", utf8 "+=", utf8 "-=", utf8 "*="] :=
    fun _ => List.Perm.mem_iff (by decide)
  rw [← hsymbols, get?, List.lookup_eq_none_iff, operators, List.mem_map]
  constructor
  · rintro h ⟨entry, hentry, rfl⟩
    simpa using h entry hentry
  · intro h entry hentry
    have hne : op ≠ entry.1 := fun heq => h ⟨entry, hentry, heq.symm⟩
    simpa using hne

/-- What holds of each entry of the standard table, and of the symbols that it does not mention,
holds of what it says about any symbol. -/
theorem get?_standard_of_entries {P : Bytes → Option Rule → Prop}
    (hentries : ∀ e ∈ Table.standard.entries, P e.1 (some e.2))
    (hother : ∀ op ∉ [utf8 "+", utf8 "-", utf8 "*", utf8 "+=", utf8 "-=", utf8 "*="], P op none)
    (op : Bytes) : P op (Table.standard.get? op) := by
  cases hrule : Table.standard.get? op with
  | none => exact hother op (get?_standard_eq_none_iff.mp hrule)
  | some rule => exact hentries (op, rule) (mem_entries_of_get? hrule)

/-- The compound assignments that the standard table has rules for. -/
def compounds : List Bytes := [utf8 "+=", utf8 "-=", utf8 "*="]

/-- Of the standard table, the rules for compound assignments make assignments, and the others
do not. -/
theorem get?_standard_cases (op : Bytes) :
    (op ∈ compounds ∧ ∃ c ∈ Combine.arithmetic, Table.standard.get? op = some (.compound c)) ∨
    (op ∉ compounds ∧ ∃ c ∈ Combine.arithmetic, Table.standard.get? op = some (.binary c)) ∨
    (op ∉ compounds ∧ Table.standard.get? op = none) := by
  refine get?_standard_of_entries (P := fun op rule =>
    (op ∈ compounds ∧ ∃ c ∈ Combine.arithmetic, rule = some (.compound c)) ∨
    (op ∉ compounds ∧ ∃ c ∈ Combine.arithmetic, rule = some (.binary c)) ∨
    (op ∉ compounds ∧ rule = none)) (by decide) (fun op hop => ?_) op
  have hcompound : op ∉ compounds := fun hmem =>
    hop (List.mem_append_right [utf8 "+", utf8 "-", utf8 "*"] hmem)
  exact .inr (.inr ⟨hcompound, rfl⟩)

theorem standard_makesNoOperation : Table.standard.MakesNoOperation := by
  have hall : ∀ e ∈ Table.standard.entries, e.2.makesOperation = false := by decide
  intro op rule h
  exact hall (op, rule) (mem_entries_of_get? h)

theorem MakesNoOperation.add {t : Table} (ht : t.MakesNoOperation) {op : Bytes} {rule : Rule}
    (hrule : rule.makesOperation = false) : (t.add op rule).MakesNoOperation := by
  intro sym rule' h
  rw [get?_add] at h
  by_cases hsym : sym = op
  · rw [if_pos hsym] at h
    rw [← Option.some.inj h]
    exact hrule
  · rw [if_neg hsym] at h
    exact ht sym rule' h

theorem MakesNoOperation.delete {t : Table} (ht : t.MakesNoOperation) {op : Bytes} :
    (t.delete op).MakesNoOperation := by
  intro sym rule h
  rw [get?_delete] at h
  by_cases hsym : sym = op
  · rw [if_pos hsym] at h
    cases h
  · rw [if_neg hsym] at h
    exact ht sym rule h

theorem Built.makesNoOperation {t : Table} (h : t.Built) : t.MakesNoOperation := by
  induction h with
  | standard => exact standard_makesNoOperation
  | empty =>
    intro op rule h
    rw [get?_empty] at h
    cases h
  | add _ hrule ih => exact ih.add hrule
  | delete _ ih => exact ih.delete

/-! ### Tables that differ in some symbols -/

/-- A table that came about from another one by adding rules for certain symbols and by deleting
theirs, any number of times and in any order. -/
inductive Amended (p : Bytes → Prop) (t : Table) : Table → Prop
  | same : Amended p t t
  | add {u : Table} {op : Bytes} {rule : Rule} (hu : Amended p t u) (hop : p op) :
      Amended p t (u.add op rule)
  | delete {u : Table} {op : Bytes} (hu : Amended p t u) (hop : p op) : Amended p t (u.delete op)

/-- The rules for all other symbols are the old ones. -/
theorem Amended.get?_eq {p : Bytes → Prop} {t u : Table} (h : Amended p t u) {sym : Bytes}
    (hsym : ¬ p sym) : u.get? sym = t.get? sym := by
  induction h with
  | same => rfl
  | @add u op rule _ hop ih =>
    have hne : sym ≠ op := fun heq => hsym (heq ▸ hop)
    rw [get?_add, if_neg hne, ih]
  | @delete u op _ hop ih =>
    have hne : sym ≠ op := fun heq => hsym (heq ▸ hop)
    rw [get?_delete, if_neg hne, ih]

end Table
end RelaxArith
