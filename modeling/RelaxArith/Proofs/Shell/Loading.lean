/-
Files that load files.

A line can load a file whose lines load others.  Loading ends if there is no endless chain of
files, each loaded from the one before; that is said of a file by its being accessible.

Sessions bound the depth of loading by the number of files.  Where loading ends, the bound never
takes effect: from a file on, only files are loaded that it leads to, and the files that a loaded
file leads to are fewer, since a file does not lead to itself.
-/
import Mathlib.Data.Finset.Card
import Mathlib.Data.List.TakeWhile
import Mathlib.Logic.Relation
import RelaxArith.Proofs.Shell.Directory
import RelaxArith.Shell.Session

namespace RelaxArith.Shell

open Relation

/-- What is read of a file: its lines, trimmed, without blank ones and comments. -/
def scriptLines (content : Bytes) : List Bytes :=
  ((Bytes.splitOnByte 0x0A content).map Bytes.trim).filter fun l =>
    !l.isEmpty && !Bytes.startsWith l (utf8 "//")

/-- No line of a file is too long to be read. -/
def Readable (content : Bytes) : Prop :=
  ∀ l ∈ Bytes.splitOnByte 0x0A content, l.length < Session.lineLimit

/-- A line loads a file with some content. -/
def Opens (dir : Directory) (line content : Bytes) : Prop :=
  Bytes.startsWith line (utf8 ":") = true ∧ (splitCommand line).1 = utf8 ":load" ∧
    dir.find (splitCommand line).2 = .file content

/-- A file is loaded from within another one. -/
def Loads (dir : Directory) (inner outer : Bytes) : Prop :=
  ∃ line ∈ scriptLines outer, Opens dir line inner

/-- A file is loaded by lines, or from within one that is. -/
def Reads (dir : Directory) (lines : List Bytes) (content : Bytes) : Prop :=
  ∃ line ∈ lines, ∃ first, Opens dir line first ∧ ReflTransGen (Loads dir) content first

/-- Whatever lines load can be read, and loading comes to an end. -/
structure Loadable (dir : Directory) (lines : List Bytes) : Prop where
  ends : ∀ line ∈ lines, ∀ content, Opens dir line content → Acc (Loads dir) content
  readable : ∀ content, Reads dir lines content → Readable content

/-- Fewer lines ask for less. -/
theorem Loadable.mono {dir : Directory} {lines lines' : List Bytes} (h : Loadable dir lines)
    (hsub : lines' ⊆ lines) : Loadable dir lines' where
  ends := fun line hline => h.ends line (hsub hline)
  readable := fun content ⟨line, hline, hreads⟩ => h.readable content ⟨line, hsub hline, hreads⟩

/-! ### Files that are found -/

theorem Directory.mem_of_entry {dir : Directory} {r : Route} {content : Bytes}
    (h : dir.entry r = .file content) : content ∈ dir.files.map Prod.snd := by
  unfold Directory.entry at h
  cases hfind : dir.files.find? fun f => Path.route f.1 = r with
  | none =>
    simp only [hfind] at h
    split at h <;> cases h
  | some f =>
    simp only [hfind] at h
    cases h
    exact List.mem_map.mpr ⟨f, List.mem_of_find?_eq_some hfind, rfl⟩

theorem Directory.mem_of_find {dir : Directory} {path content : Bytes}
    (h : dir.find path = .file content) : content ∈ dir.files.map Prod.snd :=
  mem_of_entry (entry_of_find h)

/-- A file that can be read is read to its end. -/
theorem linesOf_eq {content : Bytes} (h : Readable content) :
    Session.linesOf content = scriptLines content := by
  have hall : (Bytes.splitOnByte 0x0A content).takeWhile (fun l => l.length < Session.lineLimit)
      = Bytes.splitOnByte 0x0A content := by
    rw [List.takeWhile_eq_self_iff]
    intro l hl
    exact decide_eq_true (h l hl)
  unfold Session.linesOf scriptLines
  rw [hall]

/-! ### How deep loading goes -/

open Classical in
/-- The files that a file leads to. -/
noncomputable def below (dir : Directory) (content : Bytes) : Finset Bytes :=
  (dir.files.map Prod.snd).toFinset.filter fun inner => TransGen (Loads dir) inner content

theorem mem_below {dir : Directory} {inner content : Bytes} :
    inner ∈ below dir content ↔ TransGen (Loads dir) inner content := by
  simp only [below, Finset.mem_filter, List.mem_toFinset, and_iff_right_iff_imp]
  intro h
  cases h with
  | single h =>
    obtain ⟨line, -, -, -, hfind⟩ := h
    exact dir.mem_of_find hfind
  | tail h _ =>
    obtain ⟨_, ⟨line, -, -, -, hfind⟩, -⟩ := TransGen.head'_iff.mp h
    exact dir.mem_of_find hfind

open Classical in
theorem card_below_le (dir : Directory) (content : Bytes) :
    (below dir content).card ≤ dir.files.length := by
  have hsub : below dir content ⊆ (dir.files.map Prod.snd).toFinset := Finset.filter_subset ..
  calc (below dir content).card
      ≤ (dir.files.map Prod.snd).toFinset.card := Finset.card_le_card hsub
    _ ≤ (dir.files.map Prod.snd).length := List.toFinset_card_le _
    _ = dir.files.length := List.length_map _

/-- A file from which loading ends does not lead to itself. -/
theorem not_mem_below_self {dir : Directory} {content : Bytes} (h : Acc (Loads dir) content) :
    content ∉ below dir content := by
  intro hmem
  have hacc := acc_transGen_iff.mpr h
  have hself := mem_below.mp hmem
  induction hacc with
  | intro content _ ih =>
    exact ih content hself h (mem_below.mpr hself) hself

theorem card_below_lt {dir : Directory} {inner outer : Bytes} (h : Acc (Loads dir) outer)
    (hload : Loads dir inner outer) : (below dir inner).card < (below dir outer).card := by
  refine Finset.card_lt_card ⟨?_, ?_⟩
  · intro content hcontent
    exact mem_below.mpr ((mem_below.mp hcontent).tail hload)
  · intro hsub
    have hmem : inner ∈ below dir outer := mem_below.mpr (.single hload)
    exact not_mem_below_self (h.inv hload) (hsub hmem)

/-- Lines load only files that lead to less than `n` others. -/
structure Shallow (dir : Directory) (n : Nat) (lines : List Bytes) : Prop
    extends Loadable dir lines where
  shallow : ∀ line ∈ lines, ∀ content, Opens dir line content → (below dir content).card < n

theorem Loadable.isShallow {dir : Directory} {lines : List Bytes} (h : Loadable dir lines) :
    Shallow dir (dir.files.length + 1) lines :=
  ⟨h, fun _ _ content _ => Nat.lt_succ_of_le (card_below_le dir content)⟩

namespace Shallow

variable {dir : Directory} {n : Nat} {line content : Bytes} {lines : List Bytes}

theorem mono (h : Shallow dir n lines) {lines' : List Bytes} (hsub : lines' ⊆ lines) :
    Shallow dir n lines' :=
  ⟨h.toLoadable.mono hsub, fun l hl => h.shallow l (hsub hl)⟩

theorem readable_of_opens (h : Shallow dir n (line :: lines)) (hopens : Opens dir line content) :
    Readable content :=
  h.readable content ⟨line, List.mem_cons_self, content, hopens, .refl⟩

/-- Inside a file, there is one level less to go. -/
theorem file (h : Shallow dir (n + 1) (line :: lines)) (hopens : Opens dir line content) :
    Shallow dir n (scriptLines content) := by
  have hacc := h.ends line List.mem_cons_self content hopens
  have hcard := h.shallow line List.mem_cons_self content hopens
  refine ⟨⟨?_, ?_⟩, ?_⟩
  · intro l hl inner hinner
    exact hacc.inv ⟨l, hl, hinner⟩
  · intro last hlast
    obtain ⟨l, hl, inner, hinner, hleads⟩ := hlast
    have hload : Loads dir inner content := ⟨l, hl, hinner⟩
    exact h.readable last ⟨line, List.mem_cons_self, content, hopens, hleads.tail hload⟩
  · intro l hl inner hinner
    have hlt := card_below_lt hacc ⟨l, hl, hinner⟩
    omega

end Shallow

/-! ### Deciding whether loading ends -/

/-- The content that a line loads. -/
def opened? (dir : Directory) (line : Bytes) : Option Bytes :=
  if Bytes.startsWith line (utf8 ":") && (splitCommand line).1 == utf8 ":load" then
    match dir.find (splitCommand line).2 with
    | .file content => some content
    | _ => none
  else none

theorem opens_iff {dir : Directory} {line content : Bytes} :
    Opens dir line content ↔ opened? dir line = some content := by
  unfold Opens opened?
  by_cases hload : (Bytes.startsWith line (utf8 ":") && (splitCommand line).1 == utf8 ":load") = true
  · rw [if_pos hload]
    simp only [Bool.and_eq_true, beq_iff_eq] at hload
    simp only [hload, true_and]
    cases dir.find (splitCommand line).2 <;> simp
  · rw [if_neg hload]
    simp only [Bool.and_eq_true, beq_iff_eq] at hload
    simp only [reduceCtorEq, iff_false]
    exact fun h => hload ⟨h.1, h.2.1⟩

instance (content : Bytes) : Decidable (Readable content) :=
  inferInstanceAs (Decidable (∀ l ∈ Bytes.splitOnByte 0x0A content, l.length < Session.lineLimit))

/-- Whatever lines load can be read, and there are no more levels than a number. -/
def loadableTo (dir : Directory) : (levels : Nat) → List Bytes → Bool
  | 0, lines => lines.all fun line => (opened? dir line).isNone
  | levels + 1, lines => lines.all fun line =>
    match opened? dir line with
    | none => true
    | some content => decide (Readable content) && loadableTo dir levels (scriptLines content)

section Levels

variable {dir : Directory} {n : Nat} {lines : List Bytes}

theorem loadableTo_zero :
    loadableTo dir 0 lines = true ↔ ∀ line ∈ lines, ∀ content, ¬Opens dir line content := by
  simp only [loadableTo, List.all_eq_true, Option.isNone_iff_eq_none, opens_iff,
    Option.eq_none_iff_forall_ne_some, ne_eq]

theorem loadableTo_succ :
    loadableTo dir (n + 1) lines = true ↔ ∀ line ∈ lines, ∀ content, Opens dir line content →
      Readable content ∧ loadableTo dir n (scriptLines content) = true := by
  simp only [loadableTo, List.all_eq_true, opens_iff]
  refine forall₂_congr fun line _ => ?_
  cases opened? dir line with
  | none => simp
  | some content => simp

theorem loadable_of_loadableTo (h : loadableTo dir n lines = true) : Loadable dir lines := by
  induction n generalizing lines with
  | zero =>
    rw [loadableTo_zero] at h
    refine ⟨fun line hline content hopens => absurd hopens (h line hline content), ?_⟩
    intro content hreads
    obtain ⟨line, hline, first, hopens, -⟩ := hreads
    exact absurd hopens (h line hline first)
  | succ n ih =>
    rw [loadableTo_succ] at h
    have hfile (line) (hline : line ∈ lines) (content) (hopens : Opens dir line content) :=
      ih (h line hline content hopens).2
    constructor
    · intro line hline content hopens
      refine ⟨_, fun inner hload => ?_⟩
      obtain ⟨l, hl, hinner⟩ := hload
      exact (hfile line hline content hopens).ends l hl inner hinner
    · intro content hreads
      obtain ⟨line, hline, first, hopens, hleads⟩ := hreads
      rcases hleads.cases_tail with hsame | ⟨inner, hleads, l, hl, hinner⟩
      · rw [← hsame]
        exact (h line hline first hopens).1
      · exact (hfile line hline first hopens).readable content ⟨l, hl, inner, hinner, hleads⟩

theorem Shallow.loadableTo (h : Shallow dir n lines) : loadableTo dir n lines = true := by
  induction n generalizing lines with
  | zero =>
    rw [loadableTo_zero]
    intro line hline content hopens
    exact Nat.not_lt_zero _ (h.shallow line hline content hopens)
  | succ n ih =>
    rw [loadableTo_succ]
    intro line hline content hopens
    have hone : Shallow dir (n + 1) [line] := h.mono (by simpa using hline)
    exact ⟨hone.readable_of_opens hopens, ih (hone.file hopens)⟩

/-- As many levels as there are files are enough. -/
theorem loadable_iff :
    Loadable dir lines ↔ loadableTo dir (dir.files.length + 1) lines = true :=
  ⟨fun h => h.isShallow.loadableTo, loadable_of_loadableTo⟩

instance : Decidable (Loadable dir lines) := decidable_of_iff _ loadable_iff.symm

end Levels
end RelaxArith.Shell
