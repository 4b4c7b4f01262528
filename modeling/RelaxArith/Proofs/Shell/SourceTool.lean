/-
What the source tool makes of files.

What becomes of a file depends on the file alone: on its content, and on the arguments that lead to
it.  Each of these relaxes what the ones before left behind, and if that fails it leaves the file as
it is.  `entryBehind` says so of every path, without a directory that changes.

One step: dealing with an argument does to the directory what `entryBehind` says of one argument,
and its status tells whether it failed.  A run is the steps one after the other, up to a fault; the
induction is over the arguments, with the directory left open.  As a fault breaks off the run with a
status of its own, the failures before it are not told by the status.
-/
import RelaxArith.Proofs.Host.Operands
import RelaxArith.Proofs.Shell.Directory
import RelaxArith.Shell.SourceTool

namespace RelaxArith.Shell.SourceTool

variable {m : Host.Marker} {writeBack : Bool} {dir : Directory} {file path : Bytes}
  {files : List Bytes}

/-! ### Files on their own -/

/-- What an argument makes of the content of the file it leads to. -/
def relaxedContent (m : Host.Marker) (file content : Bytes) : Bytes :=
  match Host.relaxSource m file content with
  | .ok (text, n) => if n = 0 then content else text
  | .error _ => content

/-- What arguments make of the content of the file that a path names. -/
def contentBehind (m : Host.Marker) (dir : Directory) (files : List Bytes) (path content : Bytes) :
    Bytes :=
  (files.filter fun file => dir.leadsTo file path).foldl
    (fun content file => relaxedContent m file content) content

/-- What a path leads to behind arguments. -/
def entryBehind (m : Host.Marker) (writeBack : Bool) (dir : Directory) (files : List Bytes)
    (path : Bytes) : Entry :=
  if writeBack then (dir.find path).map (contentBehind m dir files path) else dir.find path

theorem contentBehind_cons (content : Bytes) : contentBehind m dir (file :: files) path content
    = contentBehind m dir files path
        (if dir.leadsTo file path then relaxedContent m file content else content) := by
  unfold contentBehind
  by_cases hleads : dir.leadsTo file path = true
  · rw [List.filter_cons, if_pos hleads, List.foldl_cons, if_pos hleads]
  · rw [List.filter_cons, if_neg hleads, if_neg hleads]

theorem contentBehind_nil (content : Bytes) : contentBehind m dir [] path content = content := rfl

theorem entryBehind_nil (path : Bytes) : entryBehind m writeBack dir [] path = dir.find path := by
  unfold entryBehind
  split
  · exact Entry.map_id _
  · rfl

/-- An argument fails: it leads to no file, or to one that cannot be relaxed. -/
inductive Fails (m : Host.Marker) (file : Bytes) : Entry → Prop
  | noFile {e : Entry} (h : e.isFile = false) : Fails m file e
  | source {content : Bytes} {f : Host.SourceFailure}
      (h : Host.relaxSource m file content = .error f) : Fails m file (.file content)

/-- An argument fails by a fault. -/
inductive BreaksOff (m : Host.Marker) (file : Bytes) : Entry → Prop
  | source {content : Bytes} {f : Host.SourceFailure}
      (h : Host.relaxSource m file content = .error f) (hfault : f.error.isFault = true) :
      BreaksOff m file (.file content)

/-! ### One argument -/

/-- What dealing with an argument can come to. -/
inductive Treats (m : Host.Marker) (writeBack : Bool) (dir : Directory) (file : Bytes) : Run → Prop
  | breaksOff (h : BreaksOff m file (dir.find file)) :
      Treats m writeBack dir file ⟨Console.faultStatus, [], dir⟩
  | fails {output : Bytes} (h : Fails m file (dir.find file))
      (hgoesOn : ¬BreaksOff m file (dir.find file)) : Treats m writeBack dir file ⟨1, output, dir⟩
  | succeeds {content text output : Bytes} {n : Nat} (hfile : dir.find file = .file content)
      (h : Host.relaxSource m file content = .ok (text, n)) :
      Treats m writeBack dir file
        ⟨0, output, if writeBack = true ∧ n ≠ 0 then dir.write file text else dir⟩

theorem not_breaksOff_of_isFile {e : Entry} (h : e.isFile = false) : ¬BreaksOff m file e := by
  intro hbreaks
  cases hbreaks
  cases h

theorem treats_process (m : Host.Marker) (writeBack : Bool) (dir : Directory) (file : Bytes) :
    Treats m writeBack dir file (process m writeBack dir file) := by
  have hfails {e : FileError} (h : relaxFile m dir file = .error e) (hfault : e.isFault = false)
      (hentry : Fails m file (dir.find file)) (hgoesOn : ¬BreaksOff m file (dir.find file)) :
      Treats m writeBack dir file (process m writeBack dir file) := by
    simp only [process, h, hfault, if_false, Bool.false_eq_true]
    exact .fails hentry hgoesOn
  cases hfile : dir.find file with
  | folder | nothing | notFolder =>
    have hentry : (dir.find file).isFile = false := by rw [hfile]; rfl
    have hrelax : ∃ e, relaxFile m dir file = .error e ∧ e.isFault = false := by
      simp only [relaxFile, hfile, Except.error.injEq, exists_eq_left']
      rfl
    obtain ⟨e, hrelax, hfault⟩ := hrelax
    exact hfails hrelax hfault (.noFile hentry) (not_breaksOff_of_isFile hentry)
  | file content =>
    cases hrelax : Host.relaxSource m file content with
    | error f =>
      have herror : relaxFile m dir file = .error (.source file f.error) := by
        simp only [relaxFile, hfile, hrelax]
      by_cases hfault : f.error.isFault = true
      · simp only [process, herror, FileError.isFault, hfault, if_true]
        exact .breaksOff (by rw [hfile]; exact .source hrelax hfault)
      · refine hfails herror (eq_false_of_ne_true hfault) (by rw [hfile]; exact .source hrelax) ?_
        rw [hfile]
        rintro ⟨h, hfault'⟩
        rw [hrelax] at h
        cases h
        exact hfault hfault'
    | ok r =>
      obtain ⟨text, n⟩ := r
      have hok : relaxFile m dir file = .ok (text, n) := by simp only [relaxFile, hfile, hrelax]
      have hsucceeds (output : Bytes) : Treats m writeBack dir file ⟨0, output, _⟩ :=
        .succeeds hfile hrelax
      simp only [process, hok]
      cases writeBack with
      | false => simpa using hsucceeds text
      | true => simpa using hsucceeds (report file n)

theorem not_fails_of_relaxSource {content : Bytes} {r : Bytes × Nat}
    (h : Host.relaxSource m file content = .ok r) : ¬Fails m file (.file content) := by
  rintro (hfails | hfails)
  · cases hfails
  · rw [h] at hfails
    cases hfails

theorem BreaksOff.fails {e : Entry} (h : BreaksOff m file e) : Fails m file e := by
  cases h with
  | source h _ => exact .source h

/-- The status of an argument tells whether it failed, and how. -/
theorem Treats.status {r : Run} (h : Treats m writeBack dir file r) :
    r.status = Console.faultStatus ∧ BreaksOff m file (dir.find file) ∨
    ¬BreaksOff m file (dir.find file) ∧ (r.status = 1 ∧ Fails m file (dir.find file) ∨
      r.status = 0 ∧ ¬Fails m file (dir.find file)) := by
  cases h with
  | breaksOff h => exact .inl ⟨rfl, h⟩
  | fails h hgoesOn => exact .inr ⟨hgoesOn, .inl ⟨rfl, h⟩⟩
  | succeeds hfile h =>
    have hfails : ¬Fails m file (dir.find file) := by
      rw [hfile]
      exact not_fails_of_relaxSource h
    exact .inr ⟨fun hbreaks => hfails hbreaks.fails, .inr ⟨rfl, hfails⟩⟩

/-- An argument that would not change the file it leads to changes nothing. -/
theorem entryBehind_of_unchanged
    (h : ∀ content, dir.find file = .file content → relaxedContent m file content = content)
    (path : Bytes) : entryBehind m writeBack dir [file] path = dir.find path := by
  unfold entryBehind
  split
  · calc (dir.find path).map (contentBehind m dir [file] path)
        = (dir.find path).map fun content => content := by
          refine Entry.map_congr fun content hpath => ?_
          rw [contentBehind_cons, contentBehind_nil]
          by_cases hleads : dir.leadsTo file path = true
          · rw [if_pos hleads, h content (Directory.find_of_leadsTo hleads hpath)]
          · rw [if_neg hleads]
      _ = dir.find path := Entry.map_id _
  · rfl

/-- An argument that fails changes nothing. -/
theorem entryBehind_of_fails (h : Fails m file (dir.find file)) (path : Bytes) :
    entryBehind m writeBack dir [file] path = dir.find path := by
  refine entryBehind_of_unchanged (fun content hfile => ?_) path
  rw [hfile] at h
  cases h with
  | noFile h => cases h
  | source h => simp only [relaxedContent, h]

/-- Dealing with an argument does to the directory what is said of it. -/
theorem Treats.find {r : Run} (h : Treats m writeBack dir file r) (path : Bytes) :
    r.directory.find path = entryBehind m writeBack dir [file] path := by
  cases h with
  | breaksOff h => exact (entryBehind_of_fails h.fails path).symm
  | fails h _ => exact (entryBehind_of_fails h path).symm
  | @succeeds content text output n hfile h =>
    by_cases hwrite : writeBack = true ∧ n ≠ 0
    · obtain ⟨rfl, hn⟩ := hwrite
      simp only [hn, ne_eq, not_false_eq_true, and_self, if_true]
      rw [Directory.find_write, entryBehind, if_pos rfl]
      refine Entry.map_congr fun content' hpath => ?_
      rw [contentBehind_cons, contentBehind_nil]
      by_cases hleads : dir.leadsTo file path = true
      · have hroute : Path.route path = Path.route file := by
          rw [Directory.leadsTo, Bool.and_eq_true, beq_iff_eq] at hleads
          exact hleads.2.symm
        rw [Directory.find_of_leadsTo hleads hpath] at hfile
        cases hfile
        simp only [hroute, hleads, relaxedContent, h, hn, if_true, if_false]
      · have hroute : ¬Path.route path = Path.route file := by
          intro hroute
          rw [Directory.leadsTo, hfile, hroute] at hleads
          exact hleads (by simp [Entry.isFile])
        rw [if_neg hroute, if_neg hleads]
    · simp only [hwrite, if_false]
      by_cases hn : n = 0
      · refine (entryBehind_of_unchanged ?_ path).symm
        intro content' hfile'
        rw [hfile] at hfile'
        cases hfile'
        simp only [relaxedContent, h, hn, if_true]
      · have hback : ¬writeBack = true := fun hback => hwrite ⟨hback, hn⟩
        rw [entryBehind, if_neg hback]

theorem Treats.leadsTo {r : Run} (h : Treats m writeBack dir file r) (path other : Bytes) :
    r.directory.leadsTo path other = dir.leadsTo path other := by
  unfold Directory.leadsTo
  rw [h.find, entryBehind]
  split
  · rw [Entry.isFile_map]
  · rfl

theorem Treats.entryBehind_cons {r : Run} (h : Treats m writeBack dir file r) (path : Bytes) :
    entryBehind m writeBack dir (file :: files) path
      = entryBehind m writeBack r.directory files path := by
  have hfiles (content : Bytes) : contentBehind m r.directory files path content
      = contentBehind m dir files path content := by
    simp only [contentBehind, h.leadsTo]
  have hfind := h.find path
  unfold entryBehind at hfind ⊢
  cases writeBack with
  | false => exact hfind.symm
  | true =>
    simp only [if_true] at hfind ⊢
    rw [hfind, Entry.map_map]
    refine Entry.map_congr fun content _ => ?_
    rw [hfiles, contentBehind_cons, contentBehind_cons, contentBehind_nil]

/-! ### Runs -/

/-- How a run ends if the first argument that raises a fault is the one with some number. If there
is no argument with that number, none raises one. -/
structure EndsAt (m : Host.Marker) (writeBack : Bool) (dir : Directory) (files : List Bytes)
    (k : Nat) (r : Run) : Prop where
  le_length : k ≤ files.length
  /-- Arguments before the fault are dealt with, and nothing else happens. -/
  find : ∀ path, r.directory.find path = entryBehind m writeBack dir (files.take k) path
  goesOn : ∀ i < k, ∀ file, files[i]? = some file →
    ¬BreaksOff m file (entryBehind m writeBack dir (files.take i) file)
  breaksOff : k < files.length → r.status = Console.faultStatus ∧
    ∃ file, files[k]? = some file ∧
      BreaksOff m file (entryBehind m writeBack dir (files.take k) file)
  status_le : k = files.length → r.status ≤ 1
  /-- Without a fault, the status tells whether an argument failed. -/
  status_eq_one : k = files.length → (r.status = 1 ↔ ∃ i file, files[i]? = some file ∧
    Fails m file (entryBehind m writeBack dir (files.take i) file))

theorem exists_getElem?_cons {α : Type} {x : α} {xs : List α} {p : Nat → α → Prop} :
    (∃ i y, (x :: xs)[i]? = some y ∧ p i y) ↔ p 0 x ∨ ∃ i y, xs[i]? = some y ∧ p (i + 1) y := by
  constructor
  · rintro ⟨i, y, hy, hp⟩
    cases i with
    | zero =>
      cases hy
      exact .inl hp
    | succ i => exact .inr ⟨i, y, hy, hp⟩
  · rintro (hp | ⟨i, y, hy, hp⟩)
    · exact ⟨0, x, rfl, hp⟩
    · exact ⟨i + 1, y, hy, hp⟩

namespace EndsAt

theorem nil {output : Bytes} : EndsAt m writeBack dir [] 0 ⟨0, output, dir⟩ where
  le_length := Nat.le_refl 0
  find path := (entryBehind_nil path).symm
  goesOn := nofun
  breaksOff := nofun
  status_le _ := Nat.zero_le 1
  status_eq_one _ := iff_of_false Nat.zero_ne_one (by simp)

/-- A fault at the first argument. -/
theorem zero {first : Run} (hfirst : Treats m writeBack dir file first)
    (hstatus : first.status = Console.faultStatus) (hbreaks : BreaksOff m file (dir.find file)) :
    EndsAt m writeBack dir (file :: files) 0 first where
  le_length := Nat.zero_le _
  find path := by
    rw [hfirst.find, entryBehind_of_fails hbreaks.fails, List.take_zero, entryBehind_nil]
  goesOn := nofun
  breaksOff _ := ⟨hstatus, file, rfl, by rwa [List.take_zero, entryBehind_nil]⟩
  status_le := nofun
  status_eq_one := nofun

/-- An argument that raises no fault, in front of others. -/
theorem succ {first rest : Run} {k : Nat} {output : Bytes}
    (hfirst : Treats m writeBack dir file first) (hgoesOn : ¬BreaksOff m file (dir.find file))
    (hstatus : first.status = 1 ∧ Fails m file (dir.find file) ∨
      first.status = 0 ∧ ¬Fails m file (dir.find file))
    (hrest : EndsAt m writeBack first.directory files k rest) :
    EndsAt m writeBack dir (file :: files) (k + 1)
      ⟨max first.status rest.status, output, rest.directory⟩ where
  le_length := Nat.succ_le_succ hrest.le_length
  find path := by
    rw [List.take_succ_cons, hfirst.entryBehind_cons]
    exact hrest.find path
  goesOn i hi file' hfile' := by
    cases i with
    | zero =>
      cases hfile'
      rwa [List.take_zero, entryBehind_nil]
    | succ i =>
      rw [List.take_succ_cons, hfirst.entryBehind_cons]
      exact hrest.goesOn i (Nat.lt_of_succ_lt_succ hi) file' hfile'
  breaksOff hlt := by
    obtain ⟨hfault, file', hfile', hbreaks⟩ := hrest.breaksOff (Nat.lt_of_succ_lt_succ hlt)
    have hle : first.status ≤ Console.faultStatus := by
      rw [Console.faultStatus]
      omega
    refine ⟨?_, file', hfile', by rwa [List.take_succ_cons, hfirst.entryBehind_cons]⟩
    dsimp only
    rw [hfault]
    exact Nat.max_eq_right hle
  status_le heq := by
    have hle := hrest.status_le (Nat.succ.inj heq)
    dsimp only
    omega
  status_eq_one heq := by
    have hle := hrest.status_le (Nat.succ.inj heq)
    have hmax : max first.status rest.status = 1 ↔ first.status = 1 ∨ rest.status = 1 := by omega
    have hone : first.status = 1 ↔ Fails m file (dir.find file) := by
      rcases hstatus with ⟨hone, hfails⟩ | ⟨hzero, hfails⟩
      · exact iff_of_true hone hfails
      · exact iff_of_false (by omega) hfails
    rw [exists_getElem?_cons, hmax, hone, hrest.status_eq_one (Nat.succ.inj heq)]
    simp only [List.take_zero, entryBehind_nil, List.take_succ_cons, hfirst.entryBehind_cons]

end EndsAt

/-- Arguments are dealt with one after the other, up to a fault. -/
theorem endsAt_processAll (m : Host.Marker) (writeBack : Bool) (dir : Directory)
    (files : List Bytes) : ∃ k, EndsAt m writeBack dir files k (processAll m writeBack dir files) := by
  induction files generalizing dir with
  | nil => exact ⟨0, .nil⟩
  | cons file files ih =>
    have hfirst := treats_process m writeBack dir file
    rw [processAll]
    generalize process m writeBack dir file = first at hfirst ⊢
    rcases hfirst.status with ⟨hstatus, hbreaks⟩ | ⟨hgoesOn, hstatus⟩
    · simp only [hstatus, if_true]
      exact ⟨0, .zero hfirst hstatus hbreaks⟩
    · have hne : first.status ≠ Console.faultStatus := by
        rw [Console.faultStatus]
        omega
      obtain ⟨k, hrest⟩ := ih first.directory
      simp only [hne, if_false]
      exact ⟨k + 1, .succ hfirst hgoesOn hstatus hrest⟩

/-- Nothing is written unless that was asked for. -/
theorem directory_processAll (m : Host.Marker) (dir : Directory) (files : List Bytes) :
    (processAll m false dir files).directory = dir := by
  induction files with
  | nil => rfl
  | cons file files ih =>
    have hfirst : (process m false dir file).directory = dir := by
      have htreats := treats_process m false dir file
      generalize process m false dir file = first at htreats ⊢
      cases htreats with
      | breaksOff | fails => rfl
      | succeeds => simp
    rw [processAll]
    split
    · exact hfirst
    · rw [hfirst]
      exact ih

theorem exists_of_relaxedContent_ne {content : Bytes}
    (h : relaxedContent m file content ≠ content) :
    ∃ text n, Host.relaxSource m file content = .ok (text, n) ∧ 0 < n := by
  unfold relaxedContent at h
  cases hrelax : Host.relaxSource m file content with
  | error f =>
    rw [hrelax] at h
    exact absurd rfl h
  | ok r =>
    obtain ⟨text, n⟩ := r
    refine ⟨text, n, rfl, Nat.pos_of_ne_zero fun hn => h ?_⟩
    simp only [hrelax, hn, if_true]

/-- If arguments change a file, one of them leads to it and replaces marker calls in it. -/
theorem exists_of_contentBehind_ne {content : Bytes}
    (h : contentBehind m dir files path content ≠ content) :
    ∃ i file text n, files[i]? = some file ∧ dir.leadsTo file path = true ∧
      Host.relaxSource m file (contentBehind m dir (files.take i) path content) = .ok (text, n) ∧
      0 < n := by
  induction files generalizing content with
  | nil => exact absurd rfl h
  | cons file files ih =>
    rw [contentBehind_cons] at h
    by_cases hsame : (if dir.leadsTo file path then relaxedContent m file content else content)
        = content
    · rw [hsame] at h
      obtain ⟨i, file', text, n, hfile', hleads, hrelax, hn⟩ := ih h
      refine ⟨i + 1, file', text, n, hfile', hleads, ?_, hn⟩
      rw [List.take_succ_cons, contentBehind_cons, hsame]
      exact hrelax
    · have hleads : dir.leadsTo file path = true := by
        cases hleads : dir.leadsTo file path with
        | true => rfl
        | false =>
          rw [hleads] at hsame
          exact absurd rfl hsame
      rw [if_pos hleads] at hsame
      obtain ⟨text, n, hrelax, hn⟩ := exists_of_relaxedContent_ne hsame
      exact ⟨0, file, text, n, rfl, hleads, hrelax, hn⟩

/-- A file that a run changes is one in which an argument replaces marker calls. -/
theorem EndsAt.relaxed_of_changed {k : Nat} {r : Run} {content content' : Bytes}
    (h : EndsAt m writeBack dir files k r) (hfile : dir.find path = .file content)
    (hfile' : r.directory.find path = .file content') (hne : content' ≠ content) :
    writeBack = true ∧ ∃ i file text n, files[i]? = some file ∧ dir.leadsTo file path = true ∧
      Host.relaxSource m file (contentBehind m dir (files.take i) path content) = .ok (text, n) ∧
      0 < n := by
  rw [h.find, entryBehind, hfile] at hfile'
  cases hback : writeBack with
  | false =>
    rw [hback, if_neg Bool.false_ne_true] at hfile'
    cases hfile'
    exact absurd rfl hne
  | true =>
    rw [hback, if_pos rfl] at hfile'
    cases hfile'
    obtain ⟨i, file, text, n, hget, hleads, hrelax, hn⟩ := exists_of_contentBehind_ne hne
    have hi : i < k := by
      by_cases hi : i < k
      · exact hi
      · rw [List.getElem?_take, if_neg hi] at hget
        cases hget
    rw [List.getElem?_take, if_pos hi] at hget
    rw [List.take_take, Nat.min_eq_left (Nat.le_of_lt hi)] at hrelax
    exact ⟨rfl, i, file, text, n, hget, hleads, hrelax, hn⟩

/-- A source that is no program, or one with marker calls of a wrong number of operands. -/
theorem fails_of_miscalls {content : Bytes}
    (h : Host.Program.parse? file content = none ∨
      ∃ p, Host.Program.parse? file content = some p ∧ p.resolve.file.Miscalls m) :
    Fails m file (.file content) ∧ relaxedContent m file content = content := by
  have herror : ∃ f, Host.relaxSource m file content = .error f := by
    rcases h with hparse | ⟨p, hparse, hmiscalls⟩
    · exact ⟨_, Host.relaxSource_of_unparsable hparse⟩
    · exact Host.relaxSource_of_miscalls hparse hmiscalls
  obtain ⟨f, herror⟩ := herror
  exact ⟨.source herror, by simp only [relaxedContent, herror]⟩

/-- **Files are dealt with one by one, and no other file changes.**  After a run, each path leads to
what it led to before, or, if files are written back, to the content that the arguments up to a
fault make of it, each on its own.  A file that changed is one in which marker calls were replaced.
Without a fault the status tells whether an argument failed; a fault, with a status of its own,
leaves open what was before it.  A source that is no program, or one in which the marker is called
with no operand or several, fails and stays as it is. -/
theorem files_stay_unless_relaxed {args : List Bytes} {c : CommandLine} (dir : Directory)
    (hargs : CommandLine.parse flags args = .ok c) (hfiles : c.rest ≠ []) :
    (c.switch "w" false = false → (run args dir).directory = dir) ∧
    (∃ k, EndsAt (markerOf c) (c.switch "w" false) dir c.rest k (run args dir)) ∧
    (∀ path content content', dir.find path = .file content →
      (run args dir).directory.find path = .file content' → content' ≠ content →
      c.switch "w" false = true ∧ ∃ i file text n, c.rest[i]? = some file ∧
        dir.leadsTo file path = true ∧
        Host.relaxSource (markerOf c) file
          (contentBehind (markerOf c) dir (c.rest.take i) path content) = .ok (text, n) ∧ 0 < n) ∧
    ∀ file content,
      (Host.Program.parse? file content = none ∨
        ∃ p, Host.Program.parse? file content = some p ∧ p.resolve.file.Miscalls (markerOf c)) →
      Fails (markerOf c) file (.file content) ∧
        relaxedContent (markerOf c) file content = content := by
  have hrun : run args dir
      = processAll (markerOf c) (c.switch "w" false) dir c.rest := by
    simp only [run, hargs, List.isEmpty_iff, hfiles, if_false]
  obtain ⟨k, hends⟩ := endsAt_processAll (markerOf c) (c.switch "w" false) dir c.rest
  rw [hrun]
  refine ⟨?_, ⟨k, hends⟩, ?_, ?_⟩
  · intro hback
    rw [hback]
    exact directory_processAll _ _ _
  · intro path content content' hfile hfile' hne
    exact hends.relaxed_of_changed hfile hfile' hne
  · intro file content hbad
    exact fails_of_miscalls hbad

/-- A source with a difference to be relaxed. -/
def differenceSource : Bytes := utf8 "package p\n\nvar x = fastmath.Relaxed(a - b)\n"

/-- The file with that source, named in two ways below. -/
def differenceDirectory : Directory := { files := [(utf8 "g.go", differenceSource)] }

theorem files_stay_unless_relaxed_differenceDirectory :
    let args := [utf8 "-w", utf8 "g.go", utf8 "missing.go", utf8 "./g.go"]
    ∃ c, CommandLine.parse flags args = .ok c ∧ c.rest ≠ [] ∧ c.switch "w" false = true ∧
      (run args differenceDirectory).status = 1 ∧
      (run args differenceDirectory).directory.find (utf8 "g.go")
        = .file (utf8 "package p\n\nvar x = fastmath.Sum(a, -b)\n") ∧
      ∃ i file text n, c.rest[i]? = some file ∧
        differenceDirectory.leadsTo file (utf8 "g.go") = true ∧
        Host.relaxSource (markerOf c) file (contentBehind (markerOf c) differenceDirectory
          (c.rest.take i) (utf8 "g.go") differenceSource) = .ok (text, n) ∧ 0 < n := by
  intro args
  let c : CommandLine :=
    ⟨[(utf8 "w", .switch true)], [utf8 "g.go", utf8 "missing.go", utf8 "./g.go"]⟩
  have hargs : CommandLine.parse flags args = .ok c := by rfl
  have hfiles : c.rest ≠ [] := List.cons_ne_nil _ _
  have hbefore : differenceDirectory.find (utf8 "g.go") = .file differenceSource := by
    decide +kernel
  have hafter : (run args differenceDirectory).directory.find (utf8 "g.go")
      = .file (utf8 "package p\n\nvar x = fastmath.Sum(a, -b)\n") := by decide +kernel
  obtain ⟨-, -, hchanged, -⟩ := files_stay_unless_relaxed differenceDirectory hargs hfiles
  obtain ⟨hback, hsource⟩ := hchanged (utf8 "g.go") _ _ hbefore hafter (by decide +kernel)
  exact ⟨c, hargs, hfiles, hback, by decide +kernel, hafter, hsource⟩

/-- A file whose lines cannot be joined where an import is deleted, as they are counted from a mark
on. -/
def renumberedDirectory : Directory :=
  { files := [(utf8 "g.go", utf8 "package p\n\n//line x.go:90\nimport (\n\t\"fastmath\"\n\n\n" ++
      utf8 "// z\n\t\"z\"\n)\n\nvar x = fastmath.Relaxed(a)\n")] }

/-- Behind an argument that failed, a fault gives the run another status than that of failures. -/
theorem status_of_fault_behind_failure :
    let args := [utf8 "missing.go", utf8 "g.go"]
    ∃ c, CommandLine.parse flags args = .ok c ∧ c.rest = args ∧
      ¬((run args renumberedDirectory).status = 1 ↔ ∃ i file, args[i]? = some file ∧
        Fails (markerOf c) file (entryBehind (markerOf c) (c.switch "w" false) renumberedDirectory
          (args.take i) file)) := by
  intro args
  let c : CommandLine := ⟨[], args⟩
  have hargs : CommandLine.parse flags args = .ok c := by rfl
  have hstatus : (run args renumberedDirectory).status = 2 := by decide +kernel
  have hmissing : Fails (markerOf c) (utf8 "missing.go") (entryBehind (markerOf c)
      (c.switch "w" false) renumberedDirectory [] (utf8 "missing.go")) := by
    rw [entryBehind_nil]
    exact .noFile (by decide +kernel)
  refine ⟨c, hargs, rfl, fun hiff => ?_⟩
  have hone := hiff.mpr ⟨0, utf8 "missing.go", rfl, hmissing⟩
  rw [hstatus] at hone
  cases hone

end RelaxArith.Shell.SourceTool
