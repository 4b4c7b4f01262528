/-
What writing a file changes.

Different paths can lead to one file; they do if they have the same route.  So writing a file is
described by what paths lead to afterwards: to the new content if they lead to that file, and to
what they led to before otherwise.
-/
import RelaxArith.Shell.Directory

namespace RelaxArith.Shell

/-- What a path leads to once the content of files is changed. -/
def Entry.map (f : Bytes → Bytes) : Entry → Entry
  | .file content => .file (f content)
  | .folder => .folder
  | .nothing => .nothing
  | .notFolder => .notFolder

/-- Does a path lead to a file? -/
def Entry.isFile : Entry → Bool
  | .file _ => true
  | _ => false

@[simp]
theorem Entry.isFile_map (f : Bytes → Bytes) (e : Entry) : (e.map f).isFile = e.isFile := by
  cases e <;> rfl

theorem Entry.map_congr {f g : Bytes → Bytes} {e : Entry}
    (h : ∀ content, e = .file content → f content = g content) : e.map f = e.map g := by
  cases e with
  | file content => rw [map, map, h content rfl]
  | folder | nothing | notFolder => rfl

theorem Entry.map_map (f g : Bytes → Bytes) (e : Entry) :
    (e.map f).map g = e.map fun content => g (f content) := by
  cases e <;> rfl

theorem Entry.map_id (e : Entry) : (e.map fun content => content) = e := by
  cases e <;> rfl

namespace Directory

/-- A path leads to a file, the one that another path names. -/
def leadsTo (dir : Directory) (path other : Bytes) : Bool :=
  (dir.find path).isFile && Path.route path == Path.route other

/-! ### Finding what is there -/

theorem entry_of_walk {dir : Directory} {cs : List Bytes} {r : Route} {content : Bytes}
    (h : dir.walk cs r = .file content) : dir.entry (cs.foldl Route.push r) = .file content := by
  induction cs generalizing r with
  | nil => exact h
  | cons c cs ih =>
    rw [walk] at h
    cases hentry : dir.entry r with
    | folder =>
      rw [hentry] at h
      exact ih h
    | file | nothing | notFolder =>
      rw [hentry] at h
      cases h

theorem entry_of_find {dir : Directory} {path content : Bytes} (h : dir.find path = .file content) :
    dir.entry (Path.route path) = .file content := by
  unfold find at h
  by_cases hempty : path.isEmpty = true
  · rw [if_pos hempty] at h
    cases h
  · rw [if_neg hempty] at h
    exact entry_of_walk h

/-- A path that leads to the file that another path names leads to its content. -/
theorem find_of_leadsTo {dir : Directory} {path other content : Bytes}
    (h : dir.leadsTo path other = true) (hother : dir.find other = .file content) :
    dir.find path = .file content := by
  rw [leadsTo, Bool.and_eq_true, beq_iff_eq] at h
  obtain ⟨hfile, hroute⟩ := h
  cases hpath : dir.find path with
  | file content' =>
    have hentry := entry_of_find hpath
    rw [hroute, entry_of_find hother] at hentry
    exact hentry.symm
  | folder | nothing | notFolder =>
    rw [hpath] at hfile
    cases hfile

/-! ### Writing -/

/-- Files keep their names. -/
theorem route_write (path text : Bytes) (f : Bytes × Bytes) :
    Path.route (if Path.route f.1 = Path.route path then (f.1, text) else f).1 = Path.route f.1 := by
  split <;> rfl

theorem entry_write (dir : Directory) (path text : Bytes) (r : Route) :
    (dir.write path text).entry r
      = (dir.entry r).map fun content => if r = Path.route path then text else content := by
  have hfind : (dir.write path text).files.find? (fun f => Path.route f.1 = r)
      = (dir.files.find? fun f => Path.route f.1 = r).map fun f =>
          if Path.route f.1 = Path.route path then (f.1, text) else f := by
    simp only [write, List.find?_map, Function.comp_def, route_write]
  have hbelow : (dir.write path text).files.any (fun f => (Path.route f.1).isBelow r)
      = dir.files.any fun f => (Path.route f.1).isBelow r := by
    simp only [write, List.any_map, Function.comp_def, route_write]
  have hfolders : (dir.write path text).folders = dir.folders := rfl
  unfold entry
  rw [hfind, hbelow, hfolders]
  cases hfile : dir.files.find? fun f => Path.route f.1 = r with
  | none =>
    simp only [Option.map_none]
    split <;> rfl
  | some f =>
    have hroute : Path.route f.1 = r := by simpa using List.find?_some hfile
    simp only [Option.map_some, hroute, Entry.map]
    split <;> rfl

theorem walk_write (dir : Directory) (path text : Bytes) (cs : List Bytes) (r : Route) :
    (dir.write path text).walk cs r = (dir.walk cs r).map fun content =>
      if cs.foldl Route.push r = Path.route path then text else content := by
  induction cs generalizing r with
  | nil => exact entry_write dir path text r
  | cons c cs ih =>
    rw [walk, walk, entry_write]
    cases dir.entry r with
    | folder => exact ih _
    | file | nothing | notFolder => rfl

/-- Writing changes what paths lead to that have the route of the written one. -/
theorem find_write (dir : Directory) (path text other : Bytes) :
    (dir.write path text).find other = (dir.find other).map fun content =>
      if Path.route other = Path.route path then text else content := by
  unfold find
  by_cases hempty : other.isEmpty = true
  · rw [if_pos hempty, if_pos hempty]
    rfl
  · rw [if_neg hempty, if_neg hempty]
    exact walk_write dir path text _ _

end Directory
end RelaxArith.Shell
