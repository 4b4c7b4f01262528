/-
Which imports a file has after its marker calls are expanded.

Expanding leaves imports alone: an import has no calls.  Then the imports of one path that have no
name of their own may be deleted, and with them declarations that have nothing else.  Whatever this
does to lines and comments, the tree that comes out is told by two filters, one for the
specifications of a declaration and one for declarations.

Which path is deleted depends on three things that need not agree: the name under which an import
is known, the path that is looked up to see whether it is used, and the imports of that path that
have no name.  They agree if all imports that are known as the marker's package have one path, and
that path is not imported under another name as well.  Then an import of the package without a name
of its own stays exactly if something is still selected from it.  One with a name always stays.
-/
import RelaxArith.Host.Source
import RelaxArith.Proofs.Host.Expansion

namespace RelaxArith.Host

/-! ### Declarations of imports -/

/-- Is a form that of a declaration of imports? -/
def Form.isImport : Form → Bool
  | .group keyword _ _ _ _ => keyword == utf8 "import"
  | _ => false

namespace Node

/-- Is a node a declaration of imports? -/
def isImport : Node → Bool
  | other form _ => form.isImport
  | _ => false

/-- Is a node a declaration? Specifications of imports consist of a name, which may be missing, and
a path. -/
def isDeclaration : Node → Bool
  | other form parts => !form.isImport || parts.all fun s => (ImportSpec.ofNode? s).isSome
  | _ => false

/-- Is a node a file: a name and declarations? -/
def isFile : Node → Bool
  | other (.file _) (_ :: decls) => decls.all isDeclaration
  | _ => false

/-- A file without its declarations of imports. -/
def besideImports (file : Node) : Node :=
  file.withDeclarations (file.declarations.filter fun d => !d.isImport)

theorem importNodes_other (form : Form) (parts : List Node) :
    (other form parts).importNodes = if form.isImport = true then parts else [] := by
  cases form with
  | group => rfl
  | _ => simp [importNodes, Form.isImport]

theorem file_cases (file : Node) :
    (∃ p name decls, file = other (.file p) (name :: decls)) ∨
    file.declarations = [] ∧ ∀ decls, file.withDeclarations decls = file := by
  rw [declarations.eq_def]
  split
  · exact .inl ⟨_, _, _, rfl⟩
  · rename_i hfile
    refine .inr ⟨rfl, ?_⟩
    intro decls
    rw [withDeclarations.eq_def]
    split
    · exact absurd rfl (hfile _ _ _)
    · rfl

end Node

/-! ### Deleting as filtering -/

namespace Deletion

/-- Is a specification left when the imports of a path are deleted? -/
def stays (path : Bytes) (s : Node) : Bool := ImportSpec.ofNode? s != some ⟨none, path⟩

/-- What is left of a declaration when the imports of a path are deleted. -/
def rest? (path : Bytes) : Node → Option Node
  | .other (.group keyword pos lparen rparen doc) specs =>
    if keyword == utf8 "import" then
      if (specs.filter (stays path)).isEmpty && !specs.isEmpty then none
      else some (.other (.group keyword pos lparen rparen doc) (specs.filter (stays path)))
    else some (.other (.group keyword pos lparen rparen doc) specs)
  | decl => some decl

theorem fromSpecs_eq {path : Bytes} {keyword rparen : Nat} {kept specs specs' : List Node}
    {d d' : Deletion} (h : fromSpecs path keyword rparen kept specs d = .ok (specs', d')) :
    specs' = kept.reverse ++ specs.filter (stays path) := by
  induction specs generalizing kept d with
  | nil =>
    cases h
    simp
  | cons s rest ih =>
    rw [fromSpecs] at h
    by_cases hs : ImportSpec.ofNode? s = some ⟨none, path⟩
    · rw [if_pos hs] at h
      have hgone : ¬ stays path s = true := by simp [stays, hs]
      -- tidying up may fail, but does not touch the specifications
      rw [List.filter_cons_of_neg hgone]
      dsimp only at h
      split at h
      · obtain ⟨d₁, _, hrest⟩ := bind_eq_ok.mp h
        exact ih hrest
      · exact ih h
    · rw [if_neg hs] at h
      have hstays : stays path s = true := by simp [stays, hs]
      rw [ih h, List.filter_cons_of_pos hstays, List.reverse_cons, List.append_assoc,
        List.singleton_append]

theorem fromDeclarations_eq {path : Bytes} {decls decls' : List Node} {d d' : Deletion}
    (h : fromDeclarations path decls d = .ok (decls', d')) :
    decls' = decls.filterMap (rest? path) := by
  induction decls generalizing decls' d d' with
  | nil =>
    cases h
    rfl
  | cons decl rest ih =>
    -- a declaration that stays as a whole
    have hwhole : rest? path decl = some decl →
        (do let r ← fromDeclarations path rest d
            pure (decl :: r.1, r.2)) = .ok (decls', d') →
        decls' = (decl :: rest).filterMap (rest? path) := by
      intro hdecl h
      obtain ⟨r, hrest, heq⟩ := bind_eq_ok.mp h
      cases heq
      rw [List.filterMap_cons_some hdecl, ih hrest]
    rw [fromDeclarations.eq_def] at h
    dsimp only at h
    split at h
    · rename_i keyword pos lparen rparen doc specs
      by_cases himport : (keyword == utf8 "import") = true
      · rw [if_pos himport] at h
        obtain ⟨⟨specs', d₁⟩, hspecs, hmore⟩ := bind_eq_ok.mp h
        obtain ⟨⟨rest', d₂⟩, hrest, hdone⟩ := bind_eq_ok.mp hmore
        obtain rfl : specs' = specs.filter (stays path) := fromSpecs_eq hspecs
        by_cases hempty : ((specs.filter (stays path)).isEmpty && !specs.isEmpty) = true
        · rw [if_pos hempty] at hdone
          cases hdone
          rw [List.filterMap_cons_none, ih hrest]
          rw [rest?, if_pos himport, if_pos hempty]
        · rw [if_neg hempty] at hdone
          cases hdone
          rw [List.filterMap_cons_some, ih hrest]
          rw [rest?, if_pos himport, if_neg hempty]
      · rw [if_neg himport] at h
        exact hwhole (by rw [rest?, if_neg himport]) h
    · rename_i hother
      refine hwhole ?_ h
      rw [rest?.eq_def]
      split
      · exact absurd rfl (hother _ _ _ _ _ _)
      · rfl

/-- A declaration of something else stays, one of imports loses some, or disappears if it loses
all. -/
theorem rest?_cases (path : Bytes) (decl : Node) :
    decl.isImport = false ∧ rest? path decl = some decl ∨
    ∃ form specs, decl = .other form specs ∧ form.isImport = true ∧
      (rest? path decl = some (.other form (specs.filter (stays path))) ∨
        rest? path decl = none ∧ specs.filter (stays path) = []) := by
  rw [rest?.eq_def]
  split
  · rename_i keyword pos lparen rparen doc specs
    by_cases himport : (keyword == utf8 "import") = true
    · refine .inr ⟨_, specs, rfl, himport, ?_⟩
      rw [if_pos himport]
      by_cases hempty : ((specs.filter (stays path)).isEmpty && !specs.isEmpty) = true
      · rw [if_pos hempty]
        rw [Bool.and_eq_true, List.isEmpty_iff] at hempty
        exact .inr ⟨rfl, hempty.1⟩
      · rw [if_neg hempty]
        exact .inl rfl
    · rw [if_neg himport]
      exact .inl ⟨Bool.eq_false_iff.mpr himport, rfl⟩
  · rename_i hother
    refine .inl ⟨?_, rfl⟩
    cases decl with
    | other form parts =>
      cases form with
      | group => exact absurd rfl (hother _ _ _ _ _ _)
      | _ => rfl
    | _ => rfl

end Deletion

namespace Node

open Deletion

/-- A file without the imports of a path that have no name. -/
def withoutImports (path : Bytes) (file : Node) : Node :=
  file.withDeclarations (file.declarations.filterMap (rest? path))

theorem declarations_withoutImports (path : Bytes) (file : Node) :
    (file.withoutImports path).declarations = file.declarations.filterMap (rest? path) := by
  rcases file.file_cases with ⟨p, name, decls, rfl⟩ | ⟨hdecls, hwith⟩
  · rfl
  · rw [withoutImports, hwith, hdecls]
    rfl

theorem filter_isImport_rest? (path : Bytes) (decls : List Node) :
    (decls.filterMap (rest? path)).filter (fun d => !d.isImport)
      = decls.filter fun d => !d.isImport := by
  induction decls with
  | nil => rfl
  | cons decl decls ih =>
    rcases rest?_cases path decl with
      ⟨himport, hrest⟩ | ⟨form, specs, rfl, himport, hrest | ⟨hrest, _⟩⟩
    · rw [List.filterMap_cons_some hrest, List.filter_cons_of_pos (by simp [himport]),
        List.filter_cons_of_pos (by simp [himport]), ih]
    · rw [List.filterMap_cons_some hrest, List.filter_cons_of_neg (by simp [isImport, himport]),
        List.filter_cons_of_neg (by simp [isImport, himport]), ih]
    · rw [List.filterMap_cons_none hrest, List.filter_cons_of_neg (by simp [isImport, himport]), ih]

/-- Outside the declarations of imports nothing changes. -/
theorem besideImports_withoutImports (path : Bytes) (file : Node) :
    (file.withoutImports path).besideImports = file.besideImports := by
  rw [besideImports, declarations_withoutImports, filter_isImport_rest?]
  rcases file.file_cases with ⟨p, name, decls, rfl⟩ | ⟨_, hwith⟩
  · rfl
  · rw [withoutImports, hwith]
    rfl

theorem flatMap_importNodes_rest? (path : Bytes) (decls : List Node) :
    (decls.filterMap (rest? path)).flatMap importNodes
      = (decls.flatMap importNodes).filter (stays path) := by
  induction decls with
  | nil => rfl
  | cons decl decls ih =>
    rw [List.flatMap_cons, List.filter_append, ← ih]
    rcases rest?_cases path decl with
      ⟨himport, hrest⟩ | ⟨form, specs, rfl, himport, hrest | ⟨hrest, hnone⟩⟩
    · have hnodes : decl.importNodes = [] := by
        cases decl with
        | other form parts =>
          rw [importNodes_other]
          exact if_neg (Bool.eq_false_iff.mp himport)
        | _ => rfl
      rw [List.filterMap_cons_some hrest, List.flatMap_cons, hnodes, List.filter_nil]
    · rw [List.filterMap_cons_some hrest, List.flatMap_cons, importNodes_other, importNodes_other,
        if_pos himport, if_pos himport]
    · rw [List.filterMap_cons_none hrest, importNodes_other, if_pos himport, hnone, List.nil_append]

/-- Just the imports of that path without a name are gone. -/
theorem imports_withoutImports (path : Bytes) (file : Node) :
    (file.withoutImports path).imports = file.imports.filter fun s => s != ⟨none, path⟩ := by
  rw [imports, declarations_withoutImports, flatMap_importNodes_rest?, imports,
    List.filterMap_filter, List.filter_filterMap]
  congr 1
  funext s
  cases hs : ImportSpec.ofNode? s with
  | none => simp [stays, hs]
  | some i => by_cases hi : i = ⟨none, path⟩ <;> simp [stays, hs, hi, Option.filter_some]

/-- Nothing is selected in the specification of an import. -/
theorem selectsFrom_of_ofNode? {s : Node} {i : ImportSpec} (h : ImportSpec.ofNode? s = some i)
    (name : Bytes) : s.selectsFrom name = false := by
  rw [ImportSpec.ofNode?.eq_def] at h
  split at h
  · rfl
  · rfl
  · cases h

theorem anySelectsFrom_stays (path name : Bytes) (specs : List Node) :
    anySelectsFrom name (specs.filter (stays path)) = anySelectsFrom name specs := by
  induction specs with
  | nil => rfl
  | cons s specs ih =>
    by_cases hs : stays path s = true
    · rw [List.filter_cons_of_pos hs, anySelectsFrom, anySelectsFrom, ih]
    · have hspec : ImportSpec.ofNode? s = some ⟨none, path⟩ := by simpa [stays] using hs
      rw [List.filter_cons_of_neg hs, ih, anySelectsFrom, selectsFrom_of_ofNode? hspec,
        Bool.false_or]

theorem anySelectsFrom_rest? (path name : Bytes) (decls : List Node) :
    anySelectsFrom name (decls.filterMap (rest? path)) = anySelectsFrom name decls := by
  induction decls with
  | nil => rfl
  | cons decl decls ih =>
    rcases rest?_cases path decl with
      ⟨_, hrest⟩ | ⟨form, specs, rfl, _, hrest | ⟨hrest, hnone⟩⟩
    · rw [List.filterMap_cons_some hrest, anySelectsFrom, anySelectsFrom, ih]
    · rw [List.filterMap_cons_some hrest, anySelectsFrom, anySelectsFrom, ih, selectsFrom,
        selectsFrom, anySelectsFrom_stays]
    · have hspecs := anySelectsFrom_stays path name specs
      rw [hnone] at hspecs
      rw [List.filterMap_cons_none hrest, ih, anySelectsFrom, selectsFrom, ← hspecs]
      rfl

/-- Deleting imports leaves all selections. -/
theorem selectsFrom_withoutImports (path name : Bytes) (file : Node) :
    (file.withoutImports path).selectsFrom name = file.selectsFrom name := by
  rcases file.file_cases with ⟨p, package, decls, rfl⟩ | ⟨_, hwith⟩
  · change (other (.file p) (package :: decls.filterMap (rest? path))).selectsFrom name = _
    rw [selectsFrom, selectsFrom, anySelectsFrom, anySelectsFrom, anySelectsFrom_rest?]
  · rw [withoutImports, hwith]

end Node

/-- Deleting an import changes the tree by leaving things out. -/
theorem Program.file_of_deleteImport {p p' : Program} {path : Bytes}
    (h : p.deleteImport path = .ok p') : p'.file = p.file.withoutImports path := by
  rw [deleteImport] at h
  obtain ⟨⟨decls, d⟩, hdecls, heq⟩ := bind_eq_ok.mp h
  cases heq
  rw [Node.withoutImports, ← Deletion.fromDeclarations_eq hdecls]

/-! ### Expanding leaves imports alone -/

section Expanding

variable {m : Marker} {x y : Node} {k : Nat}

/-- The specification of an import calls nothing. -/
theorem Node.calledNames_of_ofNode? {s : Node} {i : ImportSpec}
    (h : ImportSpec.ofNode? s = some i) : s.calledNames = [] := by
  rw [ImportSpec.ofNode?.eq_def] at h
  split at h
  · rfl
  · rfl
  · cases h

theorem importNodes_of_expands (hx : x.isDeclaration = true) (h : Expands m x y k) :
    y.importNodes = x.importNodes := by
  cases x with
  | other form parts =>
    by_cases himport : form.isImport = true
    · have hspecs : m.name ∉ Node.calledNamesAll parts := by
        refine Node.not_mem_calledNamesAll ?_
        intro s hs
        simp only [Node.isDeclaration, himport, Bool.not_true, Bool.false_or,
          List.all_eq_true] at hx
        obtain ⟨i, hi⟩ := Option.isSome_iff_exists.mp (hx s hs)
        rw [Node.calledNames_of_ofNode? hi]
        exact List.not_mem_nil
      rw [(h.eq_of_not_mem hspecs).1]
    · cases h with
      | other _ _ =>
        rw [Node.importNodes_other, Node.importNodes_other, if_neg himport, if_neg himport]
  | _ => cases hx

theorem flatMap_importNodes_of_each {xs ys : List Node} (hxs : ∀ x ∈ xs, x.isDeclaration = true)
    (h : Each (Expands m) xs ys k) : ys.flatMap Node.importNodes = xs.flatMap Node.importNodes := by
  induction h with
  | nil => rfl
  | cons hx _ ih =>
    rw [List.forall_mem_cons] at hxs
    rw [List.flatMap_cons, List.flatMap_cons, importNodes_of_expands hxs.1 hx, ih hxs.2]

/-- Expanding leaves the imports of a file as they are. -/
theorem imports_of_expands (hx : x.isFile = true) (h : Expands m x y k) :
    y.imports = x.imports := by
  rw [Node.isFile.eq_def] at hx
  split at hx
  · rw [List.all_eq_true] at hx
    cases h with
    | other hparts _ =>
      cases hparts with
      | cons _ hdecls =>
        rw [Node.imports, Node.imports, Node.declarations, Node.declarations,
          flatMap_importNodes_of_each hx hdecls]
  · cases hx

end Expanding

/-! ### Imports of the marker's package -/

/-- An import is used if something is selected from the name under which its path is known. -/
theorem Node.usesImport_eq {file : Node} {s : ImportSpec} {name : Bytes} (hs : s ∈ file.imports)
    (hsame : ∀ t ∈ file.imports, t.path = s.path → t.localName = name)
    (hblank : name ≠ utf8 "_") (hdot : name ≠ utf8 ".") :
    file.usesImport s.path = file.selectsFrom name := by
  rw [usesImport]
  cases hfind : file.imports.find? fun t => t.path == s.path with
  | none =>
    have hnone := List.find?_eq_none.mp hfind s hs
    exact absurd (beq_self_eq_true s.path) hnone
  | some t =>
    have hpath := List.find?_some hfind
    have hname := hsame t (List.mem_of_find?_eq_some hfind) (eq_of_beq hpath)
    have hplain : ¬ (t.name == some (utf8 "_") || t.name == some (utf8 ".")) = true := by
      rw [Bool.or_eq_true, beq_iff_eq, beq_iff_eq]
      rintro (htname | htname)
      · exact hblank (by rw [← hname, ImportSpec.localName, htname, Option.getD_some])
      · exact hdot (by rw [← hname, ImportSpec.localName, htname, Option.getD_some])
    simp only [if_neg hplain, hname]

theorem Program.imports_of_deleteUnusedImport {p p' : Program} {marker package function : Bytes}
    (hmarker : Bytes.splitLast? 0x2E marker = some (package, function))
    (hblank : package ≠ utf8 "_") (hdot : package ≠ utf8 ".")
    (hpaths : ∀ s ∈ p.file.imports, s.localName = package →
      ∀ t ∈ p.file.imports, t.localName = package ↔ t.path = s.path)
    (h : p.deleteUnusedImport marker = .ok p') :
    p'.file.imports = p.file.imports.filter fun s =>
      s.localName != package || s.name.isSome || p'.file.selectsFrom package := by
  have huses : ∀ s ∈ p.file.imports, s.localName = package →
      p.file.usesImport s.path = p.file.selectsFrom package := by
    intro s hs hname
    refine Node.usesImport_eq hs ?_ hblank hdot
    intro t ht
    exact (hpaths s hs hname t ht).mpr
  rw [deleteUnusedImport, hmarker] at h
  dsimp only at h
  cases hfind : p.file.imports.find? fun s =>
      s.localName == package && !p.file.usesImport s.path with
  | none =>
    rw [hfind] at h
    cases h
    symm
    rw [List.filter_eq_self]
    intro s hs
    have hnone := List.find?_eq_none.mp hfind s hs
    by_cases hname : s.localName = package
    · rw [huses s hs hname] at hnone
      have hselects : p.file.selectsFrom package = true := by simpa [hname] using hnone
      simp [hselects]
    · simp [hname]
  | some s =>
    rw [hfind] at h
    have hfile := Program.file_of_deleteImport h
    have hs := List.mem_of_find?_eq_some hfind
    have hfound := List.find?_some hfind
    rw [Bool.and_eq_true, beq_iff_eq, Bool.not_eq_true'] at hfound
    obtain ⟨hname, hunused⟩ := hfound
    rw [huses s hs hname] at hunused
    rw [hfile, Node.imports_withoutImports, Node.selectsFrom_withoutImports, hunused]
    apply List.filter_congr
    intro t ht
    have hsame := hpaths s hs hname t ht
    rw [Bool.or_false, Bool.eq_iff_iff, Bool.or_eq_true, bne_iff_ne, bne_iff_ne]
    constructor
    · intro hne
      by_cases hlocal : t.localName = package
      · refine .inr (Option.isSome_iff_ne_none.mpr ?_)
        intro hnone
        obtain ⟨name, path⟩ := t
        cases hnone
        exact hne (congrArg (ImportSpec.mk none) (hsame.mp hlocal))
      · exact .inl hlocal
    · rintro hstays rfl
      exact hstays.elim (fun hlocal => hlocal (hsame.mpr rfl)) nofun

namespace Program

/-- A program whose marker calls are expanded is one with an expanded tree, from which an import
may be deleted if there were any calls. -/
theorem expands_of_expand {m : Marker} {p p' : Program} {n : Nat}
    (h : p.expand m = .ok (p', n)) :
    ∃ file, Expands m p.file file n ∧
      (n = 0 ∧ p' = { p with file := file } ∨
        0 < n ∧ deleteUnusedImport { p with file := file } m.name = .ok p') := by
  rw [expand] at h
  cases hfile : m.expand 0 p.file with
  | error s =>
    rw [hfile] at h
    dsimp only at h
    split at h
    · cases h
    · split at h <;> cases h
  | ok r =>
    obtain ⟨file, j⟩ := r
    obtain ⟨k, hk, hexpands⟩ := Marker.expands_of_expand hfile
    rw [Nat.zero_add] at hk
    subst hk
    rw [hfile] at h
    dsimp only at h
    cases htidy : tidy m j { p with file := file } with
    | error f =>
      rw [htidy] at h
      cases h
    | ok q =>
      rw [htidy] at h
      cases h
      rw [tidy] at htidy
      by_cases hn : n = 0
      · rw [if_pos hn] at htidy
        exact ⟨file, hexpands, .inl ⟨hn, (Except.ok.inj htidy).symm⟩⟩
      · rw [if_neg hn] at htidy
        exact ⟨file, hexpands, .inr ⟨Nat.pos_of_ne_zero hn, htidy⟩⟩

/-- Let the marker's package be called neither `_` nor `.`, and suppose that the imports known under
its name all have one path, and that nothing else imports this path: neither do two of them lead to
different paths, such as `a/f` and `b/f`, nor is the path imported under another name as well.
Then, if marker calls were replaced, those of them that are given no name of their own stay exactly
if something is selected from the package afterwards.  Those that are given one always stay, and so
do all other imports. -/
theorem imports_expand {m : Marker} {p p' : Program} {n : Nat} {package function : Bytes}
    (hfile : p.file.isFile = true)
    (hmarker : Bytes.splitLast? 0x2E m.name = some (package, function))
    (hblank : package ≠ utf8 "_") (hdot : package ≠ utf8 ".")
    (hpaths : ∀ s ∈ p.file.imports, s.localName = package →
      ∀ t ∈ p.file.imports, t.localName = package ↔ t.path = s.path)
    (h : p.expand m = .ok (p', n)) (hn : 0 < n) :
    p'.file.imports = p.file.imports.filter fun s =>
      s.localName != package || s.name.isSome || p'.file.selectsFrom package := by
  obtain ⟨file, hexpands, ⟨hzero, _⟩ | ⟨_, hdelete⟩⟩ := expands_of_expand h
  · exact absurd hzero (Nat.ne_of_gt hn)
  · have himports := imports_of_expands hfile hexpands
    rw [← himports] at hpaths ⊢
    exact imports_of_deleteUnusedImport hmarker hblank hdot hpaths hdelete

/-- The program of a source, with an empty one in the place of a source that cannot be read. -/
def ofSource (source : Bytes) : Program := ((parse? [] source).getD default).resolve

/-- One of two imports becomes superfluous. -/
def superfluousExample : Program :=
  ofSource (utf8 "package p\n\nimport (\n\t\"fastmath\"\n\t\"math\"\n)\n\n" ++
    utf8 "var z = math.Sqrt(fastmath.Relaxed(a / b))\n")

theorem imports_expand_superfluousExample :
    ∃ p', superfluousExample.expand .standard = .ok (p', 1) ∧
      p'.file.selectsFrom (utf8 "fastmath") = false ∧ p'.file.imports = [⟨none, utf8 "math"⟩] := by
  have hrun : (superfluousExample.expand .standard).toOption.map
      (fun r => (r.2, r.1.file.selectsFrom (utf8 "fastmath"))) = some (1, false) := by
    decide +kernel
  cases h : superfluousExample.expand .standard with
  | error f =>
    rw [h] at hrun
    cases hrun
  | ok r =>
    obtain ⟨p', n⟩ := r
    rw [h] at hrun
    obtain ⟨rfl, hselects⟩ := Prod.mk.inj (Option.some.inj hrun)
    have hmarker : Bytes.splitLast? 0x2E Marker.standard.name
        = some (utf8 "fastmath", utf8 "Relaxed") := by
      decide +kernel
    have himports := imports_expand (by decide +kernel) hmarker (by decide +kernel)
      (by decide +kernel) (by decide +kernel) h Nat.one_pos
    dsimp only at hselects
    rw [hselects] at himports
    refine ⟨p', rfl, hselects, himports.trans ?_⟩
    decide +kernel

/-- An import with a name of its own becomes superfluous. -/
def renamedExample : Program :=
  ofSource (utf8 "package p\n\nimport fm \"example.com/numeric/fastmath\"\n\n" ++
    utf8 "var z = fm.Relaxed(a / b)\n")

/-- A superfluous import with a name stays. -/
theorem superfluous_renamed_import :
    (renamedExample.expand (Marker.ofNames (utf8 "fm.Relaxed") [] [] true)).toOption.map
        (fun r => (r.2, r.1.file.selectsFrom (utf8 "fm"), r.1.file.imports))
      = some (1, false, [⟨some (utf8 "fm"), utf8 "example.com/numeric/fastmath"⟩]) := by
  decide +kernel

end Program
end RelaxArith.Host
