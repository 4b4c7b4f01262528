/-
What a session remembers.

Whatever way an input comes in (as a line, behind a command that shows a tree, or in a file), it is
relaxed on its own, and the session keeps the last tree that came out.  `Enters` lists the inputs
that lines hand on, those of loaded files in their place; so the tree that a session remembers is
a function of the inputs so far, and of nothing else.

One step: a line takes a session that remembers the last tree of some inputs to one that remembers
the last tree of these and its own.  Whole runs, and the lines of loaded files, follow by
induction over the lines.
-/
import RelaxArith.Proofs.Parser.Safety
import RelaxArith.Proofs.Printing.Relaxed
import RelaxArith.Proofs.Shell.Loading

namespace RelaxArith

/-- With the standard rules, nothing that is there goes missing. -/
theorem Relaxer.isAbsent_relax {π : Type} {rx : Relaxer} (hrx : rx.table = .standard) {e : Expr π}
    (he : e.isAbsent = false) : (rx.relax e).isAbsent = false := by
  cases e with
  | absent k => cases he
  | ident | literal | foreign | group | call => rfl
  | prefixed op x s | assign t v s =>
    rw [relax]
    split <;> rfl
  | binary op l r s =>
    rw [relax]
    rcases ruleFor_standard_cases hrx op with ⟨_, c, _, hrule⟩ | ⟨_, c, hc, hrule⟩ | ⟨_, hrule⟩
    · rw [hrule]
      rfl
    · obtain ⟨name, _, x, _, hcombine⟩ := rx.combine_eq_relaxedCall hc (rx.relax l) (rx.relax r)
      rw [hrule, applyRule, hcombine]
      rfl
    · rw [hrule]
      rfl

namespace Shell

/-! ### Inputs -/

/-- An input without white space around it, unless it is blank. -/
def given (w : Bytes) : List Bytes := if (Bytes.trim w).isEmpty then [] else [Bytes.trim w]

/-- The commands that show a tree. -/
def viewCommands : List Bytes := [utf8 ":tree", utf8 ":sexpr", utf8 ":ops"]

/-- What a command with a name and an argument hands on. -/
def handedTo (name arg : Bytes) : List Bytes := if name ∈ viewCommands then given arg else []

/-- What a line hands on itself. -/
def ownInputs (line : Bytes) : List Bytes :=
  if Bytes.startsWith line (utf8 ":") then
    handedTo (splitCommand line).1 (splitCommand line).2
  else given line

/-- The inputs that lines hand on, those of the files they load included. -/
inductive Enters (dir : Directory) : List Bytes → List Bytes → Prop
  | nil : Enters dir [] []
  | own {line : Bytes} {lines xs : List Bytes} (hline : ∀ content, ¬Opens dir line content)
      (hrest : Enters dir lines xs) : Enters dir (line :: lines) (ownInputs line ++ xs)
  | load {line content : Bytes} {lines xs ys : List Bytes} (hline : Opens dir line content)
      (hfile : Enters dir (scriptLines content) ys) (hrest : Enters dir lines xs) :
      Enters dir (line :: lines) (ys ++ xs)

theorem Enters.ofLine {dir : Directory} {line : Bytes} {lines xs ys : List Bytes}
    (hline : opened? dir line = none) (hys : ownInputs line = ys) (hrest : Enters dir lines xs) :
    Enters dir (line :: lines) (ys ++ xs) := by
  subst hys
  exact .own (fun content hopens => by simp [opens_iff.mp hopens] at hline) hrest

theorem Enters.ofFile {dir : Directory} {line content : Bytes} {lines inner xs ys : List Bytes}
    (hline : opened? dir line = some content) (hinner : scriptLines content = inner)
    (hfile : Enters dir inner ys) (hrest : Enters dir lines xs) :
    Enters dir (line :: lines) (ys ++ xs) := by
  subst hinner
  exact .load (opens_iff.mpr hline) hfile hrest

/-- The tree that comes out of an input. -/
def resultOf (rx : Relaxer) (x : Bytes) : Option SessionTree :=
  if Bytes.startsWith x (utf8 "#") then
    (parseInvocation x).toOption.bind fun inv => (rx.expand inv).toOption
  else (parse x).toOption.map rx.relax

/-- The last tree that comes out of inputs. -/
def lastOf (rx : Relaxer) (xs : List Bytes) : SessionTree :=
  (xs.filterMap (resultOf rx)).getLast?.getD (.absent none)

/-- The session behind inputs. -/
def after (rx : Relaxer) (xs : List Bytes) : Session := ⟨rx, lastOf rx xs⟩

theorem enters_of_files {dir : Directory} {lines : List Bytes}
    (h : ∀ line ∈ lines, ∀ content, Opens dir line content →
      ∃ ys, Enters dir (scriptLines content) ys) : ∃ xs, Enters dir lines xs := by
  induction lines with
  | nil => exact ⟨[], .nil⟩
  | cons line lines ih =>
    obtain ⟨hline, hlines⟩ := List.forall_mem_cons.mp h
    obtain ⟨xs, hxs⟩ := ih hlines
    by_cases hopens : ∃ content, Opens dir line content
    · obtain ⟨content, hopens⟩ := hopens
      obtain ⟨ys, hys⟩ := hline content hopens
      exact ⟨_, .load hopens hys hxs⟩
    · exact ⟨_, .own (fun content hcontent => hopens ⟨content, hcontent⟩) hxs⟩

/-- If loading ends, the inputs can be listed. -/
theorem Loadable.enters {dir : Directory} {lines : List Bytes} (h : Loadable dir lines) :
    ∃ xs, Enters dir lines xs := by
  refine enters_of_files fun line hline content hopens => ?_
  have hacc := h.ends line hline content hopens
  clear hopens
  induction hacc with
  | intro content _ ih =>
    exact enters_of_files fun line hline inner hopens => ih inner ⟨line, hline, hopens⟩

theorem Enters.append {dir : Directory} {lines lines' xs ys : List Bytes}
    (h : Enters dir lines xs) (h' : Enters dir lines' ys) :
    Enters dir (lines ++ lines') (xs ++ ys) := by
  induction h with
  | nil => exact h'
  | own hline _ ih =>
    rw [List.append_assoc]
    exact .own hline ih
  | load hline hfile _ _ ih =>
    rw [List.append_assoc]
    exact .load hline hfile ih

/-! ### The tree that is remembered -/

section Remembered

variable {rx : Relaxer} {xs : List Bytes} {x : Bytes} {e : SessionTree}

theorem lastOf_append_none (h : resultOf rx x = none) : lastOf rx (xs ++ [x]) = lastOf rx xs := by
  simp [lastOf, h]

theorem lastOf_append_some (h : resultOf rx x = some e) : lastOf rx (xs ++ [x]) = e := by
  simp [lastOf, h]

/-- The session finds the tree that comes out of an input. -/
theorem toOption_relaxed (s : Session) (x : Bytes) :
    (s.relaxed x).toOption = resultOf s.relaxer x := by
  unfold Session.relaxed resultOf
  by_cases hhash : Bytes.startsWith x (utf8 "#") = true
  · rw [if_pos hhash, if_pos hhash]
    cases (parseInvocation x : Except SyntaxError (Invocation Empty)) with
    | error err => rfl
    | ok inv =>
      simp only [Except.toOption, Option.bind_some]
      cases s.relaxer.expand inv <;> rfl
  · rw [if_neg hhash, if_neg hhash]
    cases (parse x : Except SyntaxError (Expr Empty)) <;> rfl

/-- Something comes out of an input, or nothing does. -/
theorem isAbsent_of_resultOf (hrx : rx.table = .standard) (h : resultOf rx x = some e) :
    e.isAbsent = false := by
  unfold resultOf at h
  by_cases hhash : Bytes.startsWith x (utf8 "#") = true
  · rw [if_pos hhash] at h
    obtain ⟨inv, -, hexpand⟩ := Option.bind_eq_some_iff.mp h
    unfold Relaxer.expand at hexpand
    cases hargs : inv.args with
    | nil => rw [hargs] at hexpand; cases hexpand
    | cons arg args =>
      rw [hargs] at hexpand
      by_cases harg : arg.isAbsent = true
      · simp [harg, Except.toOption] at hexpand
      · simp only [harg, if_false, Bool.false_eq_true] at hexpand
        cases hexpand
        exact Relaxer.isAbsent_relax hrx (eq_false_of_ne_true harg)
  · rw [if_neg hhash] at h
    obtain ⟨e', hparse, rfl⟩ := Option.map_eq_some_iff.mp h
    cases hx : (parse x : Except SyntaxError (Expr Empty)) with
    | error err => rw [hx] at hparse; cases hparse
    | ok e'' =>
      rw [hx] at hparse
      cases hparse
      exact Relaxer.isAbsent_relax hrx (complete_of_parse hx).node

/-- A session is fresh as long as no input has succeeded. -/
theorem isFresh_after (hrx : rx.table = .standard) (xs : List Bytes) :
    (after rx xs).isFresh = true ↔ ∀ x ∈ xs, resultOf rx x = none := by
  have hall : (∀ x ∈ xs, resultOf rx x = none) ↔ xs.filterMap (resultOf rx) = [] := by
    rw [List.filterMap_eq_nil_iff]
  rw [hall]
  cases hlast : (xs.filterMap (resultOf rx)).getLast? with
  | none =>
    have hnil := List.getLast?_eq_none_iff.mp hlast
    simp [after, Session.isFresh, lastOf, hnil]
  | some e =>
    obtain ⟨x, -, hx⟩ := List.mem_filterMap.mp (List.mem_of_mem_getLast? hlast)
    have hpresent := isAbsent_of_resultOf hrx hx
    have hne : xs.filterMap (resultOf rx) ≠ [] := by
      intro hnil
      rw [hnil] at hlast
      cases hlast
    simp only [after, Session.isFresh, lastOf, hlast, Option.getD_some, hne, iff_false]
    cases e with
    | absent k => cases hpresent
    | ident | literal | binary | prefixed | group | call | assign | foreign => simp

end Remembered

/-! ### Commands -/

/-- The commands that end a conversation. -/
def quitCommands : List Bytes := [utf8 ":quit", utf8 ":q"]

/-- The other commands that show no tree. -/
def plainCommands : List Bytes := [utf8 ":help", utf8 ":h", utf8 ":load"]

theorem not_mem_viewCommands {name : Bytes} (h : name ∈ quitCommands ++ plainCommands) :
    name ∉ viewCommands := by
  have hall : ∀ n ∈ quitCommands ++ plainCommands, n ∉ viewCommands := by decide
  exact hall name h

theorem not_mem_quitCommands {name : Bytes} (h : name ∈ plainCommands ++ viewCommands) :
    name ∉ quitCommands := by
  have hall : ∀ n ∈ plainCommands ++ viewCommands, n ∉ quitCommands := by decide
  exact hall name h

/-- What a name and an argument stand for. -/
inductive Means (name arg : Bytes) : Command → Prop
  | quit (h : name ∈ quitCommands) : Means name arg .quit
  | help (h : name ∈ plainCommands) : Means name arg .help
  | load (h : name = utf8 ":load") : Means name arg (.load arg)
  | tree (h : name ∈ viewCommands) : Means name arg (.tree arg)
  | list (h : name ∈ viewCommands) : Means name arg (.list arg)
  | operators (h : name ∈ viewCommands) : Means name arg (.operators arg)
  | unknown (h : name ∉ quitCommands ++ viewCommands) : Means name arg (.unknown name)

theorem means_ofLine (line : Bytes) :
    Means (splitCommand line).1 (splitCommand line).2 (Command.ofLine line) := by
  unfold Command.ofLine
  generalize splitCommand line = words
  obtain ⟨name, arg⟩ := words
  simp only [Bool.or_eq_true, beq_iff_eq]
  split_ifs with hquit hhelp hload htree hlist hoperators
  · exact .quit (by simpa [quitCommands] using hquit)
  · exact .help (by simp only [plainCommands, List.mem_cons]; tauto)
  · exact .load hload
  · exact .tree (by simp [viewCommands, htree])
  · exact .list (by simp [viewCommands, hlist])
  · exact .operators (by simp [viewCommands, hoperators])
  · refine .unknown ?_
    simp only [quitCommands, viewCommands, List.mem_append, List.mem_cons, List.not_mem_nil,
      or_false]
    tauto

/-! ### One line -/

section Step

theorem trim_nil : Bytes.trim [] = [] := by cbv

variable {rx : Relaxer} {dir : Directory} {line : Bytes}

/-- Showing a tree hands on an input, if there is one. -/
theorem present_session (xs : List Bytes) (input : Bytes) (view : SessionTree → Bytes) :
    ((after rx xs).present input view).session = after rx (xs ++ given input) := by
  unfold Session.present Session.take given
  by_cases hblank : (Bytes.trim input).isEmpty = true
  · simp only [hblank, if_true, List.append_nil]
    cases (after rx xs).isFresh <;> rfl
  · simp only [hblank, if_false, Bool.false_eq_true]
    have hresult : _ = resultOf rx (Bytes.trim input) := toOption_relaxed (after rx xs) _
    cases hrelaxed : (after rx xs).relaxed (Bytes.trim input) with
    | error e =>
      rw [hrelaxed] at hresult
      simp only [after, lastOf_append_none hresult.symm]
    | ok e =>
      rw [hrelaxed] at hresult
      simp only [after, lastOf_append_some hresult.symm]

theorem present_quit (s : Session) (input : Bytes) (view : SessionTree → Bytes) :
    (s.present input view).quit = false := by
  unfold Session.present
  cases s.take input <;> rfl

theorem present_failed {s : Session} {input : Bytes} {view : SessionTree → Bytes}
    (h : (s.present input view).failure.isSome = true) : (s.present input view).session = s := by
  unfold Session.present at h ⊢
  cases htake : s.take input with
  | error e => rfl
  | ok e =>
    rw [htake] at h
    cases h

/-- Without an input, a tree can be shown unless the session is fresh. -/
theorem present_blank (s : Session) {input : Bytes} (view : SessionTree → Bytes)
    (h : Bytes.trim input = []) : (s.present input view).failure.isSome = s.isFresh := by
  unfold Session.present Session.take
  simp only [h, List.isEmpty_nil, if_true]
  cases s.isFresh <;> rfl

/-- Loading what is no file does nothing. -/
theorem load_of_no_file {file : Bytes} (eval : Session → Bytes → Outcome) (s : Session)
    (h : ∀ content, dir.find file ≠ .file content) : Session.load eval dir s file = (s, []) := by
  unfold Session.load
  cases hfind : dir.find file with
  | file content => exact absurd hfind (h content)
  | folder | nothing | notFolder => rfl

/-- The commands that show a tree take it in the same way. -/
theorem execute_view {name arg : Bytes} {c : Command} (hc : Means name arg c)
    (hview : name ∈ viewCommands) (eval : Session → Bytes → Outcome) (s : Session) :
    ∃ view, Session.execute eval dir s c = s.present arg view := by
  cases hc with
  | tree | list | operators => exact ⟨_, rfl⟩
  | quit h => exact absurd hview (not_mem_viewCommands (List.mem_append_left _ h))
  | help h => exact absurd hview (not_mem_viewCommands (List.mem_append_right _ h))
  | load h => exact absurd hview (not_mem_viewCommands (by rw [h]; decide))
  | unknown h => exact absurd (List.mem_append_right _ hview) h

/-- A command that loads no file hands on its own input. -/
theorem execute_own {name arg : Bytes} {c : Command} (hc : Means name arg c)
    (eval : Session → Bytes → Outcome) (xs : List Bytes)
    (hload : name = utf8 ":load" → ∀ content, dir.find arg ≠ .file content) :
    (Session.execute eval dir (after rx xs) c).session = after rx (xs ++ handedTo name arg) := by
  by_cases hview : name ∈ viewCommands
  · obtain ⟨view, hexecute⟩ := execute_view hc hview eval (after rx xs)
    rw [hexecute, present_session, handedTo, if_pos hview]
  · rw [handedTo, if_neg hview, List.append_nil]
    cases hc with
    | quit | help | unknown => rfl
    | load h => simp only [Session.execute, load_of_no_file eval (after rx xs) (hload h)]
    | tree h | list h | operators h => exact absurd h hview

theorem execute_quit {name arg : Bytes} {c : Command} (hc : Means name arg c)
    (eval : Session → Bytes → Outcome) (s : Session) :
    (Session.execute eval dir s c).quit = true ↔ name ∈ quitCommands := by
  have hgoesOn (h : name ∉ quitCommands) : false = true ↔ name ∈ quitCommands :=
    iff_of_false Bool.false_ne_true h
  cases hc with
  | quit h => exact iff_of_true rfl h
  | help h => exact hgoesOn (not_mem_quitCommands (List.mem_append_left _ h))
  | load h => exact hgoesOn (not_mem_quitCommands (by rw [h]; decide))
  | tree h | list h | operators h =>
    rw [Session.execute, present_quit]
    exact hgoesOn (not_mem_quitCommands (List.mem_append_right _ h))
  | unknown h => exact hgoesOn fun hname => h (List.mem_append_left _ hname)

theorem execute_failed {eval : Session → Bytes → Outcome} {s : Session} {c : Command}
    (h : (Session.execute eval dir s c).failure.isSome = true) :
    (Session.execute eval dir s c).session = s := by
  cases c with
  | quit | help | unknown => rfl
  | load => cases h
  | tree | list | operators => exact present_failed h

theorem evalWithin_command (dir : Directory) (n : Nat) (s : Session)
    (h : Bytes.startsWith line (utf8 ":") = true) :
    ∃ eval, Session.evalWithin dir n s line = Session.execute eval dir s (Command.ofLine line) := by
  cases n <;> exact ⟨_, by rw [Session.evalWithin, if_pos h]⟩

theorem evalWithin_plain (dir : Directory) (n : Nat) (s : Session)
    (h : ¬Bytes.startsWith line (utf8 ":") = true) :
    Session.evalWithin dir n s line
      = s.present line fun e => Sign.info.print (shownText e) := by
  cases n <;> rw [Session.evalWithin, if_neg h]

/-- A line that loads no file hands on its own input. -/
theorem evalWithin_own (n : Nat) (xs : List Bytes) (hline : ∀ content, ¬Opens dir line content) :
    (Session.evalWithin dir n (after rx xs) line).session = after rx (xs ++ ownInputs line) := by
  unfold ownInputs
  by_cases hcolon : Bytes.startsWith line (utf8 ":") = true
  · obtain ⟨eval, heval⟩ := evalWithin_command dir n (after rx xs) hcolon
    rw [heval, if_pos hcolon]
    refine execute_own (means_ofLine line) eval xs ?_
    intro hname content hfind
    exact hline content ⟨hcolon, hname, hfind⟩
  · rw [evalWithin_plain dir n _ hcolon, present_session, if_neg hcolon]

/-- A line that loads a file evaluates the lines of the file. -/
theorem evalWithin_load (n : Nat) (s : Session) {content : Bytes} (h : Opens dir line content) :
    (Session.evalWithin dir (n + 1) s line).session
      = (Session.evalLines (Session.evalWithin dir n) s (Session.linesOf content)).1 := by
  obtain ⟨hcolon, hname, hfind⟩ := h
  rw [Session.evalWithin, if_pos hcolon]
  have hc : Command.ofLine line = .load (splitCommand line).2 := by
    unfold Command.ofLine
    generalize splitCommand line = words at hname
    obtain ⟨name, arg⟩ := words
    subst hname
    rfl
  rw [hc]
  simp only [Session.execute, Session.load, hfind]

/-- Lines hand on their inputs one after the other. -/
theorem evalLines_session {lines ys : List Bytes} (henters : Enters dir lines ys) :
    ∀ {n : Nat} (xs : List Bytes), Shallow dir n lines →
      (Session.evalLines (Session.evalWithin dir n) (after rx xs) lines).1
        = after rx (xs ++ ys) := by
  induction henters with
  | nil =>
    intro n xs _
    rw [List.append_nil]
    rfl
  | @own line lines ys hline _ ih =>
    intro n xs hshallow
    rw [Session.evalLines]
    simp only [evalWithin_own n xs hline]
    rw [ih _ (hshallow.mono (List.subset_cons_self line lines)), List.append_assoc]
  | @load line content lines ys zs hline _ _ ihfile ih =>
    intro n xs hshallow
    have hreadable := hshallow.readable_of_opens hline
    cases n with
    | zero => exact absurd (hshallow.shallow line List.mem_cons_self content hline) (Nat.not_lt_zero _)
    | succ n =>
      rw [Session.evalLines]
      simp only [evalWithin_load n _ hline, linesOf_eq hreadable]
      rw [ihfile _ (hshallow.file hline), ih _ (hshallow.mono (List.subset_cons_self line lines)),
        List.append_assoc]

end Step

/-! ### Whole sessions -/

namespace Session

/-- The session behind lines. -/
def behind (dir : Directory) (s : Session) (lines : List Bytes) : Session :=
  lines.foldl (fun s line => (s.eval dir line).session) s

/-- A session with functions of some names that was given nothing yet. -/
def fresh (sum product : Bytes) (nested : Bool) : Session :=
  { relaxer := Relaxer.ofNames sum product nested }

/-- Each line is evaluated in the session behind the lines before it. -/
theorem run_getElem?_length (dir : Directory) (s : Session) (earlier later : List Bytes)
    (line : Bytes) : (run dir s (earlier ++ line :: later))[earlier.length]?
      = some ((s.behind dir earlier).eval dir line) := by
  induction earlier generalizing s with
  | nil => rfl
  | cons first earlier ih =>
    rw [List.cons_append, run, List.length_cons, List.getElem?_cons_succ]
    exact ih _

theorem behind_eq_evalLines (dir : Directory) (s : Session) (lines : List Bytes) :
    s.behind dir lines = (evalLines (evalWithin dir (dir.files.length + 1)) s lines).1 := by
  induction lines generalizing s with
  | nil => rfl
  | cons line lines ih =>
    rw [evalLines]
    exact ih _

/-- The session behind lines remembers the last tree of their inputs. -/
theorem behind_fresh {sum product : Bytes} {nested : Bool} {dir : Directory}
    {lines xs : List Bytes} (hlines : Loadable dir lines) (henters : Enters dir lines xs) :
    (fresh sum product nested).behind dir lines
      = after (Relaxer.ofNames sum product nested) xs := by
  rw [behind_eq_evalLines]
  exact evalLines_session henters [] hlines.isShallow

end Session

/-- A line is to work on the tree that is remembered. -/
def WantsLast (line : Bytes) : Prop :=
  if Bytes.startsWith line (utf8 ":") then
    (splitCommand line).1 ∈ viewCommands ∧ (splitCommand line).2 = []
  else Bytes.trim line = []

/-- A line is a command that hands nothing on: it has no argument, or no use for one. -/
def Idle (line : Bytes) : Prop :=
  Bytes.startsWith line (utf8 ":") = true ∧
    ((splitCommand line).1 ∉ utf8 ":load" :: viewCommands ∨ (splitCommand line).2 = [])

section Lines

variable {dir : Directory} {line : Bytes}

theorem Idle.not_opens (h : Idle line) (content : Bytes) : ¬Opens dir line content := by
  intro hopens
  obtain ⟨-, hname, hfind⟩ := hopens
  rcases h.2 with hother | hblank
  · exact hother (by rw [hname]; exact List.mem_cons_self)
  · rw [hblank] at hfind
    cases hfind

theorem Idle.ownInputs_eq (h : Idle line) : ownInputs line = [] := by
  rw [ownInputs, if_pos h.1, handedTo]
  by_cases hview : (splitCommand line).1 ∈ viewCommands
  · have hblank : (splitCommand line).2 = [] :=
      h.2.resolve_left fun hother => hother (List.mem_cons_of_mem _ hview)
    rw [if_pos hview, hblank, given, trim_nil]
    rfl
  · rw [if_neg hview]

/-- The only request to quit is a command of that name. -/
theorem eval_quit (s : Session) : (s.eval dir line).quit = true ↔
    Bytes.startsWith line (utf8 ":") = true ∧ (splitCommand line).1 ∈ quitCommands := by
  unfold Session.eval
  by_cases hcolon : Bytes.startsWith line (utf8 ":") = true
  · obtain ⟨eval, heval⟩ := evalWithin_command dir (dir.files.length + 1) s hcolon
    rw [heval, execute_quit (means_ofLine line)]
    exact (and_iff_right hcolon).symm
  · rw [evalWithin_plain dir _ s hcolon, present_quit]
    exact iff_of_false Bool.false_ne_true fun h => hcolon h.1

/-- A line that fails leaves the session as it was. -/
theorem eval_failed {s : Session} (h : (s.eval dir line).failure.isSome = true) :
    (s.eval dir line).session = s := by
  unfold Session.eval at h ⊢
  by_cases hcolon : Bytes.startsWith line (utf8 ":") = true
  · obtain ⟨eval, heval⟩ := evalWithin_command dir (dir.files.length + 1) s hcolon
    rw [heval] at h ⊢
    exact execute_failed h
  · rw [evalWithin_plain dir _ s hcolon] at h ⊢
    exact present_failed h

/-- A line that wants the remembered tree fails in a fresh session, and in no other one. -/
theorem eval_wantsLast (s : Session) (h : WantsLast line) :
    (s.eval dir line).failure.isSome = s.isFresh := by
  unfold Session.eval
  unfold WantsLast at h
  by_cases hcolon : Bytes.startsWith line (utf8 ":") = true
  · rw [if_pos hcolon] at h
    obtain ⟨hview, hblank⟩ := h
    obtain ⟨eval, heval⟩ := evalWithin_command dir (dir.files.length + 1) s hcolon
    obtain ⟨view, hexecute⟩ := execute_view (means_ofLine line) hview eval s
    rw [heval, hexecute, hblank]
    exact present_blank s view trim_nil
  · rw [if_neg hcolon] at h
    rw [evalWithin_plain dir _ s hcolon]
    exact present_blank s _ h

end Lines

/--
**A session remembers the last tree that came out, and nothing else.**  After any lines, the tree
that is remembered is the one that came out of the last input from which one did, in whatever way
the inputs came in: as lines, behind commands that show trees, or in files.  Lines that fail and
commands that hand nothing on leave it as it was.  What wants the remembered tree fails only as
long as there is none, and to quit takes a command at the prompt, not in a file.
-/
theorem remembers_last_tree (sum product : Bytes) (nested : Bool) (dir : Directory)
    (earlier later : List Bytes) (line : Bytes) (hlines : Loadable dir (earlier ++ [line])) :
    let rx := Relaxer.ofNames sum product nested
    let s := (Session.fresh sum product nested).behind dir earlier
    let o := s.eval dir line
    (Session.run dir (.fresh sum product nested) (earlier ++ line :: later))[earlier.length]?
        = some o ∧
    (o.quit = true ↔
      Bytes.startsWith line (utf8 ":") = true ∧ (splitCommand line).1 ∈ quitCommands) ∧
    (o.failure.isSome = true ∨ Idle line → o.session.last = s.last) ∧
    (∃ xs, Enters dir earlier xs) ∧ (∃ ys, Enters dir [line] ys) ∧
    ∀ xs ys, Enters dir earlier xs → Enters dir [line] ys →
      s.last = lastOf rx xs ∧ o.session.last = lastOf rx (xs ++ ys) ∧
      (WantsLast line → (o.failure.isSome = true ↔ ∀ x ∈ xs, resultOf rx x = none)) := by
  intro rx s o
  have hearlier : Loadable dir earlier := hlines.mono (List.subset_append_left _ _)
  have hline : Loadable dir [line] := hlines.mono (List.subset_append_right _ _)
  have hbehind : o.session = (Session.fresh sum product nested).behind dir (earlier ++ [line]) := by
    rw [Session.behind, List.foldl_append]
    rfl
  have hsession : ∀ xs, Enters dir earlier xs → s = after rx xs :=
    fun xs hxs => Session.behind_fresh hearlier hxs
  refine ⟨Session.run_getElem?_length dir _ earlier later line, eval_quit s, ?_,
    hearlier.enters, hline.enters, ?_⟩
  · intro h
    rcases h with hfails | hidle
    · rw [show o.session = s from eval_failed hfails]
    · obtain ⟨xs, hxs⟩ := hearlier.enters
      have hown : o.session = after rx (xs ++ ownInputs line) := by
        rw [← evalWithin_own (dir.files.length + 1) xs hidle.not_opens, ← hsession xs hxs]
        rfl
      rw [hown, hidle.ownInputs_eq, List.append_nil, ← hsession xs hxs]
  · intro xs ys hxs hys
    refine ⟨by rw [hsession xs hxs]; rfl, ?_, ?_⟩
    · rw [hbehind, Session.behind_fresh hlines (hxs.append hys)]
      rfl
    · intro hwants
      rw [show o.failure.isSome = s.isFresh from eval_wantsLast s hwants, hsession xs hxs]
      exact isFresh_after rfl xs

/-- A file that loads another one, from which the tree of `a+b` comes out. -/
def nestedScripts : Directory :=
  { files := [(utf8 "s", utf8 "x\n:load t\n:q"), (utf8 "t", utf8 "//\n a+b\nf(")] }

theorem enters_nestedScripts :
    Enters nestedScripts [utf8 ":load s"] [utf8 "x", utf8 "a+b", utf8 "f("] := by
  have hinput {line : Bytes} {lines xs : List Bytes} (hline : opened? nestedScripts line = none)
      (hown : ownInputs line = [line]) (hrest : Enters nestedScripts lines xs) :
      Enters nestedScripts (line :: lines) (line :: xs) := .ofLine hline hown hrest
  have hinner : Enters nestedScripts [utf8 "a+b", utf8 "f("] [utf8 "a+b", utf8 "f("] :=
    hinput (by decide +kernel) (by decide +kernel)
      (hinput (by decide +kernel) (by decide +kernel) .nil)
  have hquit : ownInputs (utf8 ":q") = [] := by decide +kernel
  have hload : opened? nestedScripts (utf8 ":load t") = some (utf8 "//\n a+b\nf(") := by
    decide +kernel
  have houter : Enters nestedScripts [utf8 "x", utf8 ":load t", utf8 ":q"]
      [utf8 "x", utf8 "a+b", utf8 "f("] :=
    hinput (by decide +kernel) (by decide +kernel)
      (.ofFile hload (by decide +kernel) hinner (.ofLine (by decide +kernel) hquit .nil))
  have hstart : opened? nestedScripts (utf8 ":load s") = some (utf8 "x\n:load t\n:q") := by
    decide +kernel
  exact .ofFile hstart (by decide +kernel) houter .nil

theorem remembers_last_tree_nestedScripts :
    Loadable nestedScripts ([utf8 ":load s"] ++ [utf8 ":ops"]) ∧
      ∃ o, (Session.run nestedScripts (.fresh [] [] true) [utf8 ":load s", utf8 ":ops"])[1]?
          = some o ∧
        o.quit = false ∧ o.failure.isSome = false ∧
        o.session.last = .call (.ident (utf8 "fastmath.Sum") ⟨0, 0⟩)
          [([], .ident (utf8 "a") ⟨0, 1⟩), ([], .ident (utf8 "b") ⟨2, 3⟩)] ⟨0, 3⟩ := by
  have hlines : Loadable nestedScripts ([utf8 ":load s"] ++ [utf8 ":ops"]) := by decide +kernel
  obtain ⟨hrun, hquit, -, -, -, hlast⟩ := remembers_last_tree [] [] true nestedScripts
    [utf8 ":load s"] [] (utf8 ":ops") hlines
  have hown : ownInputs (utf8 ":ops") = [] := by decide +kernel
  have hops : Enters nestedScripts [utf8 ":ops"] [] := .ofLine (by decide +kernel) hown .nil
  obtain ⟨-, htree, hfails⟩ := hlast _ _ enters_nestedScripts hops
  refine ⟨hlines, _, hrun, ?_, ?_, ?_⟩
  · rw [Bool.eq_false_iff, ne_eq, hquit]
    decide
  · have hwants : WantsLast (utf8 ":ops") := by
      rw [WantsLast, if_pos (by decide)]
      exact ⟨by decide, by decide +kernel⟩
    have hsome : (resultOf (Relaxer.ofNames [] [] true) (utf8 "x")).isSome = true := by cbv
    rw [Bool.eq_false_iff, ne_eq, hfails hwants]
    intro hnone
    rw [hnone (utf8 "x") (by decide)] at hsome
    cases hsome
  · rw [htree]
    cbv

end Shell
end RelaxArith
