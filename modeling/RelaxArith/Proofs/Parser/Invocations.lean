/-
Invocations and expressions are read alike.

An invocation is a name behind a hash sign, alone or with arguments in parentheses.  Without the
hash sign this is an expression, a name or the call of one.  The two are read by functions of their
own, and the scanner sees different first tokens: a name may have dots in it, what stands behind a
hash sign may not.

What both have in common is the text behind the name.  `ArgumentsBehind` says that it is nothing at
all, or arguments in parentheses; that it does not depend on what stands in front, up to spans, is
what derivations are carried from one input to another for.  An invocation can be read exactly if
this is so behind its name, and a tree that calls a name can be read exactly if this is so behind
that name.

Any expression is an argument.  So expanding what stands in the parentheses of an invocation gives
what relaxing it as an expression of its own gives, since relaxing does not see spans.
-/
import RelaxArith.Expansion
import RelaxArith.Proofs.Congruence
import RelaxArith.Proofs.Parser.Safety
import RelaxArith.Proofs.Scan.Patterns

namespace RelaxArith

open Automaton Grammar RelaxArith.Expr

variable {π : Type}

/-- A tree is a name on its own, or the call of a name with some arguments. -/
inductive Expr.Calls : Expr π → Bytes → List (Bytes × Expr π) → Prop
  | name (name : Bytes) (s : Span) : Calls (.ident name s) name []
  | call (name : Bytes) (s : Span) (args : List (Bytes × Expr π)) (s' : Span) :
      Calls (.call (.ident name s) args s') name args

namespace Grammar

variable {input : Bytes} {ts us : List Token}

/-! ### Names and calls -/

theorem Derives.of_ident {k : Nat} {w : Bytes} {s : Span}
    (h : Derives input ts (.expr k (.ident w s) : Phrase π)) :
    ∃ t, ts = [t] ∧ t.category = .name ∧ t.lexeme = w := by
  generalize hp : Phrase.expr k (.ident w s) = p at h
  induction h generalizing k with
  | tighter hlo hhi h ih =>
    cases hp
    exact ih rfl
  | @name t h =>
    cases hp
    exact ⟨t, rfl, h, rfl⟩
  | assignment | compound | operation | prefixed | call | subscript | number | text | group
  | lastElement | nextElement | unlabeled | labeled | lastArgument | nextArgument | noArguments
  | someArguments => cases hp

theorem Derives.of_call {k : Nat} {f : Expr π} {args : List (Bytes × Expr π)} {s : Span}
    (h : Derives input ts (.expr k (.call f args s))) :
    ∃ vs o us c, ts = vs ++ o :: (us ++ [c]) ∧ Derives input vs (.expr 8 f) ∧
      o.IsPunctuation "(" ∧ Derives input us (.arguments args) ∧ c.IsPunctuation ")" := by
  generalize hp : Phrase.expr k (.call f args s) = p at h
  induction h generalizing k with
  | tighter hlo hhi h ih =>
    cases hp
    exact ih rfl
  | @call vs us f args o c hf ho hargs hc =>
    cases hp
    exact ⟨vs, o, us, c, rfl, hf, ho, hargs, hc⟩
  | assignment | compound | operation | prefixed | subscript | name | number | text | group
  | lastElement | nextElement | unlabeled | labeled | lastArgument | nextArgument | noArguments
  | someArguments => cases hp

/-- Tokens behind a name: there are none, or they are arguments in parentheses. -/
def Applied (π : Type) (args : List (Bytes × Expr Empty)) (input : Bytes) (us : List Token) :
    Prop :=
  (us = [] ∧ args = []) ∨ ∃ o vs c, us = o :: (vs ++ [c]) ∧ o.IsPunctuation "(" ∧
    c.IsPunctuation ")" ∧ IsPhrase π (.arguments args) input vs

theorem applied_of_calls {k : Nat} {e : Expr π} {w : Bytes} {args : List (Bytes × Expr π)}
    (h : Derives input ts (.expr k e)) (hcalls : e.Calls w args) :
    ∃ t us, ts = t :: us ∧ t.category = .name ∧ t.lexeme = w ∧
      Applied π (eraseArgs args) input us := by
  cases hcalls with
  | name w s =>
    obtain ⟨t, rfl, hcat, hlex⟩ := h.of_ident
    exact ⟨t, [], rfl, hcat, hlex, .inl ⟨rfl, rfl⟩⟩
  | call w s args s' =>
    obtain ⟨vs, o, us, c, rfl, hf, ho, hargs, hc⟩ := h.of_call
    obtain ⟨t, rfl, hcat, hlex⟩ := hf.of_ident
    exact ⟨t, o :: (us ++ [c]), rfl, hcat, hlex, .inr ⟨o, us, c, rfl, ho, hc, hargs.isPhrase⟩⟩

theorem calls_of_applied {t : Token} {args : List (Bytes × Expr Empty)}
    (hcat : t.category = .name) (h : Applied π args input us) :
    ∃ (e : Expr π) (args' : List (Bytes × Expr π)), Derives input (t :: us) (.expr 1 e) ∧
      e.Calls t.lexeme args' ∧ eraseArgs args' = args := by
  have hname : Derives input [t] (.expr 9 (.ident t.lexeme t.span) : Phrase π) := .name hcat
  rcases h with ⟨rfl, rfl⟩ | ⟨o, vs, c, rfl, ho, hc, hargs⟩
  · exact ⟨_, [], hname.loosen (by decide) (by decide) (by decide), .name _ _, rfl⟩
  · obtain ⟨args', hargs', herase⟩ := hargs.arguments
    have hcall := Derives.call (hname.loosen (by decide) (by decide) (by decide)) ho hargs' hc
    exact ⟨_, args', hcall.loosen (by decide) (by decide) (by decide), .call _ _ _ _, herase⟩

/-- What stands behind a name can be carried to another input. -/
theorem Applied.transfer {args : List (Bytes × Expr Empty)} {input' u u' r v v' : Bytes}
    (h : Applied π args input us) (hin : input = u ++ (r ++ v)) (hin' : input' = u' ++ (r ++ v'))
    (hspelled : Spelled u.length r v us) :
    Applied π args input' (us.map (Token.move u.length u'.length)) := by
  have hwithin := within_of_spelled hspelled
  have hord := hspelled.ordered
  rcases h with ⟨rfl, rfl⟩ | ⟨o, vs, c, rfl, ho, hc, hargs⟩
  · exact .inl ⟨rfl, rfl⟩
  · obtain ⟨args', hargs', rfl⟩ := hargs.arguments
    refine .inr ⟨o.move u.length u'.length, vs.map (Token.move u.length u'.length),
      c.move u.length u'.length, ?_, isPunctuation_move ho _ _, isPunctuation_move hc _ _,
      hargs'.transfer hin hin' hord.tail.left hwithin.tail.left⟩
    rw [List.map_cons, List.map_append, List.map_singleton]

end Grammar

/-! ### The text behind a name -/

/-- Behind a text stands nothing, or arguments in parentheses. -/
def ArgumentsBehind (π : Type) (args : List (Bytes × Expr Empty)) (u r : Bytes) : Prop :=
  ∃ us, Spelled u.length r [] us ∧ Applied π args (u ++ r) us

theorem ArgumentsBehind.anywhere {args : List (Bytes × Expr Empty)} {u r : Bytes}
    (h : ArgumentsBehind π args u r) (u' : Bytes) : ArgumentsBehind π args u' r := by
  obtain ⟨us, hspelled, happlied⟩ := h
  have hmoved := hspelled.move (Nat.le_refl u.length) u'.length
  rw [Nat.sub_self, Nat.add_zero] at hmoved
  exact ⟨_, hmoved, happlied.transfer (by rw [List.append_nil]) (by rw [List.append_nil]) hspelled⟩

/-- The first token of a text, and the tokens behind it. -/
theorem spelled_iff_of_longest {c : Category} {w r : Bytes} {ts : List Token}
    (h : longest .start (w ++ r) = some (.token c, w.length)) :
    Spelled 0 (w ++ r) [] ts ↔
      ∃ us, ts = ⟨c, w, ⟨0, w.length⟩⟩ :: us ∧ Spelled w.length r [] us := by
  have hscan := scanFrom_token (n := 0) h
  rw [Nat.zero_add] at hscan
  constructor
  · intro hspelled
    have hevents := hspelled.scanFrom
    rw [hscan] at hevents
    cases ts with
    | nil => cases hevents
    | cons t us =>
      obtain ⟨ht, hrest⟩ := List.cons.inj hevents
      cases ht
      exact ⟨us, rfl, spelled_of_scanFrom hrest⟩
  · rintro ⟨us, rfl, hspelled⟩
    refine spelled_of_scanFrom ?_
    rw [hscan, hspelled.scanFrom]
    rfl

theorem argumentsBehind_of_parse {w r : Bytes} {e : Expr π} {name : Bytes}
    {args : List (Bytes × Expr π)} (h : longest .start (w ++ r) = some (.token .name, w.length))
    (hparse : parse (w ++ r) = .ok e) (hcalls : e.Calls name args) :
    name = w ∧ ArgumentsBehind π (eraseArgs args) w r := by
  obtain ⟨ts, hspelled, hderives⟩ := parse_eq_ok_iff.mp hparse
  obtain ⟨us, rfl, hrest⟩ := (spelled_iff_of_longest h).mp hspelled
  obtain ⟨t, us', heq, -, hlex, happlied⟩ := applied_of_calls hderives hcalls
  cases heq
  exact ⟨hlex.symm, us, hrest, happlied⟩

theorem parse_of_argumentsBehind {w r : Bytes} {args : List (Bytes × Expr Empty)}
    (h : longest .start (w ++ r) = some (.token .name, w.length))
    (hargs : ArgumentsBehind π args w r) :
    ∃ (e : Expr π) (args' : List (Bytes × Expr π)), parse (w ++ r) = .ok e ∧
      e.Calls w args' ∧ eraseArgs args' = args := by
  obtain ⟨us, hspelled, happlied⟩ := hargs
  obtain ⟨e, args', hderives, hcalls, herase⟩ :=
    calls_of_applied (t := ⟨.name, w, ⟨0, w.length⟩⟩) rfl happlied
  refine ⟨e, args', parse_eq_ok_iff.mpr ⟨_, ?_, hderives⟩, hcalls, herase⟩
  exact (spelled_iff_of_longest h).mpr ⟨us, rfl, hspelled⟩

/-! ### Invocations -/

section Invocations

variable {s : Bytes} {t : Token} {us : List Token}

theorem applied_of_invocation {inv : Invocation π} (hproper : AllProper us)
    (h : Parse.invocation s (t :: us) = .ok inv) :
    ∃ args : List (Bytes × Expr π), inv.name = t.lexeme.drop 1 ∧ inv.args = args.map Prod.snd ∧
      Applied π (eraseArgs args) s us := by
  rcases invocation_cases (π := π) (s := s) (t :: us) with
    ⟨cause, hinv⟩ | ⟨t', rest, heq, -, hinv⟩ | ⟨t', paren, rest, heq, -, hparen, hinv⟩
  · rw [hinv] at h
    cases h
  · cases heq
    rw [hinv] at h
    cases us with
    | nil =>
      cases h
      exact ⟨[], rfl, rfl, .inl ⟨rfl, rfl⟩⟩
    | cons u us => cases h
  · cases heq
    rw [hinv] at h
    obtain ⟨⟨⟨args, close⟩, r⟩, hargs, hfinish⟩ := bind_eq_ok.mp h
    obtain ⟨vs, c, rfl, hc, -, hderives⟩ :=
      (Grammar.sound s rest.length).arguments rfl hproper.tail hargs
    have hopen := isPunctuation_of_isMark (hproper paren (by simp)) (by decide) hparen
    cases r with
    | cons u r => cases hfinish
    | nil =>
      cases hfinish
      exact ⟨args, rfl, rfl, .inr ⟨paren, vs, c, rfl, hopen, hc, hderives.isPhrase⟩⟩

theorem invocation_of_applied {args : List (Bytes × Expr Empty)}
    (hcat : t.category = .invocation) (h : Applied π args s us) :
    ∃ (inv : Invocation π) (args' : List (Bytes × Expr π)),
      Parse.invocation s (t :: us) = .ok inv ∧ inv.name = t.lexeme.drop 1 ∧
      inv.args = args'.map Prod.snd ∧ eraseArgs args' = args := by
  rw [Parse.invocation, if_pos hcat]
  rcases h with ⟨rfl, rfl⟩ | ⟨o, vs, c, rfl, ho, hc, hargs⟩
  · exact ⟨⟨t.lexeme.drop 1, [], t.span⟩, [], rfl, rfl, rfl, rfl⟩
  · obtain ⟨args', hargs', rfl⟩ := hargs.arguments
    have hread : Parse.outcome (Parse.arguments s (vs ++ [c])) = .ok ((args', c.span), []) :=
      hargs'.accepted c [] hc
    have hparen : (Parse.current s (o :: (vs ++ [c]))).isMark (utf8 "(") = true :=
      isMark_of_isPunctuation ho
    rw [if_pos hparen, List.tail_cons, hread]
    exact ⟨.ofArguments t (args', c.span), args', rfl, rfl, rfl, rfl⟩

end Invocations

theorem argumentsBehind_of_parseInvocation {w r : Bytes} {inv : Invocation π}
    (h : longest .start (w ++ r) = some (.token .invocation, w.length))
    (hparse : parseInvocation (w ++ r) = .ok inv) :
    ∃ args : List (Bytes × Expr π), inv.name = w.drop 1 ∧ inv.args = args.map Prod.snd ∧
      ArgumentsBehind π (eraseArgs args) w r := by
  cases htokens : tokens (w ++ r) with
  | error e =>
    rw [parseInvocation, htokens] at hparse
    cases hparse
  | ok ts =>
    rw [parseInvocation_of_tokens htokens] at hparse
    have hspelled := tokens_eq_ok_iff.mp htokens
    have hproper := allProper_of_spelled hspelled
    obtain ⟨us, rfl, hrest⟩ := (spelled_iff_of_longest h).mp hspelled
    obtain ⟨args, hname, hargs, happlied⟩ := applied_of_invocation hproper.tail hparse
    exact ⟨args, hname, hargs, us, hrest, happlied⟩

theorem parseInvocation_of_argumentsBehind {w r : Bytes} {args : List (Bytes × Expr Empty)}
    (h : longest .start (w ++ r) = some (.token .invocation, w.length))
    (hargs : ArgumentsBehind π args w r) :
    ∃ (inv : Invocation π) (args' : List (Bytes × Expr π)), parseInvocation (w ++ r) = .ok inv ∧
      inv.name = w.drop 1 ∧ inv.args = args'.map Prod.snd ∧ eraseArgs args' = args := by
  obtain ⟨us, hspelled, happlied⟩ := hargs
  have htokens := tokens_eq_ok_iff.mpr ((spelled_iff_of_longest h).mpr ⟨us, rfl, hspelled⟩)
  rw [parseInvocation_of_tokens htokens]
  exact invocation_of_applied rfl happlied

/-! ### The first token -/

/-- A name without dots in it. -/
def Undotted (w : Bytes) : Prop :=
  ∃ b bs, w = b :: bs ∧ isLetter b = true ∧ ∀ c ∈ bs, isWord c = true

theorem run_words {q : State} (hq : ∀ c, isWord c = true → q.next c = some q) {w : Bytes}
    (hw : ∀ c ∈ w, isWord c = true) : run q w = some q := by
  induction w with
  | nil => rfl
  | cons c w ih =>
    obtain ⟨hc, hrest⟩ := List.forall_mem_cons.mp hw
    rw [run, hq c hc]
    exact ih hrest

theorem Undotted.no_dot {w : Bytes} (h : Undotted w) : 0x2E ∉ w := by
  obtain ⟨b, bs, rfl, hb, hbs⟩ := h
  intro hmem
  rcases List.mem_cons.mp hmem with rfl | hmem
  · cases hb
  · cases hbs _ hmem

theorem Undotted.run_name {w : Bytes} (h : Undotted w) : run .start w = some .name := by
  obtain ⟨b, bs, rfl, hb, hbs⟩ := h
  have hnext : State.start.next b = some .name := next_start_iff.mpr hb
  rw [run, hnext]
  exact run_words (fun c hc => by simp [State.next, hc]) hbs

theorem Undotted.run_invocation {w : Bytes} (h : Undotted w) :
    run .start (0x23 :: w) = some .invocation := by
  obtain ⟨b, bs, rfl, hb, hbs⟩ := h
  have hnext : State.hash.next b = some .invocation := if_pos hb
  rw [run, show State.start.next 0x23 = some .hash from rfl, Option.bind_some, run, hnext]
  exact run_words (fun c hc => by simp [State.next, hc]) hbs

/-- A text that begins with a letter begins with a name without dots, as long as possible. -/
theorem exists_undotted {b : UInt8} (hb : isLetter b = true) (bs : Bytes) :
    ∃ w r, b :: bs = w ++ r ∧ Undotted w ∧ ∀ c ∈ r.head?, isWord c = false := by
  refine ⟨b :: bs.takeWhile isWord, bs.dropWhile isWord, ?_, ⟨b, _, rfl, hb, ?_⟩, ?_⟩
  · rw [List.cons_append, List.takeWhile_append_dropWhile]
  · intro c hc
    exact List.all_eq_true.mp List.all_takeWhile c hc
  · intro c hc
    have hhead := List.head?_dropWhile_not isWord bs
    rw [show (bs.dropWhile isWord).head? = some c from hc] at hhead
    exact hhead

/-- Behind a hash sign nothing but a word makes a name longer. -/
theorem Undotted.longest_invocation {w r : Bytes} (h : Undotted w)
    (hr : ∀ c ∈ r.head?, isWord c = false) :
    longest .start (0x23 :: w ++ r) = some (.token .invocation, (0x23 :: w).length) := by
  refine longest_of_run h.run_invocation rfl ?_
  intro c hc
  simp [State.next, hr c hc]

/-- No token and no blank begins with a dot. -/
theorem not_spelled_dot {n : Nat} {r v : Bytes} {ts : List Token} :
    ¬ Spelled n (0x2E :: r) v ts := by
  intro h
  generalize hs : (0x2E :: r : Bytes) = s at h
  cases h with
  | nil => cases hs
  | blank hb => cases hs; cases hb
  | @token _ c w s _ ts hw h =>
    have hpos := longest_start_pos hw
    cases w with
    | nil => exact absurd hpos (Nat.lt_irrefl 0)
    | cons b w =>
      cases hs
      cases hw

theorem ArgumentsBehind.no_dot {args : List (Bytes × Expr Empty)} {u r : Bytes}
    (h : ArgumentsBehind π args u r) : ∀ c ∈ r.head?, c ≠ 0x2E := by
  obtain ⟨us, hspelled, -⟩ := h
  intro c hc hdot
  cases r with
  | nil => cases hc
  | cons b r =>
    cases hc
    rw [hdot] at hspelled
    exact not_spelled_dot hspelled

theorem Undotted.longest_name {w r : Bytes} (h : Undotted w)
    (hr : ∀ c ∈ r.head?, isWord c = false) (hdot : ∀ c ∈ r.head?, c ≠ 0x2E) :
    longest .start (w ++ r) = some (.token .name, w.length) := by
  refine longest_of_run h.run_name rfl ?_
  intro c hc
  simp [State.next, hr c hc, hdot c hc]

/-- The first token of a text that begins with a name is at least as long as the name. -/
theorem Undotted.first_token {w r : Bytes} {ts : List Token} (h : Undotted w)
    (hspelled : Spelled 0 (w ++ r) [] ts) :
    ∃ c x r' us, r = x ++ r' ∧ ts = ⟨c, w ++ x, ⟨0, (w ++ x).length⟩⟩ :: us ∧
      Spelled (w ++ x).length r' [] us := by
  obtain ⟨what, n, hlong, hle⟩ := le_longest_of_run (v := r) h.run_name rfl
  obtain ⟨x, r', rfl, rfl⟩ : ∃ x r', r = x ++ r' ∧ n = (w ++ x).length := by
    have hn := (run_of_longest hlong).1
    rw [List.length_append] at hn
    refine ⟨r.take (n - w.length), r.drop (n - w.length), (List.take_append_drop _ r).symm, ?_⟩
    rw [List.length_append, List.length_take]
    omega
  rw [← List.append_assoc] at hlong hspelled
  cases what with
  | blank =>
    obtain ⟨b, bs, rfl, hb, -⟩ := h
    have hblank := isBlank_of_longest hlong
    grind [isBlank, isLetter]
  | token c =>
    obtain ⟨us, rfl, hrest⟩ := (spelled_iff_of_longest hlong).mp hspelled
    exact ⟨c, x, r', us, rfl, rfl, hrest⟩

/-- A dot behind a name belongs to the name, or cannot be read. -/
theorem Undotted.no_dot_behind {w r : Bytes} {e : Expr π} {name : Bytes}
    {args : List (Bytes × Expr π)} (h : Undotted w) (hparse : parse (w ++ r) = .ok e)
    (hcalls : e.Calls name args) (hname : 0x2E ∉ name) : ∀ c ∈ r.head?, c ≠ 0x2E := by
  obtain ⟨ts, hspelled, hderives⟩ := parse_eq_ok_iff.mp hparse
  obtain ⟨c, x, r', us, rfl, rfl, hrest⟩ := h.first_token hspelled
  obtain ⟨t, us', heq, -, rfl, -⟩ := applied_of_calls hderives hcalls
  cases heq
  rintro b hb rfl
  cases x with
  | nil =>
    cases r' with
    | nil => cases hb
    | cons d r' =>
      cases hb
      exact not_spelled_dot hrest
  | cons d x =>
    cases hb
    exact hname (by simp)

/-! ### Both readings -/

theorem forall_equal_of_eraseArgs {args args' : List (Bytes × Expr π)}
    (h : eraseArgs args = eraseArgs args') :
    List.Forall₂ (fun x a => x.equal a.2 = true) (args.map Prod.snd) args' := by
  induction args generalizing args' with
  | nil =>
    cases args' with
    | nil => exact .nil
    | cons a args' => cases h
  | cons a args ih =>
    cases args' with
    | nil => cases h
    | cons a' args' =>
      obtain ⟨hfirst, hrest⟩ := List.cons.inj h
      exact .cons (equal_iff_erase.mpr (congrArg Prod.snd hfirst)) (ih hrest)

theorem Expr.Calls.unique {e : Expr π} {w w' : Bytes} {args args' : List (Bytes × Expr π)}
    (h : e.Calls w args) (h' : e.Calls w' args') : w = w' ∧ args = args' := by
  cases h <;> cases h' <;> exact ⟨rfl, rfl⟩

/-- An invocation that can be read, read as a call. -/
theorem calls_of_parseInvocation {b : UInt8} {bs : Bytes} (hb : isLetter b = true)
    {inv : Invocation π} (h : parseInvocation (0x23 :: b :: bs) = .ok inv) :
    ∃ (e : Expr π) (args : List (Bytes × Expr π)), parse (b :: bs) = .ok e ∧
      e.Calls inv.name args ∧ 0x2E ∉ inv.name ∧
      List.Forall₂ (fun x a => x.equal a.2 = true) inv.args args := by
  obtain ⟨w, r, hsplit, hw, hr⟩ := exists_undotted hb bs
  rw [hsplit] at h ⊢
  obtain ⟨args, hname, hargs, hbehind⟩ :=
    argumentsBehind_of_parseInvocation (hw.longest_invocation hr) h
  obtain ⟨e, args', hparse, hcalls, herase⟩ := parse_of_argumentsBehind
    (hw.longest_name hr hbehind.no_dot) (hbehind.anywhere w)
  rw [hname, hargs]
  exact ⟨e, args', hparse, hcalls, hw.no_dot, forall_equal_of_eraseArgs herase.symm⟩

/-- A call that can be read, read as an invocation. -/
theorem parseInvocation_of_calls {b : UInt8} {bs : Bytes} (hb : isLetter b = true) {e : Expr π}
    {name : Bytes} {args : List (Bytes × Expr π)} (h : parse (b :: bs) = .ok e)
    (hcalls : e.Calls name args) (hname : 0x2E ∉ name) :
    ∃ inv : Invocation π, parseInvocation (0x23 :: b :: bs) = .ok inv ∧ inv.name = name ∧
      List.Forall₂ (fun x a => x.equal a.2 = true) inv.args args := by
  obtain ⟨w, r, hsplit, hw, hr⟩ := exists_undotted hb bs
  rw [hsplit] at h ⊢
  have hlong := hw.longest_name hr (hw.no_dot_behind h hcalls hname)
  obtain ⟨rfl, hbehind⟩ := argumentsBehind_of_parse hlong h hcalls
  obtain ⟨inv, args', hparse, hinv, hargs, herase⟩ := parseInvocation_of_argumentsBehind
    (hw.longest_invocation hr) (hbehind.anywhere (0x23 :: name))
  refine ⟨inv, hparse, hinv, ?_⟩
  rw [hargs]
  exact forall_equal_of_eraseArgs herase

/-! ### Expanding -/

theorem calls_of_erase {e : Expr π} {w : Bytes} {args : List (Bytes × Expr Empty)}
    (h : e.erase = .call (.ident w .null) args .null) :
    ∃ args' : List (Bytes × Expr π), e.Calls w args' ∧ eraseArgs args' = args := by
  cases e with
  | call f args' s =>
    cases f with
    | ident w' s' =>
      cases h
      exact ⟨args', .call _ s' args' s, rfl⟩
    | absent | literal | binary | prefixed | group | call | assign | foreign => cases h
  | absent | ident | literal | binary | prefixed | group | assign | foreign => cases h

/-- An expression in parentheses behind a name is the argument of a call. -/
theorem parse_call_of_parse {w s : Bytes} {e : Expr π}
    (hw : longest .start w = some (.token .name, w.length)) (h : parse s = .ok e) :
    ∃ (e' : Expr π) (x : Expr π), parse (w ++ (utf8 "(" ++ (s ++ utf8 ")"))) = .ok e' ∧
      e'.Calls w [([], x)] ∧ x.erase = e.erase := by
  have hargument : ReadsAs π s (.arguments [([], e.erase)]) :=
    (reads_of_parse h).imp fun _ _ his => his.unlabeled.lastArgument.someArguments
  have hcall := reads_call ((reads_name hw).loosen (by decide) (by decide) (by decide)) hargument
  obtain ⟨e', hparse, herase⟩ :=
    parse_of_reads (hcall.loosen (by decide) (by decide) (by decide))
  obtain ⟨args, hcalls, hargs⟩ := calls_of_erase herase
  rw [eraseArgs_eq_map] at hargs
  obtain ⟨⟨label, x⟩, rfl, ha⟩ := List.map_eq_singleton_iff.mp hargs
  obtain ⟨rfl, hx⟩ := Prod.mk.inj ha
  exact ⟨e', x, hparse, hcalls, hx⟩

/-- A name begins with a letter. -/
theorem exists_letter_of_name {w : Bytes}
    (h : longest .start w = some (.token .name, w.length)) :
    ∃ b bs, w = b :: bs ∧ isLetter b = true := by
  obtain ⟨hfull, -, hdeclared, -⟩ := longestMatch_of_longest h
  rw [List.take_length] at hfull hdeclared
  cases w with
  | nil => exact absurd rfl hfull
  | cons b bs =>
    obtain ⟨q, hopens, hkind, -⟩ := declared_cons.mp hdeclared
    refine ⟨b, bs, rfl, ?_⟩
    cases q with
    | name => exact hopens
    | dot => cases hopens
    | start | blank | hash | invocation | whole | point | fraction | exponentMark | exponentSign
    | exponent | openText | closedText | operator | longOperator | ampersand | bar
    | punctuation => cases hkind

/-- An expression in the parentheses of an invocation is its argument. -/
theorem parseInvocation_of_parse {w s : Bytes} {e : Expr π}
    (hw : longest .start w = some (.token .name, w.length)) (hdot : 0x2E ∉ w)
    (h : parse s = .ok e) :
    ∃ (inv : Invocation π) (x : Expr π),
      parseInvocation (0x23 :: (w ++ (utf8 "(" ++ (s ++ utf8 ")")))) = .ok inv ∧
      inv.name = w ∧ inv.args = [x] ∧ x.erase = e.erase := by
  obtain ⟨e', x, hcall, hcalls, hx⟩ := parse_call_of_parse hw h
  obtain ⟨b, bs, rfl, hb⟩ := exists_letter_of_name hw
  obtain ⟨inv, hinv, hname, hargs⟩ := parseInvocation_of_calls hb hcall hcalls hdot
  obtain ⟨y, ys, hyx, hys, hy⟩ := List.forall₂_cons_right_iff.mp hargs
  rw [List.forall₂_nil_right_iff.mp hys] at hy
  exact ⟨inv, y, hinv, hname, hy, (equal_iff_erase.mp hyx).trans hx⟩

theorem expand_of_parseInvocation {s : Bytes} {inv : Invocation π} {x : Expr π}
    {xs : List (Expr π)} (h : parseInvocation s = .ok inv) (hx : inv.args = x :: xs)
    (rx : Relaxer) : rx.expand inv = .ok (rx.relax x) := by
  have hcomplete := complete_of_parseInvocation h x (by rw [hx]; simp)
  have hpresent : x.isAbsent = false := hcomplete.node
  rw [Relaxer.expand, hx]
  simp only [hpresent, Bool.false_eq_true, if_false]

/-- **Invocations and expressions are read alike.** Behind a hash sign a text that begins with a
letter or an underscore is an invocation exactly if, without it, the text is a name without dots or
the call of one.  The invocation has this name, and arguments equal to those of the call, without
their labels.  So an expression in the parentheses of an invocation is its argument, and expanding
the invocation gives what relaxing the expression on its own gives, up to spans. -/
theorem invocations_read_alike (π : Type) :
    (∀ (b : UInt8) (bs : Bytes), isLetter b = true →
      ((∃ inv : Invocation π, parseInvocation (utf8 "#" ++ b :: bs) = .ok inv) ↔
        ∃ (e : Expr π) (name : Bytes) (args : List (Bytes × Expr π)),
          parse (b :: bs) = .ok e ∧ e.Calls name args ∧ 0x2E ∉ name) ∧
      ∀ (inv : Invocation π) (e : Expr π) (name : Bytes) (args : List (Bytes × Expr π)),
        parseInvocation (utf8 "#" ++ b :: bs) = .ok inv → parse (b :: bs) = .ok e →
        e.Calls name args →
        inv.name = name ∧ List.Forall₂ (fun x a => x.equal a.2 = true) inv.args args) ∧
    ∀ (n s : Bytes) (e : Expr π), ScansAs .name n → 0x2E ∉ n → parse s = .ok e →
      ∃ (inv : Invocation π) (x : Expr π),
        parseInvocation (utf8 "#" ++ n ++ utf8 "(" ++ s ++ utf8 ")") = .ok inv ∧
        inv.name = n ∧ inv.args = [x] ∧ x.equal e = true ∧
        ∀ rx : Relaxer, ∃ y, rx.expand inv = .ok y ∧ y.equal (rx.relax e) = true := by
  have hhash : ∀ t : Bytes, utf8 "#" ++ t = 0x23 :: t := fun t => rfl
  constructor
  · intro b bs hb
    rw [hhash]
    refine ⟨⟨?_, ?_⟩, ?_⟩
    · intro h
      obtain ⟨inv, h⟩ := h
      obtain ⟨e, args, hparse, hcalls, hname, -⟩ := calls_of_parseInvocation hb h
      exact ⟨e, inv.name, args, hparse, hcalls, hname⟩
    · intro h
      obtain ⟨e, name, args, hparse, hcalls, hname⟩ := h
      obtain ⟨inv, h, -, -⟩ := parseInvocation_of_calls hb hparse hcalls hname
      exact ⟨inv, h⟩
    · intro inv e name args h hparse hcalls
      obtain ⟨e', args', hparse', hcalls', -, hargs⟩ := calls_of_parseInvocation hb h
      rw [hparse] at hparse'
      cases hparse'
      obtain ⟨rfl, rfl⟩ := hcalls.unique hcalls'
      exact ⟨rfl, hargs⟩
  · intro n s e hn hdot hparse
    obtain ⟨inv, x, hinv, hname, hargs, hx⟩ := parseInvocation_of_parse hn.longest hdot hparse
    refine ⟨inv, x, ?_, hname, hargs, equal_iff_erase.mpr hx, ?_⟩
    · simp only [List.append_assoc, hhash]
      exact hinv
    · intro rx
      exact ⟨rx.relax x, expand_of_parseInvocation hinv hargs rx,
        equal_iff_erase.mpr (rx.erase_relax_congr hx)⟩

/-- The tree of the text `f (a, x: b)`. -/
def labeledExample : Expr Unit :=
  .call (.ident (utf8 "f") ⟨0, 1⟩)
    [([], .ident (utf8 "a") ⟨3, 4⟩), (utf8 "x", .ident (utf8 "b") ⟨9, 10⟩)] ⟨0, 11⟩

theorem invocations_read_alike_labeledExample :
    isLetter 0x66 = true ∧ parse (0x66 :: utf8 " (a, x: b)") = .ok labeledExample ∧
    (∃ inv : Invocation Unit,
      parseInvocation (utf8 "#" ++ 0x66 :: utf8 " (a, x: b)") = .ok inv ∧ inv.name = utf8 "f" ∧
      List.Forall₂ (fun x a => x.equal a.2 = true) inv.args
        [([], .ident (utf8 "a") ⟨3, 4⟩), (utf8 "x", .ident (utf8 "b") ⟨9, 10⟩)]) ∧
    ScansAs .name (utf8 "relaxed") ∧ 0x2E ∉ utf8 "relaxed" ∧
    ∃ (inv : Invocation Unit) (x : Expr Unit),
      parseInvocation (utf8 "#" ++ utf8 "relaxed" ++ utf8 "(" ++ (0x66 :: utf8 " (a, x: b)")
        ++ utf8 ")") = .ok inv ∧
      inv.name = utf8 "relaxed" ∧ inv.args = [x] ∧ x.equal labeledExample = true ∧
      ∀ rx : Relaxer, ∃ y, rx.expand inv = .ok y ∧ y.equal (rx.relax labeledExample) = true := by
  have hletter : isLetter 0x66 = true := by decide
  have hparse : parse (0x66 :: utf8 " (a, x: b)") = .ok labeledExample := by cbv
  have hscans : ScansAs .name (utf8 "relaxed") := scansAs_of_longest (by decide)
  have hdot : 0x2E ∉ utf8 "relaxed" := by decide
  obtain ⟨hread, hvalues⟩ := (invocations_read_alike Unit).1 0x66 (utf8 " (a, x: b)") hletter
  obtain ⟨inv, hinv⟩ := hread.mpr
    ⟨labeledExample, utf8 "f", _, hparse, .call _ _ _ _, by decide⟩
  exact ⟨hletter, hparse, ⟨inv, hinv, hvalues inv labeledExample _ _ hinv hparse (.call _ _ _ _)⟩,
    hscans, hdot, (invocations_read_alike Unit).2 _ _ _ hscans hdot hparse⟩

end RelaxArith
