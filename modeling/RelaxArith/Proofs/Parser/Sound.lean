/-
Whatever the parser accepts has a derivation.

The parser's functions call each other on fewer and fewer tokens, so this is an induction on
their number: `Sound n` collects what the functions promise on `n` tokens, and each promise is
kept under the assumption that all of them are kept on fewer.

The loop is where the two notions of precedence meet.  It climbs at a level `k`, but has a tree of
some tighter level `m` on its left and knows that the next operator does not bind more tightly
than `m` would allow; so an operator of a level between the two finds a left operand of the level
that the grammar asks for, and after it the same is known of its own level.

The parser asks for a mark by its text alone.  A scanner never gives an operator the text of a
punctuation mark, and that is all that is assumed of the tokens.
-/
import RelaxArith.Proofs.Parser.Complete

namespace RelaxArith

/-- A token that is not an operator spelled like a punctuation mark. -/
def Token.Proper (t : Token) : Prop := t.category = .operator → t.lexeme ∉ Grammar.marks

namespace Grammar

open Parse

variable {π : Type} {input : Bytes}

/-! ### Single tokens -/

theorem isPunctuation_of_isMark {t : Token} {mark : String} (ht : t.Proper)
    (hmark : utf8 mark ∈ marks) (h : t.isMark (utf8 mark) = true) : t.IsPunctuation mark := by
  simp only [Token.isMark, Bool.and_eq_true, Bool.or_eq_true, beq_iff_eq] at h
  obtain ⟨hcat | hcat, hlexeme⟩ := h
  · exact absurd (hlexeme ▸ hmark) (ht hcat)
  · exact ⟨hcat, hlexeme⟩

theorem of_binding? {t : Token} {k : Nat} {b : Binding} (h : binding? k t = some b) :
    t.category = .operator ∧ t.lexeme ∈ operatorsAt b.precedence ∧ k ≤ b.precedence ∧
      b.rightLevel = levelAfter b.precedence := by
  unfold binding? at h
  split at h
  · rename_i hcat
    obtain ⟨hb, hk⟩ := Option.filter_eq_some_iff.mp h
    exact ⟨beq_iff_eq.mp hcat, (mem_of_binding hb).1, of_decide_eq_true hk,
      rightLevel_of_binding hb⟩
  · exact absurd h (by simp)

/-- No operator binds more tightly than level 6. -/
theorem noOperator_of_seven_le {k : Nat} (hk : 7 ≤ k) (r : List Token) : NoOperator k r := by
  intro t _
  cases hb : binding? k t with
  | none => rfl
  | some b =>
    obtain ⟨_, hop, hle, _⟩ := of_binding? hb
    have := (level_of_mem hop).2
    omega

theorem Derives.loosen {j k : Nat} {ts : List Token} {e : Expr π}
    (h : Derives input ts (.expr k e)) (hj : 1 ≤ j) (hjk : j ≤ k) (hk : k ≤ 9) :
    Derives input ts (.expr j e) := by
  induction k with
  | zero => omega
  | succ k ih =>
    rcases Nat.lt_or_ge k j with hlt | hge
    · have : j = k + 1 := by omega
      rwa [this]
    · exact ih (.tighter (by omega) (by omega) h) hge (by omega)

/-- An operator with operands of the levels on its two sides. -/
theorem Derives.combine {ts us : List Token} {k : Nat} {l r : Expr π} {t : Token}
    (hcat : t.category = .operator) (hop : t.lexeme ∈ operatorsAt k)
    (hl : Derives input ts (.expr (levelBefore k) l))
    (hr : Derives input us (.expr (levelAfter k) r)) :
    Derives input (ts ++ t :: us) (.expr k (Parse.combine t.lexeme l r)) := by
  obtain ⟨hlo, hhi⟩ := level_of_mem hop
  unfold Parse.combine
  by_cases hk : k = 1
  · subst hk
    by_cases heq : t.lexeme = utf8 "="
    · rw [if_pos heq]
      exact .assignment hl ⟨hcat, heq⟩ hr
    · rw [if_neg heq]
      exact .compound hl hcat hop heq hr
  · rw [if_neg (ne_equals_of_mem (by omega) hop)]
    rw [levelBefore, if_neg hk] at hl
    rw [levelAfter, if_neg hk] at hr
    exact .operation (by omega) hhi hl hcat hop hr

/-! ### What each function promises -/

/-- None of the tokens is an operator spelled like a punctuation mark. -/
def AllProper (ts : List Token) : Prop := ∀ t ∈ ts, t.Proper

theorem AllProper.right {ts us : List Token} (h : AllProper (ts ++ us)) : AllProper us :=
  fun t ht => h t (List.mem_append_right ts ht)

theorem AllProper.tail {t : Token} {ts : List Token} (h : AllProper (t :: ts)) : AllProper ts :=
  fun u hu => h u (List.mem_cons_of_mem t hu)

/-- What the parser's functions promise on `n` tokens: the tokens they take make up a phrase. -/
structure Sound (π : Type) (input : Bytes) (n : Nat) : Prop where
  expression : ∀ {ts r : List Token} {k : Nat} {e : Expr π}, ts.length = n → AllProper ts →
    1 ≤ k → k ≤ 7 → outcome (expression input k ts) = .ok (e, r) →
    ∃ us, ts = us ++ r ∧ Derives input us (.expr k e) ∧ NoOperator k r
  climb : ∀ {ts us r : List Token} {k m : Nat} {left e : Expr π}, ts.length = n → AllProper ts →
    1 ≤ k → k ≤ m → m ≤ 7 → Derives input us (.expr m left) → NoOperator (levelAfter m) ts →
    outcome (climb input k left ts) = .ok (e, r) →
    ∃ vs, ts = vs ++ r ∧ Derives input (us ++ vs) (.expr k e) ∧ NoOperator k r
  operand : ∀ {ts r : List Token} {e : Expr π}, ts.length = n → AllProper ts →
    outcome (operand input ts) = .ok (e, r) →
    ∃ us, ts = us ++ r ∧ Derives input us (.expr 7 e)
  primary : ∀ {t : Token} {ts r : List Token} {e : Expr π}, ts.length = n → AllProper ts →
    outcome (primary input t ts) = .ok (e, r) →
    ∃ us, ts = us ++ r ∧ Derives input (t :: us) (.expr 9 e)
  suffixes : ∀ {ts us r : List Token} {f e : Expr π}, ts.length = n → AllProper ts →
    Derives input us (.expr 8 f) → outcome (suffixes input f ts) = .ok (e, r) →
    ∃ vs, ts = vs ++ r ∧ Derives input (us ++ vs) (.expr 8 e)
  elements : ∀ {ts r : List Token} {es : List (Expr π)}, ts.length = n → AllProper ts →
    outcome (elements input ts) = .ok (es, r) →
    ∃ us, ts = us ++ r ∧ Derives input us (.elements es)
  arguments : ∀ {ts r : List Token} {args : List (Bytes × Expr π)} {s : Span},
    ts.length = n → AllProper ts → outcome (arguments input ts) = .ok ((args, s), r) →
    ∃ us c, ts = us ++ c :: r ∧ c.IsPunctuation ")" ∧ c.span = s ∧
      Derives input us (.arguments args)
  argumentList : ∀ {ts r : List Token} {args : List (Bytes × Expr π)}, ts.length = n →
    AllProper ts → outcome (argumentList input ts) = .ok (args, r) →
    ∃ us, ts = us ++ r ∧ Derives input us (.argumentList args)

/-- A mark that was asked for and found. -/
theorem of_expect {mark : String} {ts r : List Token} {c : Token} (hproper : AllProper ts)
    (hmark : utf8 mark ∈ marks) (h : outcome (expect input mark ts) = .ok (c, r)) :
    ts = c :: r ∧ c.IsPunctuation mark := by
  cases ts with
  | nil => rw [expect] at h; cases h
  | cons t ts =>
    rw [outcome_expect] at h
    split at h
    · rename_i ht
      cases h
      exact ⟨rfl, isPunctuation_of_isMark (hproper c (by simp)) hmark ht⟩
    · cases h

section Step

variable {n : Nat} (ih : ∀ m < n, Sound π input m)

include ih

theorem climb_sound {ts us r : List Token} {k m : Nat} {left e : Expr π} (hlen : ts.length = n)
    (hproper : AllProper ts) (hk : 1 ≤ k) (hkm : k ≤ m) (hm : m ≤ 7)
    (hleft : Derives input us (.expr m left)) (hnone : NoOperator (levelAfter m) ts)
    (h : outcome (climb input k left ts) = .ok (e, r)) :
    ∃ vs, ts = vs ++ r ∧ Derives input (us ++ vs) (.expr k e) ∧ NoOperator k r := by
  cases ts with
  | nil =>
    rw [outcome_climb_nil] at h
    cases h
    refine ⟨[], rfl, ?_, fun t ht => by simp at ht⟩
    rw [List.append_nil]
    exact hleft.loosen hk hkm (by omega)
  | cons t ts =>
    rw [outcome_climb_cons] at h
    cases hb : binding? k t with
    | none =>
      rw [hb] at h
      cases h
      refine ⟨[], rfl, ?_, fun u hu => by cases hu; exact hb⟩
      rw [List.append_nil]
      exact hleft.loosen hk hkm (by omega)
    | some b =>
      rw [hb] at h
      obtain ⟨⟨right, r₁⟩, hright, hrest⟩ := bind_eq_ok.mp h
      obtain ⟨hcat, hop, hkb, hlevel⟩ := of_binding? hb
      obtain ⟨hlo, hhi⟩ := level_of_mem hop
      -- The operator does not bind more tightly than the tree on the left allows.
      have hbm : b.precedence < levelAfter m := by
        refine Nat.lt_of_not_le fun hc => ?_
        have hsome := binding?_of_mem hcat hop hc
        rw [hnone t rfl] at hsome
        cases hsome
      have hm1 : m = 1 → b.precedence < 1 := fun hm => by rwa [levelAfter, if_pos hm] at hbm
      have hbm' : b.precedence ≤ m := by
        unfold levelAfter at hbm
        split at hbm <;> omega
      rw [hlevel] at hright
      have hafter := levelAfter_bounds hlo hhi
      simp only [List.length_cons] at hlen
      obtain ⟨vs, rfl, hderives, hnext⟩ :=
        (ih ts.length (by omega)).expression rfl hproper.tail hafter.1 hafter.2 hright
      have hcombined : Derives input (us ++ t :: vs)
          (.expr b.precedence (Parse.combine t.lexeme left right)) := by
        have hbefore : levelBefore b.precedence ≤ m := by
          unfold levelBefore
          split <;> omega
        exact .combine hcat hop
          (hleft.loosen (levelBefore_bounds hlo hhi).1 hbefore (by omega)) hderives
      have hshort : r₁.length < n := by
        rw [List.length_append] at hlen
        omega
      obtain ⟨ws, rfl, hwhole, hstop⟩ := (ih r₁.length hshort).climb rfl
        hproper.tail.right hk hkb (by omega) hcombined hnext hrest
      refine ⟨t :: (vs ++ ws), by simp, ?_, hstop⟩
      rwa [List.append_assoc, List.cons_append] at hwhole

theorem suffixes_sound {ts us r : List Token} {f e : Expr π} (hlen : ts.length = n)
    (hproper : AllProper ts) (hf : Derives input us (.expr 8 f))
    (h : outcome (suffixes input f ts) = .ok (e, r)) :
    ∃ vs, ts = vs ++ r ∧ Derives input (us ++ vs) (.expr 8 e) := by
  cases ts with
  | nil =>
    rw [outcome_suffixes_nil] at h
    cases h
    exact ⟨[], rfl, by rwa [List.append_nil]⟩
  | cons t ts =>
    simp only [List.length_cons] at hlen
    rw [outcome_suffixes_cons] at h
    split at h
    · rename_i ht
      have ho := isPunctuation_of_isMark (hproper t (by simp)) (by decide) ht
      obtain ⟨⟨⟨args, s⟩, r₁⟩, hargs, hrest⟩ := bind_eq_ok.mp h
      obtain ⟨vs, c, rfl, hc, rfl, hderives⟩ :=
        (ih ts.length (by omega)).arguments rfl hproper.tail hargs
      simp only [List.length_append, List.length_cons] at hlen
      obtain ⟨ws, rfl, hwhole⟩ := (ih r₁.length (by omega)).suffixes rfl
        hproper.tail.right.tail (.call hf ho hderives hc) hrest
      exact ⟨t :: (vs ++ c :: ws), by simp, by simpa using hwhole⟩
    · split at h
      · rename_i ht
        have ho := isPunctuation_of_isMark (hproper t (by simp)) (by decide) ht
        obtain ⟨⟨i, r₁⟩, hi, hrest⟩ := bind_eq_ok.mp h
        obtain ⟨⟨c, r₂⟩, hexpect, hmore⟩ := bind_eq_ok.mp hrest
        obtain ⟨vs, rfl, hderives, _⟩ :=
          (ih ts.length (by omega)).expression rfl hproper.tail (by omega) (by omega) hi
        obtain ⟨rfl, hc⟩ := of_expect hproper.tail.right (by decide) hexpect
        simp only [List.length_append, List.length_cons] at hlen
        obtain ⟨ws, rfl, hwhole⟩ := (ih r₂.length (by omega)).suffixes rfl
          hproper.tail.right.tail (.subscript hf ho hderives hc) hmore
        exact ⟨t :: (vs ++ c :: ws), by simp, by simpa using hwhole⟩
      · cases h
        exact ⟨[], rfl, by rwa [List.append_nil]⟩

theorem operand_sound {ts r : List Token} {e : Expr π} (hlen : ts.length = n)
    (hproper : AllProper ts) (h : outcome (operand input ts) = .ok (e, r)) :
    ∃ us, ts = us ++ r ∧ Derives input us (.expr 7 e) := by
  cases ts with
  | nil => rw [outcome_operand_nil] at h; cases h
  | cons t ts =>
    simp only [List.length_cons] at hlen
    rw [outcome_operand_cons] at h
    split at h
    · rename_i ht
      obtain ⟨⟨x, r₁⟩, hx, hrest⟩ := bind_eq_ok.mp h
      cases hrest
      obtain ⟨us, rfl, hderives⟩ := (ih ts.length (by omega)).operand rfl hproper.tail hx
      obtain ⟨hcat, hop⟩ := Bool.and_eq_true_iff.mp ht
      exact ⟨t :: us, rfl, .prefixed (beq_iff_eq.mp hcat) (List.elem_iff.mp hop) hderives⟩
    · obtain ⟨⟨f, r₁⟩, hf, hrest⟩ := bind_eq_ok.mp h
      obtain ⟨us, rfl, hderives⟩ := (ih ts.length (by omega)).primary rfl hproper.tail hf
      rw [List.length_append] at hlen
      obtain ⟨vs, rfl, hwhole⟩ := (ih r₁.length (by omega)).suffixes rfl hproper.tail.right
        (.tighter (by omega) (by omega) hderives) hrest
      exact ⟨t :: (us ++ vs), by simp, .tighter (by omega) (by omega) hwhole⟩

theorem expression_sound {ts r : List Token} {k : Nat} {e : Expr π} (hlen : ts.length = n)
    (hproper : AllProper ts) (hlo : 1 ≤ k) (hhi : k ≤ 7)
    (h : outcome (expression input k ts) = .ok (e, r)) :
    ∃ us, ts = us ++ r ∧ Derives input us (.expr k e) ∧ NoOperator k r := by
  rw [outcome_expression] at h
  obtain ⟨⟨left, r₁⟩, hleft, hrest⟩ := bind_eq_ok.mp h
  obtain ⟨us, rfl, hderives⟩ := operand_sound ih hlen hproper hleft
  -- An operand takes at least one token, so the loop has fewer to go through.
  have hshort : r₁.length < n := by
    obtain ⟨t, rest, rfl, _⟩ := hderives.begins
    simp only [List.length_append, List.length_cons] at hlen
    omega
  obtain ⟨vs, rfl, hwhole, hstop⟩ := (ih r₁.length hshort).climb rfl hproper.right hlo hhi
    (Nat.le_refl 7) hderives (noOperator_of_seven_le (by decide) _) hrest
  exact ⟨us ++ vs, by simp, hwhole, hstop⟩

theorem elements_sound {ts r : List Token} {es : List (Expr π)} (hlen : ts.length = n)
    (hproper : AllProper ts) (h : outcome (elements input ts) = .ok (es, r)) :
    ∃ us, ts = us ++ r ∧ Derives input us (.elements es) := by
  rw [outcome_elements] at h
  obtain ⟨⟨e, r₁⟩, he, hrest⟩ := bind_eq_ok.mp h
  obtain ⟨us, rfl, hderives, _⟩ :=
    expression_sound ih hlen hproper (by omega) (by omega) he
  cases r₁ with
  | nil => cases hrest; exact ⟨us, rfl, .lastElement hderives⟩
  | cons t r₁ =>
    simp only at hrest
    split at hrest
    · rename_i ht
      obtain ⟨⟨es', r₂⟩, hes, hrest⟩ := bind_eq_ok.mp hrest
      cases hrest
      simp only [List.length_append, List.length_cons] at hlen
      obtain ⟨vs, rfl, hmore⟩ := (ih r₁.length (by omega)).elements rfl hproper.right.tail hes
      have hcomma := isPunctuation_of_isMark (hproper.right t (by simp)) (by decide) ht
      exact ⟨us ++ t :: vs, by simp, .nextElement hderives hcomma hmore⟩
    · cases hrest
      exact ⟨us, rfl, .lastElement hderives⟩

/-- The label of an argument, if it has one, stands in front of the rest of it. -/
theorem argument_sound {ts r : List Token} {e : Expr π} (hlen : ts.length = n)
    (hproper : AllProper ts)
    (h : outcome (expression input 1 (label ts).2.1) = .ok (e, r)) :
    ∃ us, ts = us ++ r ∧ Derives input us (.argument ((label ts).1, e)) := by
  by_cases hlabel : ∃ t c rest, ts = t :: c :: rest ∧ t.category = .name ∧ c.isMark (utf8 ":")
  · obtain ⟨t, c, rest, rfl, hname, hc⟩ := hlabel
    have heq : label (t :: c :: rest) = (t.lexeme, ⟨rest, Nat.le_add_right _ 2⟩) := by
      simp [label, hname, hc]
    rw [heq] at h ⊢
    simp only [List.length_cons] at hlen
    obtain ⟨us, rfl, hderives, _⟩ := (ih rest.length (by omega)).expression rfl
      hproper.tail.tail (by omega) (by omega) h
    have hcolon := isPunctuation_of_isMark (hproper c (by simp)) (by decide) hc
    exact ⟨t :: c :: us, rfl, .labeled hname hcolon hderives⟩
  · have heq : label ts = ([], ⟨ts, Nat.le_refl _⟩) := by
      cases ts with
      | nil => rfl
      | cons t ts =>
        cases ts with
        | nil => rfl
        | cons c rest =>
          have hnone : ¬(t.category = .name ∧ c.isMark (utf8 ":")) := by
            rintro ⟨hname, hc⟩
            exact hlabel ⟨t, c, rest, rfl, hname, hc⟩
          simp only [label, Bool.and_eq_true, beq_iff_eq, hnone, if_false]
    rw [heq] at h ⊢
    obtain ⟨us, rfl, hderives, _⟩ :=
      expression_sound ih hlen hproper (by omega) (by omega) h
    exact ⟨us, rfl, .unlabeled hderives⟩

theorem argumentList_sound {ts r : List Token} {args : List (Bytes × Expr π)}
    (hlen : ts.length = n) (hproper : AllProper ts)
    (h : outcome (argumentList input ts) = .ok (args, r)) :
    ∃ us, ts = us ++ r ∧ Derives input us (.argumentList args) := by
  rw [outcome_argumentList] at h
  obtain ⟨⟨e, r₁⟩, he, hrest⟩ := bind_eq_ok.mp h
  obtain ⟨us, hts, hderives⟩ := argument_sound ih hlen hproper he
  cases r₁ with
  | nil => cases hrest; exact ⟨us, hts, .lastArgument hderives⟩
  | cons t r₁ =>
    simp only at hrest
    split at hrest
    · rename_i ht
      obtain ⟨⟨args', r₂⟩, hargs, hrest⟩ := bind_eq_ok.mp hrest
      cases hrest
      rw [hts] at hproper hlen
      simp only [List.length_append, List.length_cons] at hlen
      obtain ⟨vs, rfl, hmore⟩ :=
        (ih r₁.length (by omega)).argumentList rfl hproper.right.tail hargs
      have hcomma := isPunctuation_of_isMark (hproper.right t (by simp)) (by decide) ht
      exact ⟨us ++ t :: vs, by simp [hts], .nextArgument hderives hcomma hmore⟩
    · cases hrest
      exact ⟨us, hts, .lastArgument hderives⟩

theorem arguments_sound {ts r : List Token} {args : List (Bytes × Expr π)} {s : Span}
    (hlen : ts.length = n) (hproper : AllProper ts)
    (h : outcome (arguments input ts) = .ok ((args, s), r)) :
    ∃ us c, ts = us ++ c :: r ∧ c.IsPunctuation ")" ∧ c.span = s ∧
      Derives input us (.arguments args) := by
  cases ts with
  | nil => rw [outcome_arguments_nil] at h; cases h
  | cons t ts =>
    rw [outcome_arguments_cons] at h
    split at h
    · rename_i ht
      cases h
      have hclose := isPunctuation_of_isMark (hproper t (by simp)) (by decide) ht
      exact ⟨[], t, rfl, hclose, rfl, .noArguments⟩
    · obtain ⟨⟨args', r₁⟩, hargs, hrest⟩ := bind_eq_ok.mp h
      obtain ⟨⟨c, r₂⟩, hc, hrest⟩ := bind_eq_ok.mp hrest
      cases hrest
      obtain ⟨us, hts, hderives⟩ := argumentList_sound ih hlen hproper hargs
      rw [hts] at hproper ⊢
      obtain ⟨rfl, hclose⟩ := of_expect hproper.right (by decide) hc
      exact ⟨us, c, rfl, hclose, rfl, .someArguments hderives⟩

theorem primary_sound {t : Token} {ts r : List Token} {e : Expr π} (hlen : ts.length = n)
    (hproper : AllProper ts) (h : outcome (primary input t ts) = .ok (e, r)) :
    ∃ us, ts = us ++ r ∧ Derives input (t :: us) (.expr 9 e) := by
  rw [outcome_primary] at h
  cases hcat : t.category with
  | name => rw [hcat] at h; cases h; exact ⟨[], rfl, .name hcat⟩
  | number => rw [hcat] at h; cases h; exact ⟨[], rfl, .number hcat⟩
  | text => rw [hcat] at h; cases h; exact ⟨[], rfl, .text hcat⟩
  | punctuation =>
    rw [hcat] at h
    simp only at h
    split at h
    · rename_i hopen
      split at h
      · cases h
      · obtain ⟨⟨es, r₁⟩, hes, hrest⟩ := bind_eq_ok.mp h
        obtain ⟨⟨c, r₂⟩, hc, hrest⟩ := bind_eq_ok.mp hrest
        cases hrest
        obtain ⟨us, rfl, hderives⟩ := elements_sound ih hlen hproper hes
        obtain ⟨rfl, hclose⟩ := of_expect hproper.right (by decide) hc
        exact ⟨us ++ [c], by simp, .group ⟨hcat, hopen⟩ hderives hclose⟩
    · cases h
  | operator => rw [hcat] at h; cases h
  | invocation => rw [hcat] at h; cases h
  | endOfInput => rw [hcat] at h; cases h

end Step

/-- Every function of the parser keeps its promise, on any number of tokens. -/
theorem sound (input : Bytes) (n : Nat) : Sound π input n := by
  induction n using Nat.strongRecOn with
  | ind n ih =>
    exact ⟨expression_sound ih, climb_sound ih, operand_sound ih, primary_sound ih,
      suffixes_sound ih, elements_sound ih, arguments_sound ih, argumentList_sound ih⟩

end Grammar
end RelaxArith
