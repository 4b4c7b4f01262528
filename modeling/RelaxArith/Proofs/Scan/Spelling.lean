/-
Texts that are nothing but tokens and blanks.

`Spelled n s v ts` says that the text `s`, written at offset `n` with `v` behind it, is made of the
tokens `ts` and blanks.  What stands behind matters, since tokens are as long as they can be; with
it in the statement, spellings are simply put one behind the other.  A text scans without an error
exactly if it is spelled with nothing behind it.

What stands behind can be exchanged: for nothing at all, since cutting a text off behind a token
keeps the token; and nothing for anything that begins with a separator.
-/
import RelaxArith.Proofs.Scan.Runs

namespace RelaxArith

open Automaton

/-- A text at an offset, with another behind it, is made of tokens and blanks. -/
inductive Spelled : Nat → Bytes → Bytes → List Token → Prop
  | nil (n : Nat) (v : Bytes) : Spelled n [] v []
  | blank {n : Nat} {b : UInt8} {s v : Bytes} {ts : List Token} (hb : isBlank b = true)
      (h : Spelled (n + 1) s v ts) : Spelled n (b :: s) v ts
  | token {n : Nat} {c : Category} {w s v : Bytes} {ts : List Token}
      (hw : longest .start (w ++ (s ++ v)) = some (.token c, w.length))
      (h : Spelled (n + w.length) s v ts) :
      Spelled n (w ++ s) v (⟨c, w, ⟨n, n + w.length⟩⟩ :: ts)

/-! ### One step of the scanner -/

theorem longest_start_pos {s : Bytes} {c : Automaton.Class} {n : Nat}
    (h : longest .start s = some (c, n)) : 0 < n := by
  obtain ⟨_, q, hrun, hclass⟩ := run_of_longest h
  rcases Nat.eq_zero_or_pos n with rfl | hpos
  · rw [List.take_zero] at hrun
    cases hrun
    cases hclass
  · exact hpos

theorem scanFrom_token {n : Nat} {c : Category} {w s : Bytes}
    (h : longest .start (w ++ s) = some (.token c, w.length)) :
    scanFrom n (w ++ s) = .token ⟨c, w, ⟨n, n + w.length⟩⟩ :: scanFrom (n + w.length) s := by
  have hpos := longest_start_pos h
  cases w with
  | nil => simp at hpos
  | cons b w =>
    have hlead : lead (b :: (w ++ s)) = (.token c, w.length + 1) := by
      rw [lead]
      rw [List.cons_append, List.length_cons] at h
      rw [h]
    rw [List.cons_append, scanFrom, hlead]
    simp [Lead.event?]

/-- A blank lead takes all blanks at once. -/
theorem scanFrom_blanks {n : Nat} {b : UInt8} (hb : isBlank b = true) (s : Bytes) :
    scanFrom n (b :: s)
      = scanFrom (n + 1 + (s.takeWhile isBlank).length) (s.drop (s.takeWhile isBlank).length) := by
  have hnext : State.next .start b = some .blank := by simp [State.next, hb]
  have hlead : lead (b :: s) = (.blank, (s.takeWhile isBlank).length + 1) := by
    rw [lead, longest_cons_of_some hnext, longest_blank]
  rw [scanFrom, hlead]
  simp only [Lead.event?, Option.toList_none, List.nil_append, Nat.add_sub_cancel]
  congr 1
  omega

/-- Blanks can just as well be skipped one by one. -/
theorem scanFrom_blank {n : Nat} {b : UInt8} (hb : isBlank b = true) (s : Bytes) :
    scanFrom n (b :: s) = scanFrom (n + 1) s := by
  rw [scanFrom_blanks hb]
  cases s with
  | nil => rfl
  | cons a s =>
    by_cases ha : isBlank a = true
    · rw [List.takeWhile_cons_of_pos ha, List.length_cons, List.drop_succ_cons, scanFrom_blanks ha]
      congr 1
      omega
    · rw [List.takeWhile_cons_of_neg ha]
      rfl

/-! ### Spelled texts scan without errors, and no others do -/

/-- A spelled text scans to its tokens, and scanning goes on with what stands behind it. -/
theorem Spelled.scanFrom_append {n : Nat} {s v : Bytes} {ts : List Token} (h : Spelled n s v ts) :
    RelaxArith.scanFrom n (s ++ v)
      = ts.map .token ++ RelaxArith.scanFrom (n + s.length) v := by
  induction h with
  | nil => rfl
  | @blank n b s v ts hb _ ih =>
    have hlength : n + (b :: s).length = n + 1 + s.length := by rw [List.length_cons]; omega
    rw [List.cons_append, scanFrom_blank hb, ih, hlength]
  | token hw _ ih =>
    rw [List.append_assoc, scanFrom_token hw, ih, List.length_append, Nat.add_assoc]
    rfl

theorem Spelled.scanFrom {n : Nat} {s : Bytes} {ts : List Token} (h : Spelled n s [] ts) :
    scanFrom n s = ts.map .token := by
  have hnothing : RelaxArith.scanFrom (n + s.length) [] = [] := by rw [RelaxArith.scanFrom]
  have hscan := h.scanFrom_append
  rwa [hnothing, List.append_nil, List.append_nil] at hscan

theorem spelled_of_scanFrom {n : Nat} {s : Bytes} {ts : List Token}
    (h : scanFrom n s = ts.map .token) : Spelled n s [] ts := by
  induction hlen : s.length using Nat.strongRecOn generalizing n s ts with
  | ind k ih =>
    cases s with
    | nil =>
      rw [scanFrom] at h
      rw [List.map_eq_nil_iff.mp h.symm]
      exact .nil n []
    | cons b s =>
      rw [List.length_cons] at hlen
      by_cases hb : isBlank b = true
      · rw [scanFrom_blank hb] at h
        exact .blank hb (ih s.length (by omega) h rfl)
      · cases hlong : longest .start (b :: s) with
        | none =>
          rw [scanFrom, lead, hlong] at h
          cases ts with
          | nil => cases h
          | cons t ts => cases h
        | some x =>
          obtain ⟨c | c, m⟩ := x
          · exact absurd (isBlank_of_longest hlong) hb
          · obtain ⟨w, u, hsplit, hwlen⟩ : ∃ w u, b :: s = w ++ u ∧ w.length = m := by
              refine ⟨(b :: s).take m, (b :: s).drop m, (List.take_append_drop m _).symm, ?_⟩
              rw [List.length_take]
              exact Nat.min_eq_left (run_of_longest hlong).1
            have hpos := longest_start_pos hlong
            have hulen : (b :: s).length = w.length + u.length := by
              rw [hsplit, List.length_append]
            rw [List.length_cons] at hulen
            rw [hsplit, ← hwlen] at hlong
            rw [hsplit, scanFrom_token hlong] at h
            rw [hsplit]
            cases ts with
            | nil => cases h
            | cons t ts =>
              obtain ⟨ht, hrest⟩ := List.cons.inj h
              cases ht
              exact .token (by rwa [List.append_nil]) (ih u.length (by omega) hrest rfl)

theorem scan_eq_iff {s : Bytes} {ts : List Token} :
    scan s = ts.map .token ↔ Spelled 0 s [] ts :=
  ⟨spelled_of_scanFrom, Spelled.scanFrom⟩

/-- The tokens of a text are there exactly if nothing in it is reported. -/
theorem tokens_eq_ok_iff {s : Bytes} {ts : List Token} :
    tokens s = .ok ts ↔ Spelled 0 s [] ts := by
  rw [← scan_eq_iff, tokens]
  generalize scan s = events
  induction events generalizing ts with
  | nil => cases ts <;> simp
  | cons event events ih =>
    rw [List.foldr_cons]
    generalize List.foldr _ (Except.ok []) events = rest at ih ⊢
    cases event with
    | error e => cases ts <;> simp
    | token t =>
      cases ts with
      | nil => cases rest <;> simp [Except.map]
      | cons u ts =>
        rw [List.map_cons, List.cons.injEq, ← ih]
        cases rest <;> simp [Except.map]

/-! ### Putting spellings together and taking them apart -/

/-- Two spelled texts, one behind the other. -/
theorem Spelled.append {n : Nat} {s u v : Bytes} {ts us : List Token}
    (hs : Spelled n s (u ++ v) ts) (hu : Spelled (n + s.length) u v us) :
    Spelled n (s ++ u) v (ts ++ us) := by
  generalize hw : u ++ v = w at hs
  induction hs with
  | nil => exact hu
  | @blank n b s w ts hb _ ih =>
    refine .blank hb (ih ?_ hw)
    rwa [Nat.add_assoc, Nat.add_comm 1]
  | @token n c x s w ts hx _ ih =>
    rw [List.append_assoc, List.cons_append]
    refine .token ?_ (ih ?_ hw)
    · rwa [List.append_assoc, hw]
    · rwa [List.length_append, ← Nat.add_assoc] at hu

/-- What stands behind a spelled text may be cut off. -/
theorem Spelled.alone {n : Nat} {s v : Bytes} {ts : List Token} (h : Spelled n s v ts) :
    Spelled n s [] ts := by
  induction h with
  | nil n v => exact .nil n []
  | blank hb _ ih => exact .blank hb ih
  | token hw _ ih =>
    refine .token ?_ ih
    rw [← List.append_assoc] at hw
    rw [List.append_nil]
    exact longest_cut hw (by rw [List.length_append]; omega)

/-- Nothing, or a text that begins with a separator. -/
def Separated (v : Bytes) : Prop := ∀ b ∈ v.head?, isSeparator b = true

/-- The longest token of a text is not changed by what is separated from the text. -/
theorem longest_append_of_separated {w v : Bytes} {c : Category} {n : Nat}
    (h : longest .start w = some (.token c, n)) (hv : Separated v) :
    longest .start (w ++ v) = some (.token c, n) := by
  rw [longest_append, h]
  intro q hq b hb
  exact next_separator (inner_of_token h hq) (hv b hb)

/-- Behind a spelled text may stand whatever begins with a separator. -/
theorem Spelled.before {n : Nat} {s v : Bytes} {ts : List Token} (h : Spelled n s [] ts)
    (hv : Separated v) : Spelled n s v ts := by
  generalize hnil : ([] : Bytes) = u at h
  induction h with
  | nil n u => exact .nil n v
  | blank hb _ ih => exact .blank hb (ih hnil)
  | token hw _ ih =>
    subst hnil
    rw [List.append_nil] at hw
    refine .token ?_ (ih rfl)
    rw [← List.append_assoc]
    exact longest_append_of_separated hw hv

/-- Behind blanks may stand anything. -/
theorem Spelled.blanks {n : Nat} {s u : Bytes} (h : Spelled n s u []) (v : Bytes) :
    Spelled n s v [] := by
  generalize hnone : ([] : List Token) = ts at h
  induction h with
  | nil n u => exact .nil n v
  | blank hb _ ih => exact .blank hb (ih hnone)
  | token => cases hnone

/-- The first tokens of a spelled text can be cut off, with a text that ends where they end. -/
theorem Spelled.split {n : Nat} {s v : Bytes} {ts us : List Token} (h : Spelled n s v (ts ++ us)) :
    ∃ s₁ s₂, s = s₁ ++ s₂ ∧ Spelled n s₁ (s₂ ++ v) ts ∧ Spelled (n + s₁.length) s₂ v us ∧
      (ts = [] → s₁ = []) ∧ ∀ t ∈ ts.getLast?, t.span.hi = n + s₁.length := by
  generalize hall : ts ++ us = all at h
  induction h generalizing ts with
  | nil n v =>
    obtain ⟨rfl, rfl⟩ := List.append_eq_nil_iff.mp hall
    exact ⟨[], [], rfl, .nil n _, .nil _ v, fun _ => rfl, by simp⟩
  | @blank n b s v all hb h ih =>
    cases ts with
    | nil =>
      subst hall
      exact ⟨[], b :: s, rfl, .nil n _, .blank hb h, fun _ => rfl, by simp⟩
    | cons t ts =>
      obtain ⟨s₁, s₂, rfl, hfirst, hsecond, _, hlast⟩ := ih hall
      have hlen : n + 1 + s₁.length = n + (b :: s₁).length := by
        rw [List.length_cons]
        omega
      rw [hlen] at hsecond hlast
      exact ⟨b :: s₁, s₂, rfl, .blank hb hfirst, hsecond, by simp, hlast⟩
  | @token n c w s v all hw h ih =>
    cases ts with
    | nil =>
      subst hall
      exact ⟨[], w ++ s, rfl, .nil n _, .token hw h, fun _ => rfl, by simp⟩
    | cons t ts =>
      obtain ⟨rfl, hrest⟩ := List.cons.inj hall
      obtain ⟨s₁, s₂, rfl, hfirst, hsecond, hnil, hlast⟩ := ih hrest
      have hlen : n + w.length + s₁.length = n + (w ++ s₁).length := by
        rw [List.length_append]
        omega
      rw [List.append_assoc] at hw
      rw [hlen] at hsecond hlast
      refine ⟨w ++ s₁, s₂, (List.append_assoc ..).symm, .token hw hfirst, hsecond, by simp, ?_⟩
      intro u hu
      cases ts with
      | nil =>
        cases hu
        rw [hnil rfl, List.append_nil]
        rfl
      | cons t' ts => exact hlast u hu

/-- A text with another behind it has its own tokens first, then those of the other. -/
theorem Spelled.behind {n : Nat} {s v : Bytes} {ts us : List Token} (h : Spelled n s v ts)
    (hall : Spelled n (s ++ v) [] us) :
    ∃ vs, us = ts ++ vs ∧ Spelled (n + s.length) v [] vs := by
  have hscan := hall.scanFrom.symm.trans h.scanFrom_append
  obtain ⟨ts', vs, rfl, hts, hvs⟩ := List.map_eq_append_iff.mp hscan
  rw [(List.map_inj_right fun _ _ => ScanEvent.token.inj).mp hts]
  exact ⟨vs, rfl, spelled_of_scanFrom hvs.symm⟩

/-- Blanks in front of the first token of a spelled text can be cut off. -/
theorem Spelled.trim {n : Nat} {s v : Bytes} {t : Token} {ts : List Token}
    (h : Spelled n s v (t :: ts)) :
    ∃ w s', s = w ++ s' ∧ Spelled (n + w.length) s' v (t :: ts) ∧ t.span.lo = n + w.length := by
  generalize hall : t :: ts = all at h
  induction h with
  | nil n v => cases hall
  | @blank n b s v all hb h ih =>
    obtain ⟨w, s', rfl, hrest, hlo⟩ := ih hall
    have hlen : n + 1 + w.length = n + (b :: w).length := by
      rw [List.length_cons]
      omega
    rw [hlen] at hrest hlo
    exact ⟨b :: w, s', rfl, hrest, hlo⟩
  | @token n c w s v all hw h ih =>
    obtain ⟨rfl, rfl⟩ := List.cons.inj hall
    exact ⟨[], w ++ s, rfl, .token hw h, rfl⟩

/-- A text that does not begin with a blank begins with its first token. -/
theorem Spelled.head {n : Nat} {s v : Bytes} {ts : List Token} {b : UInt8}
    (h : Spelled n s v ts) (hs : b ∈ s.head?) (hb : isBlank b = false) :
    ∃ t us, ts = t :: us ∧ b ∈ t.lexeme.head? := by
  cases h with
  | nil => cases hs
  | blank hblank _ =>
    cases hs
    rw [hb] at hblank
    cases hblank
  | @token _ c w s _ us hw _ =>
    have hpos := longest_start_pos hw
    cases w with
    | nil => cases hpos
    | cons a w => exact ⟨_, us, rfl, hs⟩

/-! ### The tokens of a spelled text -/

/-- What a token is, without where it stands. -/
def Token.word (t : Token) : Category × Bytes := (t.category, t.lexeme)

/-- The text of a token, on its own, is that token and nothing else. -/
def Token.IsWhole (t : Token) : Prop :=
  longest .start t.lexeme = some (.token t.category, t.lexeme.length)

theorem Spelled.isWhole {n : Nat} {s v : Bytes} {ts : List Token} (h : Spelled n s v ts) :
    ∀ t ∈ ts, t.IsWhole := by
  induction h with
  | nil => simp
  | blank _ _ ih => exact ih
  | token hw _ ih =>
    rw [List.forall_mem_cons]
    exact ⟨longest_cut hw (Nat.le_refl _), ih⟩

/-- Tokens take up room, within the text that they are the tokens of. -/
theorem Spelled.span {n : Nat} {s v : Bytes} {ts : List Token} (h : Spelled n s v ts) :
    ∀ t ∈ ts, n ≤ t.span.lo ∧ t.span.lo < t.span.hi ∧ t.span.hi ≤ n + s.length := by
  induction h with
  | nil => simp
  | blank _ _ ih =>
    intro t ht
    obtain ⟨hlo, hlt, hhi⟩ := ih t ht
    rw [List.length_cons]
    omega
  | token hw _ ih =>
    have hpos := longest_start_pos hw
    rw [List.forall_mem_cons]
    constructor
    · rw [List.length_append]
      exact ⟨Nat.le_refl _, by simpa using hpos, by simp only; omega⟩
    · intro t ht
      obtain ⟨hlo, hlt, hhi⟩ := ih t ht
      rw [List.length_append]
      omega

theorem Spelled.one {c : Category} {w v : Bytes}
    (h : longest .start (w ++ v) = some (.token c, w.length)) (n : Nat) :
    Spelled n w v [⟨c, w, ⟨n, n + w.length⟩⟩] := by
  have htoken : Spelled n (w ++ []) v [⟨c, w, ⟨n, n + w.length⟩⟩] := .token h (.nil _ v)
  rwa [List.append_nil] at htoken

/-- A text that is one token is spelled by it. -/
theorem Token.IsWhole.spelled {t : Token} (h : t.IsWhole) (n : Nat) {v : Bytes}
    (hv : Separated v) :
    Spelled n t.lexeme v [⟨t.category, t.lexeme, ⟨n, n + t.lexeme.length⟩⟩] := by
  refine Spelled.before (Spelled.one ?_ n) hv
  rw [List.append_nil]
  exact h

end RelaxArith
