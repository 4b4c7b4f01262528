/-
The parser accepts exactly its grammar.

Completeness and soundness were shown for rows of tokens.  Here they are put together with the
scanner: a text is parsed exactly if it scans without a report and its tokens have a derivation,
and the tree is that of the derivation.  Since the parser is a function, it follows that no row of
tokens has derivations of two trees.
-/
import RelaxArith.Proofs.Parser.Complete
import RelaxArith.Proofs.Parser.Sound
import RelaxArith.Proofs.Scan.Spelling

namespace RelaxArith

open Automaton

/-- What scans as a punctuation mark never scans as an operator. -/
theorem Token.IsWhole.proper {t : Token} (h : t.IsWhole) : t.Proper := by
  have hall : ∀ m ∈ Grammar.marks, longest .start m = some (.token .punctuation, m.length) := by
    decide
  intro hcat hmark
  have hpunctuation := hall t.lexeme hmark
  rw [h, hcat] at hpunctuation
  cases hpunctuation

namespace Grammar

open Parse

variable {π : Type} {input : Bytes}

theorem allProper_of_spelled {n : Nat} {s v : Bytes} {ts : List Token} (h : Spelled n s v ts) :
    AllProper ts :=
  fun t ht => (h.isWhole t ht).proper

/-- The parser takes the whole row of tokens of a derivation. -/
theorem Derives.expression {ts : List Token} {e : Expr π} (h : Derives input ts (.expr 1 e)) :
    outcome (expression input 1 ts) = .ok (e, []) := by
  have hreads : Reads input ts 1 e := h.accepted
  have hread := hreads.whole rfl [] (by simp [NoSuffix]) (by simp [NoOperator])
  rwa [List.append_nil] at hread

theorem derives_of_expression {ts : List Token} {e : Expr π} (hproper : AllProper ts)
    (h : outcome (expression input 1 ts) = .ok (e, [])) : Derives input ts (.expr 1 e) := by
  obtain ⟨us, rfl, hus, _⟩ :=
    (sound input ts.length).expression rfl hproper (Nat.le_refl 1) (by decide) h
  rwa [List.append_nil]

/-- No row of tokens has two trees. -/
theorem Derives.unique {ts : List Token} {e e' : Expr π} (h : Derives input ts (.expr 1 e))
    (h' : Derives input ts (.expr 1 e')) : e = e' := by
  have hboth := h.expression.symm.trans h'.expression
  cases hboth
  rfl

end Grammar

open Grammar Parse

variable {π : Type}

theorem parse_of_tokens {s : Bytes} {ts : List Token} (h : tokens s = .ok ts) :
    (parse s : Except SyntaxError (Expr π))
      = outcome (expression s 1 ts) >>= fun x => finish x.1 x.2 := by
  rw [parse, h]
  dsimp only
  cases (expression s 1 ts : Result ts (Expr π)) <;> rfl

theorem parse_eq_ok_iff {s : Bytes} {e : Expr π} :
    parse s = .ok e ↔ ∃ ts, Spelled 0 s [] ts ∧ Derives s ts (.expr 1 e) := by
  constructor
  · intro h
    cases htokens : tokens s with
    | error err => rw [parse, htokens] at h; cases h
    | ok ts =>
      have hspelled := tokens_eq_ok_iff.mp htokens
      rw [parse_of_tokens htokens, bind_eq_ok] at h
      obtain ⟨⟨x, r⟩, hx, hfinish⟩ := h
      cases r with
      | nil =>
        cases hfinish
        exact ⟨ts, hspelled, derives_of_expression (allProper_of_spelled hspelled) hx⟩
      | cons t r => cases hfinish
  · rintro ⟨ts, hspelled, hderives⟩
    rw [parse_of_tokens (tokens_eq_ok_iff.mpr hspelled), hderives.expression]
    rfl

/-- **The parser accepts exactly the texts of the grammar**: a tree is the answer exactly if the
text scans without a report and its tokens derive the tree. And a row of tokens derives one tree
at most. -/
theorem parse_iff_derives :
    (∀ (s : Bytes) (e : Expr π), parse s = .ok e ↔
      ∃ ts : List Token, scan s = ts.map .token ∧ Derives s ts (.expr 1 e)) ∧
    (∀ (s : Bytes) (ts : List Token) (e e' : Expr π),
      Derives s ts (.expr 1 e) → Derives s ts (.expr 1 e') → e = e') := by
  refine ⟨fun s e => ?_, fun s ts e e' h h' => h.unique h'⟩
  rw [parse_eq_ok_iff]
  constructor
  · rintro ⟨ts, hspelled, hderives⟩
    exact ⟨ts, scan_eq_iff.mpr hspelled, hderives⟩
  · rintro ⟨ts, hscan, hderives⟩
    exact ⟨ts, scan_eq_iff.mp hscan, hderives⟩

end RelaxArith
