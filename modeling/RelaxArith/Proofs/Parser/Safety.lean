/-
Parsing is safe on every text.

Whatever the bytes of a text are, the parser that keeps its error in a flag ends without a
breakdown, and its answer is that of the parser that stops at the first error.  Its calls are nested
no deeper than six for each byte of the text and six more, so that allowing more changes nothing.
What is said about the one therefore holds of both: a tree that comes out has no missing part, and
an error points into the text; and a text on which the scanner has something to report is answered
with its first report.
-/
import RelaxArith.Proofs.Parser.Blame
import RelaxArith.Proofs.Parser.Persistence
import RelaxArith.Proofs.Scan.Reports

namespace RelaxArith

open Parse (outcome current)

variable {π : Type} {s : Bytes}

/-- The invocation of a token and the arguments in parentheses behind it. -/
def Invocation.ofArguments (t : Token) (x : List (Bytes × Expr π) × Span) : Invocation π :=
  ⟨t.lexeme.drop 1, x.1.map Prod.snd, t.span.extend x.2⟩

/-- The invocation that a row of tokens stands for. -/
def Parse.invocation (input : Bytes) : List Token → Except SyntaxError (Invocation π)
  | [] => .error ⟨(Token.endAt input.length).span, .noInvocation (Token.endAt input.length)⟩
  | t :: ts =>
    if t.category = .invocation then
      if (current input ts).isMark (utf8 "(") then
        outcome (Parse.arguments (π := π) input ts.tail) >>= fun x =>
          Parse.finish (.ofArguments t x.1) x.2
      else Parse.finish ⟨t.lexeme.drop 1, [], t.span⟩ ts
    else .error ⟨t.span, .noInvocation t⟩

/-- There is no invocation, or one without parentheses, or one with arguments in them. -/
theorem invocation_cases (ts : List Token) :
    (∃ cause, Parse.invocation (π := π) s ts = .error ⟨(current s ts).span, cause⟩) ∨
    (∃ t rest, ts = t :: rest ∧ t.category = .invocation ∧
      Parse.invocation (π := π) s ts = Parse.finish ⟨t.lexeme.drop 1, [], t.span⟩ rest) ∨
    ∃ t paren rest, ts = t :: paren :: rest ∧ t.category = .invocation ∧
      paren.isMark (utf8 "(") = true ∧
      Parse.invocation (π := π) s ts = outcome (Parse.arguments s rest) >>= fun x =>
        Parse.finish (.ofArguments t x.1) x.2 := by
  cases ts with
  | nil => exact .inl ⟨_, rfl⟩
  | cons t ts =>
    rw [Parse.invocation]
    by_cases hcat : t.category = .invocation
    · rw [if_pos hcat]
      by_cases hparen : (current s ts).isMark (utf8 "(") = true
      · cases ts with
        | nil => exact absurd hparen (by simp [current, Token.endAt, Token.isMark])
        | cons paren ts =>
          exact .inr (.inr ⟨t, paren, ts, rfl, hcat, hparen, by rw [if_pos hparen]; rfl⟩)
      · exact .inr (.inl ⟨t, ts, rfl, hcat, by rw [if_neg hparen]⟩)
    · exact .inl ⟨_, by rw [if_neg hcat]; rfl⟩

theorem parseInvocation_of_tokens {ts : List Token} (h : tokens s = .ok ts) :
    (parseInvocation s : Except SyntaxError (Invocation π)) = Parse.invocation s ts := by
  rw [parseInvocation, h]
  cases ts with
  | nil => rfl
  | cons t ts =>
    simp only [Parse.invocation]
    cases (Parse.arguments s ts.tail : Parse.Result ts.tail (List (Bytes × Expr π) × Span)) <;> rfl

namespace Persistent

/-! ### Collecting tokens -/

/-- Asking for tokens ends, with the tokens of the text and its first report. -/
theorem collect_eq {depth : Nat} {scanner : Scanner} (row : List Token)
    (error : Option SyntaxError) (hdepth : scanner.rest.length < depth) :
    collect depth scanner row error
      = some (row ++ (scanFrom scanner.offset scanner.rest).filterMap ScanEvent.token?
          ++ [Token.endAt (scanner.offset + scanner.rest.length)],
        error <|> (scanFrom scanner.offset scanner.rest).findSome? ScanEvent.error?) := by
  induction depth generalizing scanner row error with
  | zero => omega
  | succ depth ih =>
    rw [collect]
    obtain ⟨es, t, s', hnext⟩ : ∃ es t s', scanner.next = (es, t, s') := ⟨_, _, _, rfl⟩
    have hout := scanner.handsOut_next
    rw [hnext] at hout ⊢
    simp only
    rcases hout with ⟨rfl, hscan⟩ | ⟨hcat, hshort, htotal, hscan⟩
    · rw [if_pos (show (Token.endAt _).category = .endOfInput from rfl), hscan,
        filterMap_token_reports, findSome_error_reports, List.append_nil]
    · rw [if_neg hcat, ih _ _ (by omega), hscan, htotal]
      have hskip : (ScanEvent.token t :: scanFrom s'.offset s'.rest).findSome? ScanEvent.error?
          = (scanFrom s'.offset s'.rest).findSome? ScanEvent.error? := rfl
      rw [List.filterMap_append, List.findSome?_append, filterMap_token_reports,
        findSome_error_reports, hskip]
      simp [ScanEvent.token?, Option.or_assoc]

/-! ### Texts -/

section Answer

variable {α : Type} {depth : Nat} {run : List Token → Run (Except SyntaxError α)}

theorem answer_eq (run : List Token → Run (Except SyntaxError α)) (hdepth : s.length < depth) :
    answer depth s run = match tokens s with
      | .error e => some (.ok (.error e))
      | .ok ts => Option.map (Except.map Prod.fst) (run (row s ts) {}) := by
  have hcollect : collect depth (.ofText s) [] none
      = some (row s ((scan s).filterMap ScanEvent.token?), firstReport s) := by
    rw [collect_eq _ _ (show (Scanner.ofText s).rest.length < depth from hdepth)]
    simp [Scanner.ofText, row, scan, firstReport]
  unfold answer
  rw [hcollect, tokens_eq]
  cases firstReport s with
  | some e => rfl
  | none =>
    simp only [Option.bind_eq_bind, Option.bind_some]
    cases run (row s ((scan s).filterMap ScanEvent.token?)) {} <;> rfl

/-- A run on the tokens of a text decides the answer. -/
theorem answer_of_ends {ts : List Token} {answered : Except SyntaxError α}
    (hdepth : s.length < depth) (hts : tokens s = .ok ts)
    (h : Ends (run (row s ts)) {} fun a _ => a = answered) :
    answer depth s run = some (.ok answered) := by
  obtain ⟨a, p, hrun, rfl⟩ := h
  rw [answer_eq run hdepth, hts]
  simp only
  rw [hrun]
  rfl

end Answer

section Finish

variable {α : Type} {ts : List Token} {p : Progress}

/-- Nothing may be left over. -/
theorem finish_ends {r : List Token} (a : α) (hwhole : ∀ t ∈ ts, t.IsWhole) (hp : At ts p r) :
    Ends (expectEnd (row s ts) >>= fun _ => conclude a) p fun b _ => b = Parse.finish a r := by
  have hend : Ends (expectEnd (row s ts)) p fun _ p' =>
      p'.error = (match r with
        | [] => none
        | t :: _ => some (Parse.unexpected t)) := by
    unfold expectEnd
    refine .peek hp 0 ?_
    rw [List.drop_zero]
    cases r with
    | nil => exact .pure hp.1
    | cons t r =>
      have hmem : t ∈ ts := by
        obtain ⟨-, us, rfl, -⟩ := hp
        simp
      have hcat : (current s (t :: r)).category ≠ .endOfInput := category_ne_end (hwhole t hmem)
      rw [if_neg hcat]
      exact ⟨(), _, rfl, by simp [hp.1, current]⟩
  refine hend.bind fun _ p' hp' => ?_
  refine ⟨_, p', rfl, ?_⟩
  rw [hp']
  cases r <;> rfl

theorem finish_noted {e : SyntaxError} (a : α) (hp : p.error = some e) :
    Ends (expectEnd (row s ts) >>= fun _ => conclude a) p fun b _ => b = .error e := by
  have hend : Ends (expectEnd (row s ts)) p fun _ p' => p'.error = some e := by
    unfold expectEnd
    refine (peek_ends 0 p).bind ?_
    rintro t p' ⟨-, rfl⟩
    by_cases ht : t.category = .endOfInput
    · rw [if_pos ht]
      exact .pure hp
    · rw [if_neg ht]
      exact ⟨(), _, rfl, by simp [hp]⟩
  refine hend.bind fun _ p' hp' => ?_
  refine ⟨_, p', rfl, ?_⟩
  rw [hp']

/-- A value that was read, and the end of the tokens. -/
theorem Ends.finish {β : Type} {fits : α → Prop} {x : Run α} {g : α → β}
    {o : Except SyntaxError (α × List Token)} (hwhole : ∀ t ∈ ts, t.IsWhole)
    (hx : Ends x p (Matches ts fits o)) :
    Ends (x >>= fun a => expectEnd (row s ts) >>= fun _ => conclude (g a)) p
      fun b _ => b = (o >>= fun y => Parse.finish (g y.1) y.2) := by
  refine hx.bind fun a p' hmatch => ?_
  cases o with
  | error e => exact finish_noted _ hmatch
  | ok y =>
    obtain ⟨b, r⟩ := y
    obtain ⟨rfl, -, hp'⟩ := hmatch
    exact finish_ends _ hwhole hp'

end Finish

/-- The text of a token is not empty. -/
theorem lexeme_ne_nil {t : Token} (h : t.IsWhole) : t.lexeme ≠ [] := by
  intro hnil
  have hpos := longest_start_pos h
  simp [hnil] at hpos

theorem Ends.nameOf {α : Type} {p : Progress} {post : α → Progress → Prop} {t : Token}
    {f : Bytes → Run α} (ht : t.lexeme ≠ []) (hf : Ends (f (t.lexeme.drop 1)) p post) :
    Ends (Persistent.nameOf t >>= f) p post := by
  refine .bind (q := fun w p' => w = t.lexeme.drop 1 ∧ p' = p) ⟨_, p, ?_, rfl, rfl⟩ ?_
  · rw [Persistent.nameOf, if_neg (by simpa using ht)]
    rfl
  · rintro _ _ ⟨rfl, rfl⟩
    exact hf

theorem allInside_of_spelled {ts : List Token} (h : Spelled 0 s [] ts) : AllInside s ts := by
  intro t ht
  obtain ⟨-, hlt, hhi⟩ := h.span t ht
  exact ⟨by omega, by omega⟩

theorem length_of_spelled {n : Nat} {v : Bytes} {ts : List Token} (h : Spelled n s v ts) :
    ts.length ≤ s.length := by
  induction h with
  | nil => exact Nat.zero_le _
  | blank _ _ ih => exact Nat.le_succ_of_le ih
  | token hw _ ih =>
    have hpos := longest_start_pos hw
    simp only [List.length_cons, List.length_append]
    omega

theorem at_start (ts : List Token) : At ts {} ts := ⟨rfl, [], rfl, rfl⟩

section Texts

variable {depth : Nat}

/-- Parsing with a flag ends and does not break down; it answers like the parser that stops. -/
theorem parse_eq (hdepth : 6 * (s.length + 1) ≤ depth) :
    parse depth s = some (.ok (RelaxArith.parse (π := π) s)) := by
  unfold parse
  cases htokens : tokens s with
  | error e =>
    rw [answer_eq _ (by omega), htokens, RelaxArith.parse, htokens]
  | ok ts =>
    have hspelled := tokens_eq_ok_iff.mp htokens
    have hfew := length_of_spelled hspelled
    rw [parse_of_tokens htokens]
    exact answer_of_ends (by omega) htokens (.finish (g := id) hspelled.isWhole
      ((persists (allInside_of_spelled hspelled) ts.length).expression 1 (by omega) rfl
        (at_start ts)))

theorem parseInvocation_eq (hdepth : 6 * (s.length + 1) ≤ depth) :
    parseInvocation depth s = some (.ok (RelaxArith.parseInvocation (π := π) s)) := by
  unfold parseInvocation
  cases htokens : tokens s with
  | error e =>
    rw [answer_eq _ (by omega), htokens, RelaxArith.parseInvocation, htokens]
  | ok ts =>
    have hspelled := tokens_eq_ok_iff.mp htokens
    have hfew := length_of_spelled hspelled
    rw [parseInvocation_of_tokens htokens]
    refine answer_of_ends (by omega) htokens (.peek (at_start ts) 0 ?_)
    rw [List.drop_zero]
    cases ts with
    | nil =>
      rw [if_neg (by simp [current, Token.endAt])]
      exact .note rfl fun p hp => ⟨_, p, rfl, by rw [hp]; rfl⟩
    | cons t ts =>
      rw [show current s (t :: ts) = t from rfl, Parse.invocation]
      by_cases hcat : t.category = .invocation
      · rw [if_pos hcat, if_pos hcat]
        refine .next (at_start (t :: ts)) fun p hp => ?_
        refine .nameOf (lexeme_ne_nil (hspelled.isWhole t (by simp))) (.peek hp 0 ?_)
        rw [List.drop_zero]
        by_cases hparen : (current s ts).isMark (utf8 "(") = true
        · cases ts with
          | nil => exact absurd hparen (by simp [current, Token.endAt, Token.isMark])
          | cons paren ts =>
            simp only [List.length_cons] at hfew
            rw [if_pos hparen, if_pos hparen]
            exact .finish (g := Invocation.ofArguments t) hspelled.isWhole
              ((persists (allInside_of_spelled hspelled) ts.length).arguments (by omega) rfl hp
                hparen)
        · rw [if_neg hparen, if_neg hparen]
          exact finish_ends _ hspelled.isWhole hp
      · rw [if_neg hcat, if_neg hcat]
        exact .note rfl fun p hp => ⟨_, p, rfl, by rw [hp]⟩

end Texts

end Persistent

/-! ### Trees and errors -/

/-- No part of a tree is missing. -/
def Expr.Complete (e : Expr π) : Prop := e.All fun x => x.isAbsent = false

theorem Expr.WellFormed.complete {e : Expr π} (h : e.WellFormed) : e.Complete := by
  refine h.imp ?_
  intro x hx
  cases x with
  | absent k => exact absurd hx id
  | ident | literal | binary | prefixed | group | call | assign | foreign => rfl

theorem complete_of_parse {e : Expr π} (h : parse s = .ok e) : e.Complete :=
  (of_parse h).1.complete

theorem complete_of_parseInvocation {inv : Invocation π} (h : parseInvocation s = .ok inv) :
    ∀ e ∈ inv.args, e.Complete := by
  cases htokens : tokens s with
  | error e => rw [parseInvocation, htokens] at h; cases h
  | ok ts =>
    have hspelled := tokens_eq_ok_iff.mp htokens
    have hlocated := hspelled.located
    rw [parseInvocation_of_tokens htokens] at h
    rcases invocation_cases (π := π) (s := s) ts with
      ⟨cause, hinv⟩ | ⟨t, rest, rfl, -, hinv⟩ | ⟨t, paren, rest, rfl, -, -, hinv⟩
    · rw [hinv] at h
      cases h
    · rw [hinv] at h
      cases rest with
      | nil => cases h; simp
      | cons u rest => cases h
    · rw [hinv] at h
      obtain ⟨⟨⟨args, close⟩, r⟩, hargs, hfinish⟩ := bind_eq_ok.mp h
      have hproper : Grammar.AllProper rest :=
        (Grammar.allProper_of_spelled hspelled).tail.tail
      obtain ⟨us, c, rfl, -, -, hderives⟩ :=
        (Grammar.sound s rest.length).arguments rfl hproper hargs
      have hwf := hderives.wellFormed hlocated.tail.tail.left
      cases r with
      | cons u r => cases hfinish
      | nil =>
        cases hfinish
        intro e he
        obtain ⟨a, ha, rfl⟩ := List.mem_map.mp he
        exact (hwf a ha).2.complete

/-- An error of a function that was followed, or of tokens that are left over, points into the
input. -/
theorem inside_of_traced {α β : Type} {q : Reading} {ts : List Token}
    {p : List Token → Reading → Prop} {x : Except SyntaxError (α × List Token)} {g : α → β}
    {e : SyntaxError} (hts : Persistent.AllInside s ts) (hx : Traced s q ts p x)
    (h : (x >>= fun y => Parse.finish (g y.1) y.2) = .error e) : e.span.Inside s.length := by
  have hcurrent : ∀ us r, ts = us ++ r → (current s r).span.Inside s.length := by
    intro us r hr
    cases r with
    | nil => exact ⟨Nat.le_refl _, Nat.le_refl _⟩
    | cons t r => exact hts t (by simp [hr])
  cases x with
  | error e' =>
    cases h
    obtain ⟨us, r, -, hr, -, hspan, -⟩ := hx
    rw [hspan]
    exact hcurrent us r hr
  | ok y =>
    obtain ⟨a, r⟩ := y
    obtain ⟨us, -, hr, -⟩ := hx
    cases r with
    | nil => cases h
    | cons t r =>
      cases h
      exact hcurrent us (t :: r) hr

theorem inside_of_tokens {e : SyntaxError} (h : tokens s = .error e) :
    e.span.Inside s.length := by
  have hspan := span_of_firstReport (tokens_eq_error_iff.mp h)
  exact ⟨by omega, hspan.2⟩

theorem inside_of_parse {e : SyntaxError}
    (h : (parse s : Except SyntaxError (Expr π)) = .error e) : e.span.Inside s.length := by
  cases htokens : tokens s with
  | error e' =>
    rw [parse, htokens] at h
    cases h
    exact inside_of_tokens htokens
  | ok ts =>
    have hspelled := tokens_eq_ok_iff.mp htokens
    rw [parse_of_tokens htokens] at h
    exact inside_of_traced (g := id) (Persistent.allInside_of_spelled hspelled)
      ((follows s ts.length).expression 1 rfl (Reading.before_operand [] ts)) h

theorem inside_of_parseInvocation {e : SyntaxError}
    (h : (parseInvocation s : Except SyntaxError (Invocation π)) = .error e) :
    e.span.Inside s.length := by
  cases htokens : tokens s with
  | error e' =>
    rw [parseInvocation, htokens] at h
    cases h
    exact inside_of_tokens htokens
  | ok ts =>
    have hspelled := tokens_eq_ok_iff.mp htokens
    have hinside := Persistent.allInside_of_spelled hspelled
    rw [parseInvocation_of_tokens htokens] at h
    rcases invocation_cases (π := π) (s := s) ts with
      ⟨cause, hinv⟩ | ⟨t, rest, rfl, -, hinv⟩ | ⟨t, paren, rest, rfl, -, -, hinv⟩
    · rw [hinv] at h
      cases h
      cases ts with
      | nil => exact ⟨Nat.le_refl _, Nat.le_refl _⟩
      | cons t ts => exact hinside t (by simp)
    · rw [hinv] at h
      cases rest with
      | nil => cases h
      | cons u rest => cases h; exact hinside u (by simp)
    · rw [hinv] at h
      refine inside_of_traced (g := Invocation.ofArguments t) ?_
        ((follows (π := π) s rest.length).arguments [] rfl) h
      exact fun u hu => hinside u (by simp [hu])

/-- **Parsing is safe on every text.** It ends: with an error kept in a flag, no missing tree is
ever asked for its span and no text is cut out where there is none, and the answer is the same as
that of the parser that stops, as soon as calls may be nested six times for each byte and six times
more.  Trees have no missing parts.  Errors point into the text, and a text on which the scanner
reports something is answered with its first report. -/
theorem parsing_safe (π : Type) (s : Bytes) :
    (∀ depth, 6 * (s.length + 1) ≤ depth →
      Persistent.parse depth s = some (.ok (parse s : Except SyntaxError (Expr π))) ∧
      Persistent.parseInvocation depth s
        = some (.ok (parseInvocation s : Except SyntaxError (Invocation π)))) ∧
    (∀ e : Expr π, parse s = .ok e → e.Complete) ∧
    (∀ inv : Invocation π, parseInvocation s = .ok inv → ∀ e ∈ inv.args, e.Complete) ∧
    (∀ e, (parse s : Except SyntaxError (Expr π)) = .error e ∨
        (parseInvocation s : Except SyntaxError (Invocation π)) = .error e →
      e.span.lo ≤ e.span.hi ∧ e.span.hi ≤ s.length) ∧
    ∀ e, firstReport s = some e →
      (parse s : Except SyntaxError (Expr π)) = .error e ∧
      (parseInvocation s : Except SyntaxError (Invocation π)) = .error e := by
  refine ⟨?_, fun e => complete_of_parse, fun inv => complete_of_parseInvocation, ?_, ?_⟩
  · intro depth hdepth
    exact ⟨Persistent.parse_eq hdepth, Persistent.parseInvocation_eq hdepth⟩
  · rintro e (h | h)
    · exact inside_of_parse h
    · exact inside_of_parseInvocation h
  · intro e he
    have htokens := tokens_eq_error_iff.mpr he
    constructor
    · rw [parse, htokens]
    · rw [parseInvocation, htokens]

end RelaxArith
