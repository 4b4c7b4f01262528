/-
The parser that keeps its error in a flag ends, does not break down, and answers like the other.

As long as no error is noted, a run is at some place in the tokens, and each function does there
what its namesake does that stops at the first error: it moves on by the same tokens and comes back
with the same tree, which is there and has a span inside the input.  When the namesake stops, the
function comes back with that error noted.  Whoever called it goes on, but only through steps that
keep the note and need nothing of a tree that is not there.

That runs end is part of the statement.  Once an error is noted, a loop that is entered is left
at once; before that, no more than six calls are nested in each other before a token is taken.  So
a depth of six for each token that is left and six more is enough, which is an induction on their
number once more.
-/
import Mathlib.Data.List.GetD
import RelaxArith.Proofs.Parser.Steps
import RelaxArith.Proofs.Parser.Persistent

namespace RelaxArith

/-- A span of a text of some length. -/
def Span.Inside (length : Nat) (s : Span) : Prop := s.lo ≤ s.hi ∧ s.hi ≤ length

theorem Span.Inside.extend {length : Nat} {s t : Span} (hs : s.Inside length)
    (ht : t.Inside length) : (s.extend t).Inside length := by
  unfold Span.extend
  by_cases hnull : s.isNull = true
  · rw [if_pos hnull]
    exact ht
  rw [if_neg hnull]
  by_cases hnull' : t.isNull = true
  · rw [if_pos hnull']
    exact hs
  rw [if_neg hnull']
  obtain ⟨hs₁, hs₂⟩ := hs
  obtain ⟨ht₁, ht₂⟩ := ht
  constructor
  · show (if t.lo < s.lo then t.lo else s.lo) ≤ if t.hi > s.hi then t.hi else s.hi
    split <;> split <;> omega
  · show (if t.hi > s.hi then t.hi else s.hi) ≤ length
    split <;> omega

/-- A tree that is there, with a span of a text of some length. -/
def Expr.Fits {π : Type} (length : Nat) (e : Expr π) : Prop :=
  e.isAbsent = false ∧ e.span.Inside length

namespace Persistent

open Parse (outcome current unexpected)

variable {π : Type} {α β : Type}

/-! ### Steps that end -/

/-- A step ends without a breakdown, and something holds behind it. -/
def Ends (x : Run α) (p : Progress) (post : α → Progress → Prop) : Prop :=
  ∃ a p', x p = some (.ok (a, p')) ∧ post a p'

namespace Ends

variable {p : Progress} {post q : α → Progress → Prop} {post' : β → Progress → Prop}

theorem pure {a : α} (h : post a p) : Ends (Pure.pure a) p post := ⟨a, p, rfl, h⟩

theorem bind {x : Run α} {f : α → Run β} (hx : Ends x p q)
    (hf : ∀ a p', q a p' → Ends (f a) p' post') : Ends (x >>= f) p post' := by
  obtain ⟨a, p', hx, hmid⟩ := hx
  obtain ⟨b, p'', hb, hpost⟩ := hf a p' hmid
  refine ⟨b, p'', ?_, hpost⟩
  show (ExceptT.bind (x p) fun y => f y.1 y.2 : ExceptT Breakdown Option _) = _
  rw [hx]
  exact hb

theorem imp {x : Run α} (hx : Ends x p q) (h : ∀ a p', q a p' → post a p') : Ends x p post := by
  obtain ⟨a, p', hx, hmid⟩ := hx
  exact ⟨a, p', hx, h a p' hmid⟩

theorem and {x : Run α} (h : Ends x p q) (h' : Ends x p post) :
    Ends x p fun a p' => q a p' ∧ post a p' := by
  obtain ⟨a, p', hx, hmid⟩ := h
  obtain ⟨b, p'', hx', hpost⟩ := h'
  rw [hx] at hx'
  cases hx'
  exact ⟨a, p', hx, hmid, hpost⟩

/-- A loop goes on as long as no error is noted. -/
theorem unlessFailed {a : α} {x : Run α} (hp : p.error = none) (hx : Ends x p post) :
    Ends (failed >>= fun b => if b = true then Pure.pure a else x) p post := by
  refine bind (q := fun b p' => b = false ∧ p' = p) ⟨_, _, rfl, by rw [hp]; exact ⟨rfl, rfl⟩⟩ ?_
  rintro _ _ ⟨rfl, rfl⟩
  exact hx

/-- Once an error is noted, nothing more is done. -/
theorem ifFailed {a : α} {x : Run α} {e : SyntaxError} (hp : p.error = some e) (h : post a p) :
    Ends (failed >>= fun b => if b = true then Pure.pure a else x) p post := by
  refine bind (q := fun b p' => b = true ∧ p' = p) ⟨_, _, rfl, by rw [hp]; exact ⟨rfl, rfl⟩⟩ ?_
  rintro _ _ ⟨rfl, rfl⟩
  exact pure h

theorem spanOf {e : Expr π} {f : Span → Run α} (he : e.isAbsent = false)
    (hf : Ends (f e.span) p post) : Ends (Persistent.spanOf e >>= f) p post := by
  refine bind (q := fun s p' => s = e.span ∧ p' = p) ⟨e.span, p, ?_, rfl, rfl⟩ ?_
  · rw [Persistent.spanOf, he]
    rfl
  · rintro _ _ ⟨rfl, rfl⟩
    exact hf

theorem cut {input : Bytes} {s : Span} {f : Bytes → Run α} (hs : s.Inside input.length)
    (hf : Ends (f (input.slice s.lo s.hi)) p post) :
    Ends (Persistent.cut input s >>= f) p post := by
  refine bind (q := fun w p' => w = input.slice s.lo s.hi ∧ p' = p) ⟨_, p, ?_, rfl, rfl⟩ ?_
  · rw [Persistent.cut, if_pos (show s.lo ≤ s.hi ∧ s.hi ≤ input.length from hs)]
    rfl
  · rintro _ _ ⟨rfl, rfl⟩
    exact hf

theorem note {e : SyntaxError} {f : Unit → Run α} (hp : p.error = none)
    (hf : ∀ p', p'.error = some e → Ends (f ()) p' post) :
    Ends (Persistent.note e >>= f) p post := by
  refine bind (q := fun _ p' => p'.error = some e) ⟨(), _, rfl, ?_⟩ fun _ p' => hf p'
  simp [hp]

end Ends

/-! ### Places in a row of tokens -/

/-- A row of tokens with the end of the input. -/
def row (input : Bytes) (ts : List Token) : List Token := ts ++ [Token.endAt input.length]

/-- No error is noted, and some tokens are left to be read. -/
def At (ts : List Token) (p : Progress) (r : List Token) : Prop :=
  p.error = none ∧ ∃ us, ts = us ++ r ∧ p.taken = us.length

section Places

variable {input : Bytes} {ts r : List Token} {t : Token} {p : Progress}
  {post : α → Progress → Prop}

theorem getD_append_last (d : Token) (r : List Token) (n : Nat) :
    (r ++ [d]).getD n d = (r.drop n).headD d := by
  induction r generalizing n with
  | nil => cases n <;> simp
  | cons u r ih =>
    cases n with
    | zero => rfl
    | succ n => exact ih n

/-- The tokens that are left decide what comes next. -/
theorem getD_row (hp : At ts p r) (n : Nat) :
    (row input ts).getD (p.taken + n) ((row input ts).getLastD default)
      = current input (r.drop n) := by
  obtain ⟨-, us, rfl, htaken⟩ := hp
  have hlast : (row input (us ++ r)).getLastD default = Token.endAt input.length := by
    simp [row, List.getLastD_eq_getLast?]
  rw [hlast, htaken, row, List.append_assoc,
    List.getD_append_right _ _ _ _ (Nat.le_add_right ..), Nat.add_sub_cancel_left]
  exact getD_append_last (Token.endAt input.length) r n

theorem Ends.peek {f : Token → Run α} (hp : At ts p r) (n : Nat)
    (hf : Ends (f (current input (r.drop n))) p post) :
    Ends (Persistent.peek (row input ts) n >>= f) p post := by
  refine .bind (q := fun t p' => t = current input (r.drop n) ∧ p' = p) ?_ ?_
  · exact ⟨_, p, rfl, getD_row hp n, rfl⟩
  · rintro _ _ ⟨rfl, rfl⟩
    exact hf

/-- A token is taken, unless it is the end. -/
theorem next_ends (hp : At ts p r) :
    Ends (next (row input ts)) p fun t p' => t = current input r ∧ At ts p' r.tail := by
  unfold next
  refine .peek hp 0 ?_
  rw [List.drop_zero]
  refine ⟨current input r, _, rfl, rfl, ?_⟩
  obtain ⟨herror, us, rfl, htaken⟩ := hp
  cases r with
  | nil =>
    refine ⟨?_, us, rfl, ?_⟩
    · simp [row, htaken, herror]
    · simp [row, htaken]
  | cons t r =>
    refine ⟨?_, us ++ [t], by simp, ?_⟩
    · simp [row, htaken, herror]
    · simp [row, htaken]

theorem Ends.next {f : Token → Run α} (hp : At ts p (t :: r))
    (hf : ∀ p', At ts p' r → Ends (f t) p' post) :
    Ends (Persistent.next (row input ts) >>= f) p post := by
  refine .bind (next_ends hp) ?_
  rintro _ p' ⟨rfl, hp'⟩
  exact hf p' hp'

end Places

/-! ### Answers that match -/

/-- A step matches the result of a function that stops at the first error: it arrives at the same
value and the same tokens, or it has noted the error. -/
def Matches (ts : List Token) (fits : α → Prop) (o : Except SyntaxError (α × List Token)) (a : α)
    (p : Progress) : Prop :=
  match o with
  | .ok (b, r) => a = b ∧ fits b ∧ At ts p r
  | .error e => p.error = some e

section Match

variable {ts : List Token} {p : Progress} {fits : α → Prop} {fits' : β → Prop}

theorem Matches.ok {a : α} {r : List Token} (ha : fits a) (hp : At ts p r) :
    Matches ts fits (.ok (a, r)) a p :=
  ⟨rfl, ha, hp⟩

/-- One step behind another. If the first one has noted an error, the second one has to keep it;
what is known of the value in any case may be used for that. -/
theorem Ends.followKnown {known : α → Prop} {x : Run α} {f : α → Run β}
    {o : Except SyntaxError (α × List Token)}
    {g : α × List Token → Except SyntaxError (β × List Token)} (hx : Ends x p (Matches ts fits o))
    (hknown : Ends x p fun a _ => known a)
    (hok : ∀ a r p', o = .ok (a, r) → fits a → At ts p' r →
      Ends (f a) p' (Matches ts fits' (g (a, r))))
    (herror : ∀ e a p', known a → p'.error = some e →
      Ends (f a) p' fun _ p'' => p''.error = some e) :
    Ends (x >>= f) p (Matches ts fits' (o >>= g)) := by
  refine (hx.and hknown).bind ?_
  rintro a p' ⟨hmatch, hknown⟩
  cases o with
  | error e => exact herror e a p' hknown hmatch
  | ok y =>
    obtain ⟨b, r⟩ := y
    obtain ⟨rfl, hfits, hp'⟩ := hmatch
    exact hok a r p' rfl hfits hp'

theorem Ends.follow {x : Run α} {f : α → Run β} {o : Except SyntaxError (α × List Token)}
    {g : α × List Token → Except SyntaxError (β × List Token)} (hx : Ends x p (Matches ts fits o))
    (hok : ∀ a r p', o = .ok (a, r) → fits a → At ts p' r →
      Ends (f a) p' (Matches ts fits' (g (a, r))))
    (herror : ∀ e a p', p'.error = some e → Ends (f a) p' fun _ p'' => p''.error = some e) :
    Ends (x >>= f) p (Matches ts fits' (o >>= g)) := by
  exact hx.followKnown (hx.imp fun _ _ _ => trivial) hok fun e a p' _ => herror e a p'

end Match

/-! ### The functions of the parser -/

section Functions

variable {input : Bytes} {ts : List Token}

/-- The tokens of an input stand in it. -/
def AllInside (input : Bytes) (ts : List Token) : Prop :=
  ∀ t ∈ ts, t.span.Inside input.length

theorem AllInside.current (h : AllInside input ts) {p : Progress} {r : List Token}
    (hp : At ts p r) : (current input r).span.Inside input.length := by
  obtain ⟨-, us, rfl, -⟩ := hp
  cases r with
  | nil => exact ⟨Nat.le_refl _, Nat.le_refl _⟩
  | cons t r => exact h t (by simp)

theorem expect_ends (hts : AllInside input ts) (mark : String) {p : Progress} {r : List Token}
    (hp : At ts p r) :
    Ends (expect (row input ts) mark) p
      (Matches ts (fun t => t.span.Inside input.length) (outcome (Parse.expect input mark r))) := by
  unfold expect
  refine .peek hp 0 ?_
  rw [List.drop_zero]
  have hinside := hts.current hp
  cases r with
  | nil =>
    have hmark : (current input []).isMark (utf8 mark) = false := by
      simp [current, Token.endAt, Token.isMark]
    rw [hmark, Parse.outcome_expect_nil]
    exact .note hp.1 fun p' hp' => .pure hp'
  | cons t r =>
    rw [Parse.outcome_expect]
    show Ends (if t.isMark (utf8 mark) = true then _ else _) p _
    by_cases ht : t.isMark (utf8 mark) = true
    · rw [if_pos ht, if_pos ht]
      refine (next_ends hp).imp ?_
      rintro _ p' ⟨rfl, hp'⟩
      exact .ok hinside hp'
    · rw [if_neg ht, if_neg ht]
      exact .note hp.1 fun p' hp' => .pure hp'

/-- The label of an argument, if it has one, is taken. -/
theorem label_ends {p : Progress} {r : List Token} (hp : At ts p r) :
    Ends (label (row input ts)) p fun name p' =>
      name = (Parse.label r).1 ∧ At ts p' (Parse.label r).2.1 := by
  unfold label
  refine .peek hp 0 (.peek hp 1 ?_)
  rcases Parse.label_cases r with ⟨t, c, rest, rfl, hname, hcolon, hlabel, hrest⟩
    | ⟨hlabel, hrest, hcolon⟩
  · have hcond : ((current input (t :: c :: rest)).category == .name &&
        (current input (c :: rest)).isMark (utf8 ":")) = true := by
      simp [current, hname, hcolon]
    rw [hlabel, hrest]
    simp only [List.drop_zero, List.drop_succ_cons]
    rw [if_pos hcond]
    exact .next hp fun p' hp' => .next hp' fun p'' hp'' => .pure ⟨rfl, hp''⟩
  · have hcond : ¬((current input (r.drop 0)).category == .name &&
        (current input (r.drop 1)).isMark (utf8 ":")) = true := by
      match r with
      | [] => simp [current, Token.endAt]
      | [t] => simp [current, Token.endAt, Token.isMark]
      | t :: c :: rest =>
        intro h
        obtain ⟨hname, hmark⟩ := Bool.and_eq_true_iff.mp h
        have hnone := hcolon t rfl (beq_iff_eq.mp hname) c rfl
        exact absurd hmark (by simp [current, hnone])
    rw [hlabel, hrest, if_neg hcond]
    exact .pure ⟨rfl, hp⟩

/-! Once an error is noted it stays, whatever else is done. -/

theorem peek_ends (n : Nat) (p : Progress) :
    Ends (peek (row input ts) n) p fun t p' => t ∈ row input ts ∧ p' = p := by
  refine ⟨_, p, rfl, ?_, rfl⟩
  have hlast : (row input ts).getLastD default ∈ row input ts := by
    simp [row, List.getLastD_eq_getLast?]
  rw [List.getD_eq_getElem?_getD]
  cases h : (row input ts)[p.taken + n]? with
  | none => exact hlast
  | some t => exact List.mem_of_getElem? h

theorem next_keeps (p : Progress) :
    Ends (next (row input ts)) p fun t p' => t ∈ row input ts ∧ p'.error = p.error := by
  unfold next
  refine (peek_ends 0 p).bind ?_
  rintro t p' ⟨ht, rfl⟩
  refine ⟨t, _, rfl, ht, ?_⟩
  show (if p'.taken < (row input ts).length - 1 then _ else p').error = p'.error
  split <;> rfl

theorem expect_keeps (hts : AllInside input ts) (mark : String) (p : Progress) :
    Ends (expect (row input ts) mark) p fun t p' => t.span.Inside input.length ∧
      ∀ e, p.error = some e → p'.error = some e := by
  have hrow : ∀ t ∈ row input ts, t.span.Inside input.length := by
    intro t ht
    rcases List.mem_append.mp ht with ht | ht
    · exact hts t ht
    · rw [List.mem_singleton.mp ht]
      exact ⟨Nat.le_refl _, Nat.le_refl _⟩
  unfold expect
  refine (peek_ends 0 p).bind ?_
  rintro t p' ⟨ht, rfl⟩
  by_cases hmark : t.isMark (utf8 mark) = true
  · rw [if_pos hmark]
    refine (next_keeps p').imp ?_
    rintro u p'' ⟨hu, hp''⟩
    exact ⟨hrow u hu, fun e he => by rw [hp'', he]⟩
  · rw [if_neg hmark]
    refine ⟨t, _, rfl, hrow t ht, ?_⟩
    intro e he
    simp [he]

section Noted

variable {p : Progress} {e : SyntaxError} {depth : Nat} (hp : p.error = some e)

include hp

theorem climb_noted (level : Nat) (left : Expr π) (hdepth : 0 < depth) :
    Ends (climb input (row input ts) depth level left) p fun _ p' => p'.error = some e := by
  obtain ⟨d, rfl⟩ := Nat.exists_eq_add_of_le' hdepth
  rw [climb]
  exact .ifFailed hp hp

theorem suffixes_noted (x : Expr π) (hdepth : 0 < depth) :
    Ends (suffixes input (row input ts) depth x) p fun _ p' => p'.error = some e := by
  obtain ⟨d, rfl⟩ := Nat.exists_eq_add_of_le' hdepth
  rw [suffixes]
  exact .ifFailed hp hp

theorem elements_noted (es : List (Expr π)) (hdepth : 0 < depth) :
    Ends (elements input (row input ts) depth es) p fun _ p' => p'.error = some e := by
  obtain ⟨d, rfl⟩ := Nat.exists_eq_add_of_le' hdepth
  rw [elements]
  exact .ifFailed hp hp

theorem argumentList_noted (args : List (Bytes × Expr π)) (hdepth : 0 < depth) :
    Ends (argumentList input (row input ts) depth args) p fun _ p' => p'.error = some e := by
  obtain ⟨d, rfl⟩ := Nat.exists_eq_add_of_le' hdepth
  rw [argumentList]
  exact .ifFailed hp hp

theorem expect_noted (hts : AllInside input ts) (mark : String) :
    Ends (expect (row input ts) mark) p fun t p' =>
      t.span.Inside input.length ∧ p'.error = some e :=
  (expect_keeps hts mark p).imp fun _ _ h => ⟨h.1, h.2 e hp⟩

/-- The end of a round of a loop over elements or arguments. -/
theorem comma_noted {again : Run α} {a : α}
    (hagain : ∀ p', p'.error = some e → Ends again p' fun _ p'' => p''.error = some e) :
    Ends (peek (row input ts) 0 >>= fun t =>
      if t.isMark (utf8 ",") = true then next (row input ts) >>= fun _ => again else Pure.pure a) p
      fun _ p' => p'.error = some e := by
  refine (peek_ends 0 p).bind ?_
  rintro t p' ⟨-, rfl⟩
  by_cases hcomma : t.isMark (utf8 ",") = true
  · rw [if_pos hcomma]
    refine (next_keeps p').bind ?_
    rintro u p'' ⟨-, hp''⟩
    exact hagain p'' (hp''.trans hp)
  · rw [if_neg hcomma]
    exact .pure hp

end Noted

/-! ### Matching the parser that stops -/

/-- A list that was read behind another one. -/
def joined (as : List α) (o : Except SyntaxError (List α × List Token)) :
    Except SyntaxError (List α × List Token) :=
  o >>= fun x => .ok (as ++ x.1, x.2)

theorem joined_nil (o : Except SyntaxError (List α × List Token)) : joined [] o = o := by
  cases o <;> rfl

theorem joined_cons (as : List α) (a : α) (o : Except SyntaxError (List α × List Token)) :
    joined as (o >>= fun x => .ok (a :: x.1, x.2)) = joined (as ++ [a]) o := by
  cases o with
  | error e => rfl
  | ok x => simp [joined]

/-- The functions match their namesakes on `n` tokens, with calls nested six times for each of them
and six times more. -/
structure Persists (π : Type) (input : Bytes) (ts : List Token) (n : Nat) : Prop where
  expression : ∀ {p : Progress} {r : List Token} {depth : Nat} (level : Nat),
    6 * n + 6 ≤ depth → r.length = n → At ts p r →
    Ends (expression input (row input ts) depth level) p
      (Matches ts (Expr.Fits input.length)
        (outcome (Parse.expression (π := π) input level r)))
  climb : ∀ {p : Progress} {r : List Token} {depth : Nat} (level : Nat) {left : Expr π},
    6 * n + 6 ≤ depth → r.length = n → At ts p r → left.Fits input.length →
    Ends (climb input (row input ts) depth level left) p
      (Matches ts (Expr.Fits input.length) (outcome (Parse.climb input level left r)))
  operand : ∀ {p : Progress} {r : List Token} {depth : Nat},
    6 * n + 6 ≤ depth → r.length = n → At ts p r →
    Ends (operand input (row input ts) depth) p
      (Matches ts (Expr.Fits input.length) (outcome (Parse.operand (π := π) input r)))
  suffixes : ∀ {p : Progress} {r : List Token} {depth : Nat} {x : Expr π},
    6 * n + 6 ≤ depth → r.length = n → At ts p r → x.Fits input.length →
    Ends (suffixes input (row input ts) depth x) p
      (Matches ts (Expr.Fits input.length) (outcome (Parse.suffixes input x r)))
  elements : ∀ {p : Progress} {r : List Token} {depth : Nat} (es : List (Expr π)),
    6 * n + 6 ≤ depth → r.length = n → At ts p r →
    Ends (elements input (row input ts) depth es) p
      (Matches ts (fun _ => True) (joined es (outcome (Parse.elements input r))))
  arguments : ∀ {p : Progress} {t : Token} {r : List Token} {depth : Nat},
    6 * n + 6 ≤ depth → r.length = n → At ts p (t :: r) → t.isMark (utf8 "(") = true →
    Ends (arguments input (row input ts) depth) p
      (Matches ts (fun x => x.2.Inside input.length)
        (outcome (Parse.arguments (π := π) input r)))
  argumentList : ∀ {p : Progress} {r : List Token} {depth : Nat} (args : List (Bytes × Expr π)),
    6 * n + 6 ≤ depth → r.length = n → At ts p r →
    Ends (argumentList input (row input ts) depth args) p
      (Matches ts (fun _ => True) (joined args (outcome (Parse.argumentList input r))))

section Step

variable {n depth : Nat} (hts : AllInside input ts) (ih : ∀ m < n, Persists π input ts m)
  {p : Progress} {r : List Token}

theorem fits_combine {op : Bytes} {left right : Expr π} {length : Nat} (hl : left.Fits length)
    (hr : right.Fits length) : (Parse.combine op left right).Fits length := by
  unfold Parse.combine
  by_cases hop : op = utf8 "="
  · rw [if_pos hop]
    exact ⟨rfl, hl.2.extend hr.2⟩
  · rw [if_neg hop]
    exact ⟨rfl, hl.2.extend hr.2⟩

include ih

theorem climb_ends (level : Nat) {left : Expr π} (hdepth : 6 * n + 1 ≤ depth)
    (hlen : r.length = n) (hp : At ts p r) (hleft : left.Fits input.length) :
    Ends (climb input (row input ts) depth level left) p
      (Matches ts (Expr.Fits input.length) (outcome (Parse.climb input level left r))) := by
  obtain ⟨d, rfl⟩ := Nat.exists_eq_add_of_le' (show 1 ≤ depth by omega)
  rw [climb]
  refine .unlessFailed hp.1 (.peek hp 0 ?_)
  cases r with
  | nil =>
    rw [Parse.outcome_climb_nil]
    exact .pure (.ok hleft hp)
  | cons t r =>
    simp only [List.length_cons] at hlen
    rw [Parse.outcome_climb_cons]
    simp only [List.drop_zero, current, List.headD_cons]
    cases hb : Parse.binding? level t with
    | none => exact .pure (.ok hleft hp)
    | some b =>
      refine .next hp fun p' hp' => ?_
      refine .follow ((ih r.length (by omega)).expression b.rightLevel (by omega) rfl hp') ?_ ?_
      · intro right r' p'' hright hfits hp''
        have hshort := Parse.rest_of_outcome hright
        refine .unlessFailed hp''.1 (.spanOf hleft.1 (.spanOf hfits.1 ?_))
        exact (ih r'.length (by omega)).climb level (by omega) rfl hp'' (fits_combine hleft hfits)
      · intro e right p'' hp''
        exact .ifFailed hp'' hp''

include hts

theorem suffixes_ends {x : Expr π} (hdepth : 6 * n + 1 ≤ depth)
    (hlen : r.length = n) (hp : At ts p r) (hx : x.Fits input.length) :
    Ends (suffixes input (row input ts) depth x) p
      (Matches ts (Expr.Fits input.length) (outcome (Parse.suffixes input x r))) := by
  obtain ⟨d, rfl⟩ := Nat.exists_eq_add_of_le' (show 1 ≤ depth by omega)
  rw [suffixes]
  refine .unlessFailed hp.1 (.peek hp 0 ?_)
  cases r with
  | nil =>
    rw [Parse.outcome_suffixes_nil]
    exact .pure (.ok hx hp)
  | cons t r =>
    simp only [List.length_cons] at hlen
    rw [Parse.outcome_suffixes_cons]
    simp only [List.drop_zero, current, List.headD_cons]
    by_cases hparen : t.isMark (utf8 "(") = true
    · rw [if_pos hparen, if_pos hparen]
      refine .follow ((ih r.length (by omega)).arguments (by omega) rfl hp hparen) ?_ ?_
      · rintro ⟨args, close⟩ r' p' hargs hclose hp'
        have hshort := Parse.rest_of_outcome hargs
        refine .spanOf hx.1 ?_
        exact (ih r'.length (by omega)).suffixes (by omega) rfl hp' ⟨rfl, hx.2.extend hclose⟩
      · rintro e ⟨args, close⟩ p' hp'
        exact .spanOf hx.1 (suffixes_noted hp' _ (by omega))
    rw [if_neg hparen, if_neg hparen]
    by_cases hbracket : t.isMark (utf8 "[") = true
    · rw [if_pos hbracket, if_pos hbracket]
      refine .next hp fun p' hp' => ?_
      refine .follow ((ih r.length (by omega)).expression 1 (by omega) rfl hp') ?_ ?_
      · intro i r' p'' hi _ hp''
        have hshort := Parse.rest_of_outcome hi
        refine .followKnown (expect_ends hts "]" hp'')
          ((expect_keeps hts "]" p'').imp fun _ _ h => h.1) ?_ ?_
        · intro close r'' p₃ hclose hinside hp₃
          have hshort' : r''.length < r'.length := Parse.rest_of_outcome hclose
          have hspan := hx.2.extend hinside
          refine .spanOf hx.1 (.cut hspan ?_)
          exact (ih r''.length (by omega)).suffixes (by omega) rfl hp₃ ⟨rfl, hspan⟩
        · intro e close p₃ hinside hp₃
          exact .spanOf hx.1 (.cut (hx.2.extend hinside) (suffixes_noted hp₃ _ (by omega)))
      · -- The subscript failed. Its end is looked for all the same, and the text cut out.
        intro e i p'' hp''
        refine (expect_noted hp'' hts "]").bind ?_
        rintro close p₃ ⟨hinside, hp₃⟩
        exact .spanOf hx.1 (.cut (hx.2.extend hinside) (suffixes_noted hp₃ _ (by omega)))
    · rw [if_neg hbracket, if_neg hbracket]
      exact .pure (.ok hx hp)

/-- Parentheses: what is in them, and the closing one. -/
theorem group_ends {t : Token} (hdepth : 6 * n + 1 ≤ depth) (hlen : r.length < n) (hp : At ts p r)
    (ht : t.span.Inside input.length) :
    Ends (group input (row input ts) depth t) p
      (Matches ts (Expr.Fits input.length)
        (if (current input r).isMark (utf8 ")") then
          .error ⟨(current input r).span, .emptyParentheses⟩
        else
          outcome (Parse.elements (π := π) input r) >>= fun x =>
            outcome (Parse.expect input ")" x.2) >>= fun y =>
              .ok (.group x.1 (t.span.extend y.1.span), y.2))) := by
  obtain ⟨d, rfl⟩ := Nat.exists_eq_add_of_le' (show 1 ≤ depth by omega)
  rw [group]
  refine .peek hp 0 ?_
  rw [List.drop_zero]
  by_cases hempty : (current input r).isMark (utf8 ")") = true
  · rw [if_pos hempty, if_pos hempty]
    exact .note hp.1 fun p' hp' => .pure hp'
  rw [if_neg hempty, if_neg hempty]
  have hdeep : 6 * r.length + 6 ≤ d := by omega
  have helements := (ih r.length hlen).elements [] hdeep rfl hp
  rw [joined_nil] at helements
  refine .follow helements ?_ ?_
  · intro es r' p' _ _ hp'
    refine .follow (expect_ends hts ")" hp') ?_ ?_
    · intro close r'' p'' _ hclose hp''
      exact .unlessFailed hp''.1 (.pure (.ok ⟨rfl, ht.extend hclose⟩ hp''))
    · intro e close p'' hp''
      exact .ifFailed hp'' hp''
  · intro e es p' hp'
    refine (expect_noted hp' hts ")").bind ?_
    rintro close p'' ⟨-, hp''⟩
    exact .ifFailed hp'' hp''

theorem primary_ends {t : Token} (hdepth : 6 * n + 2 ≤ depth)
    (hlen : r.length < n) (hp : At ts p (t :: r)) :
    Ends (primary input (row input ts) depth) p
      (Matches ts (Expr.Fits input.length) (outcome (Parse.primary (π := π) input t r))) := by
  have ht : t.span.Inside input.length := hts.current hp
  obtain ⟨d, rfl⟩ := Nat.exists_eq_add_of_le' (show 1 ≤ depth by omega)
  rw [primary]
  refine .next hp fun p' hp' => ?_
  rw [Parse.outcome_primary]
  cases hcat : t.category with
  | name | number | text => exact .pure (.ok ⟨rfl, ht⟩ hp')
  | punctuation =>
    simp only
    by_cases hparen : t.lexeme = utf8 "("
    · rw [if_pos hparen, if_pos hparen]
      exact group_ends hts ih (by omega) hlen hp' ht
    · rw [if_neg hparen, if_neg hparen]
      exact .note hp'.1 fun p'' hp'' => .pure hp''
  | operator | invocation | endOfInput => exact .note hp'.1 fun p'' hp'' => .pure hp''

theorem operand_ends (hdepth : 6 * n + 3 ≤ depth) (hlen : r.length = n) (hp : At ts p r) :
    Ends (operand input (row input ts) depth) p
      (Matches ts (Expr.Fits input.length) (outcome (Parse.operand (π := π) input r))) := by
  obtain ⟨d, rfl⟩ := Nat.exists_eq_add_of_le' (show 1 ≤ depth by omega)
  rw [operand]
  refine .peek hp 0 ?_
  cases r with
  | nil =>
    -- There is no operand at the end of the input, where no token is taken.
    rw [Parse.outcome_operand_nil]
    show Ends (primary input (row input ts) d >>= suffixes input (row input ts) d) p _
    refine .bind (q := fun _ p' => p'.error = some (unexpected (Token.endAt input.length))) ?_ ?_
    · obtain ⟨d, rfl⟩ := Nat.exists_eq_add_of_le' (show 1 ≤ d by omega)
      rw [primary]
      refine (next_ends hp).bind ?_
      rintro _ p' ⟨rfl, hp'⟩
      exact .note hp'.1 fun p'' hp'' => .pure hp''
    · intro x p' hp'
      exact suffixes_noted hp' x (by omega)
  | cons t r =>
    simp only [List.length_cons] at hlen
    have ht : t.span.Inside input.length := hts.current hp
    rw [Parse.outcome_operand_cons]
    simp only [List.drop_zero, current, List.headD_cons]
    by_cases hsign : (t.category == .operator && isPrefixOperator t.lexeme) = true
    · rw [if_pos hsign, if_pos hsign]
      refine .next hp fun p' hp' => ?_
      refine .follow ((ih r.length (by omega)).operand (by omega) rfl hp') ?_ ?_
      · intro x r' p'' _ hx hp''
        exact .unlessFailed hp''.1 (.spanOf hx.1 (.pure (.ok ⟨rfl, ht.extend hx.2⟩ hp'')))
      · intro e x p'' hp''
        exact .ifFailed hp'' hp''
    · rw [if_neg hsign, if_neg hsign]
      refine .follow (primary_ends hts ih (by omega) (by omega) hp) ?_ ?_
      · intro x r' p' hprimary hx hp'
        have hshort := Parse.rest_of_outcome hprimary
        exact (ih r'.length (by omega)).suffixes (by omega) rfl hp' hx
      · intro e x p' hp'
        exact suffixes_noted hp' x (by omega)

theorem expression_ends (level : Nat) (hdepth : 6 * n + 4 ≤ depth)
    (hlen : r.length = n) (hp : At ts p r) :
    Ends (expression input (row input ts) depth level) p
      (Matches ts (Expr.Fits input.length)
        (outcome (Parse.expression (π := π) input level r))) := by
  obtain ⟨d, rfl⟩ := Nat.exists_eq_add_of_le' (show 1 ≤ depth by omega)
  rw [expression, Parse.outcome_expression]
  refine .follow (operand_ends hts ih (by omega) hlen hp) ?_ ?_
  · intro left r' p' hoperand hleft hp'
    have hshort := Parse.rest_of_outcome hoperand
    exact (ih r'.length (by omega)).climb level (by omega) rfl hp' hleft
  · intro e left p' hp'
    exact climb_noted hp' level left (by omega)

theorem elements_ends (es : List (Expr π)) (hdepth : 6 * n + 5 ≤ depth)
    (hlen : r.length = n) (hp : At ts p r) :
    Ends (elements input (row input ts) depth es) p
      (Matches ts (fun _ => True) (joined es (outcome (Parse.elements input r)))) := by
  obtain ⟨d, rfl⟩ := Nat.exists_eq_add_of_le' (show 1 ≤ depth by omega)
  rw [elements, Parse.outcome_elements, joined, bind_assoc]
  refine .unlessFailed hp.1 (.follow (expression_ends hts ih 1 (by omega) hlen hp) ?_ ?_)
  · intro e r' p' hexpression _ hp'
    have hshort := Parse.rest_of_outcome hexpression
    refine .peek hp' 0 ?_
    cases r' with
    | nil => exact .pure (.ok trivial hp')
    | cons t r' =>
      simp only [List.drop_zero, current, List.headD_cons]
      by_cases hcomma : t.isMark (utf8 ",") = true
      · rw [if_pos hcomma, if_pos hcomma]
        refine .next hp' fun p'' hp'' => ?_
        simp only [List.length_cons] at hshort
        have hdeep : 6 * r'.length + 6 ≤ d := by omega
        have hrest := (ih r'.length (by omega)).elements (es ++ [e]) hdeep rfl hp''
        rw [← joined_cons] at hrest
        exact hrest
      · rw [if_neg hcomma, if_neg hcomma]
        exact .pure (.ok trivial hp')
  · intro err e p' hp'
    exact comma_noted hp' fun p'' hp'' => elements_noted hp'' _ (by omega)

theorem argumentList_ends (args : List (Bytes × Expr π)) (hdepth : 6 * n + 5 ≤ depth)
    (hlen : r.length = n) (hp : At ts p r) :
    Ends (argumentList input (row input ts) depth args) p
      (Matches ts (fun _ => True) (joined args (outcome (Parse.argumentList input r)))) := by
  obtain ⟨d, rfl⟩ := Nat.exists_eq_add_of_le' (show 1 ≤ depth by omega)
  rw [argumentList, Parse.outcome_argumentList, joined, bind_assoc]
  refine .unlessFailed hp.1 ((label_ends hp).bind ?_)
  rintro _ p' ⟨rfl, hp'⟩
  have hbehind : (Parse.label r).2.1.length ≤ r.length := (Parse.label r).2.2
  have hexpression : Ends (expression input (row input ts) d 1) p'
      (Matches ts (Expr.Fits input.length)
        (outcome (Parse.expression (π := π) input 1 (Parse.label r).2.1))) := by
    by_cases hsame : (Parse.label r).2.1.length = n
    · exact expression_ends hts ih 1 (by omega) hsame hp'
    · exact (ih _ (by omega)).expression 1 (by omega) rfl hp'
  refine .follow hexpression ?_ ?_
  · intro e r' p'' hexpression _ hp''
    have hshort : r'.length < (Parse.label r).2.1.length := Parse.rest_of_outcome hexpression
    refine .peek hp'' 0 ?_
    cases r' with
    | nil => exact .pure (.ok trivial hp'')
    | cons t r' =>
      simp only [List.drop_zero, current, List.headD_cons]
      by_cases hcomma : t.isMark (utf8 ",") = true
      · rw [if_pos hcomma, if_pos hcomma]
        refine .next hp'' fun p₃ hp₃ => ?_
        simp only [List.length_cons] at hshort
        have hdeep : 6 * r'.length + 6 ≤ d := by omega
        have hrest := (ih r'.length (by omega)).argumentList
          (args ++ [((Parse.label r).1, e)]) hdeep rfl hp₃
        rw [← joined_cons] at hrest
        exact hrest
      · rw [if_neg hcomma, if_neg hcomma]
        exact .pure (.ok trivial hp'')
  · intro err e p'' hp''
    exact comma_noted hp'' fun p₃ hp₃ => argumentList_noted hp₃ _ (by omega)

theorem arguments_ends {t : Token} (hdepth : 6 * n + 6 ≤ depth)
    (hlen : r.length = n) (hp : At ts p (t :: r)) (ht : t.isMark (utf8 "(") = true) :
    Ends (arguments input (row input ts) depth) p
      (Matches ts (fun x => x.2.Inside input.length)
        (outcome (Parse.arguments (π := π) input r))) := by
  have hopen : Ends (expect (row input ts) "(") p fun _ p' => At ts p' r := by
    have hexpect := expect_ends hts "(" hp
    rw [Parse.outcome_expect, if_pos ht] at hexpect
    exact hexpect.imp fun _ _ h => h.2.2
  obtain ⟨d, rfl⟩ := Nat.exists_eq_add_of_le' (show 1 ≤ depth by omega)
  rw [arguments]
  refine hopen.bind fun _ p' hp' => .peek hp' 0 ?_
  have hlist : Ends (argumentList input (row input ts) d [] >>= fun args =>
      expect (row input ts) ")" >>= fun close => Pure.pure (args, close.span)) p'
      (Matches ts (fun x => x.2.Inside input.length)
        (outcome (Parse.argumentList (π := π) input r) >>= fun x =>
          outcome (Parse.expect input ")" x.2) >>= fun y => .ok ((x.1, y.1.span), y.2))) := by
    have hdeep : 6 * n + 5 ≤ d := by omega
    have hargs := argumentList_ends hts ih [] hdeep hlen hp'
    rw [joined_nil] at hargs
    refine .follow hargs ?_ ?_
    · intro args r' p'' _ _ hp''
      refine .follow (expect_ends hts ")" hp'') ?_ ?_
      · intro close r'' p₃ _ hclose hp₃
        exact .pure (.ok hclose hp₃)
      · intro e close p₃ hp₃
        exact .pure hp₃
    · intro e args p'' hp''
      refine (expect_noted hp'' hts ")").bind ?_
      rintro close p₃ ⟨-, hp₃⟩
      exact .pure hp₃
  cases r with
  | nil =>
    have hnone : outcome (Parse.argumentList (π := π) input [])
        = .error (unexpected (Token.endAt input.length)) := by
      rw [Parse.outcome_argumentList]
      show outcome (Parse.expression input 1 []) >>= _ = _
      rw [Parse.outcome_expression, Parse.outcome_operand_nil]
      rfl
    rw [Parse.outcome_arguments_nil]
    rw [hnone] at hlist
    exact hlist
  | cons u r =>
    rw [Parse.outcome_arguments_cons]
    simp only [List.drop_zero, current, List.headD_cons]
    by_cases hclose : u.isMark (utf8 ")") = true
    · rw [if_pos hclose, if_pos hclose]
      exact .next hp' fun p'' hp'' => .pure (.ok (hts.current hp') hp'')
    · rw [if_neg hclose, if_neg hclose]
      exact hlist

end Step

/-- The functions match their namesakes on any number of tokens. -/
theorem persists (hts : AllInside input ts) (n : Nat) : Persists π input ts n := by
  induction n using Nat.strongRecOn with
  | ind n ih =>
    exact {
      expression := fun level hdepth => expression_ends hts ih level (by omega)
      climb := fun level _ hdepth => climb_ends ih level (by omega)
      operand := fun hdepth => operand_ends hts ih (by omega)
      suffixes := fun hdepth => suffixes_ends hts ih (by omega)
      elements := fun es hdepth => elements_ends hts ih es (by omega)
      arguments := fun hdepth => arguments_ends hts ih hdepth
      argumentList := fun args hdepth => argumentList_ends hts ih args (by omega) }

end Functions

end Persistent
end RelaxArith
