/-
Scanning with any engine.

What a scanner needs of the engine behind it is little: asked at an offset before the end of a
text, the engine answers with the longest match of the token patterns, or that it could not
consume the input there.  Where it says that it gave up is its own affair.  The scanner makes the
best of that place: it goes on there, but always at least one byte further on and never behind the
end of the text.

So scanning ends with every engine, and accounts for every byte of the text: each is blank, or
stands in a token, or stands in a report.  `Accounts` says this of a part of a text, from one
offset to another.  One call of the scanner accounts for what it passes over, calls put one part
behind the other, and when there is nothing left the scanner hands out the token of the end for
ever.

The scanner of this library is the one whose engine is the automaton of the token patterns, and
which gives up behind the byte that no pattern can go on with.
-/
import RelaxArith.Proofs.Scan.Reports

namespace RelaxArith

open Automaton

/-- What an engine answers at an offset before the end of a text. -/
inductive Engine.Answer where
  /-- A match of some length. -/
  | found (what : Automaton.Class) (length : Nat)
  /-- The input there could not be consumed, and this is where the engine gave up. -/
  | unconsumed (failed : Int)

/-- An engine for the token patterns. What it finds is the longest match. An engine that answers
differently from time to time is one of these as well, for each text: scanning moves on, and asks
at each offset no more than once. -/
structure Engine where
  /-- The answer for a text, at an offset. -/
  answer : Bytes → Nat → Engine.Answer
  longest_of_found : ∀ {s : Bytes} {offset : Nat} {what : Automaton.Class} {n : Nat},
    answer s offset = .found what n → longest .start (s.drop offset) = some (what, n)

namespace Engine

/-- Where scanning goes on in a text of some size, behind input that could not be consumed. -/
def resume (size start : Nat) (failed : Int) : Nat :=
  let behind := if failed ≤ start then start + 1 else failed.toNat
  if behind > size then size else behind

/-- The report on input that could not be consumed. -/
def report (s : Bytes) (start : Nat) (failed : Int) : SyntaxError :=
  let behind := resume s.length start failed
  ⟨⟨start, behind⟩, .unrecognized (s.slice start behind)⟩

theorem lt_resume {size start : Nat} (h : start < size) (failed : Int) :
    start < resume size start failed ∧ resume size start failed ≤ size := by
  unfold resume
  by_cases hback : failed ≤ start
  · simp only [hback, if_true]
    split <;> omega
  · simp only [hback, if_false]
    split <;> omega

theorem bounds_of_found {engine : Engine} {s : Bytes} {offset n : Nat} {what : Automaton.Class}
    (h : engine.answer s offset = .found what n) : 0 < n ∧ n ≤ s.length - offset := by
  have hlong := engine.longest_of_found h
  have hle := (run_of_longest hlong).1
  rw [List.length_drop] at hle
  exact ⟨longest_start_pos hlong, hle⟩

/-- The next token of a text from an offset on, the reports on the way to it, and the offset
behind it. -/
def next (engine : Engine) (s : Bytes) (offset : Nat) : List SyntaxError × Token × Nat :=
  if offset < s.length then
    match _h : engine.answer s offset with
    | .found .blank n => engine.next s (offset + n)
    | .found (.token c) n =>
      let lexeme := (s.drop offset).take n
      ([], ⟨c, lexeme, ⟨offset, offset + lexeme.length⟩⟩, offset + n)
    | .unconsumed failed =>
      let (es, t, offset') := engine.next s (resume s.length offset failed)
      (report s offset failed :: es, t, offset')
  else ([], Token.endAt s.length, offset)
termination_by s.length - offset
decreasing_by
  · have := bounds_of_found (by assumption)
    omega
  · have := lt_resume (by assumption : offset < s.length) failed
    omega

/-- What the next calls for a token come across, from an offset on. -/
def take (engine : Engine) (s : Bytes) : (calls offset : Nat) → List ScanEvent
  | 0, _ => []
  | calls + 1, offset =>
    let (es, t, offset') := engine.next s offset
    es.map .error ++ .token t :: engine.take s calls offset'

/-- The automaton of the token patterns as an engine. It gives up behind the byte that no pattern
can go on with. -/
def automaton : Engine where
  answer s offset :=
    match longest .start (s.drop offset) with
    | some (what, n) => .found what n
    | none => .unconsumed (offset + reach .start (s.drop offset) : Nat)
  longest_of_found := by
    intro s offset what n h
    split at h
    · rename_i hlong
      cases h
      exact hlong
    · cases h

theorem longest_of_unconsumed {s : Bytes} {offset : Nat} {failed : Int}
    (h : automaton.answer s offset = .unconsumed failed) :
    longest .start (s.drop offset) = none ∧
      failed = (offset + reach .start (s.drop offset) : Nat) := by
  simp only [automaton] at h
  split at h
  · cases h
  · rename_i hlong
    cases h
    exact ⟨hlong, rfl⟩

end Engine

/-! ### Accounts of a part of a text -/

/-- Where an event was come across. -/
def ScanEvent.span : ScanEvent → Span
  | .token t => t.span
  | .error e => e.span

/-- An event tells what stands in a text at its place: a token has the text there, and a report
quotes it. -/
def ScanEvent.Tells (s : Bytes) : ScanEvent → Prop
  | .token t => t.category ≠ .endOfInput ∧ t.lexeme ≠ [] ∧ t.lexeme = s.slice t.span.lo t.span.hi
  | .error e => e.cause.message
      = utf8 "unrecognized input " ++ Quoted.quote (s.slice e.span.lo e.span.hi)

/-- Events account for every byte of a text between two offsets. -/
inductive Accounts (s : Bytes) : Nat → List ScanEvent → Nat → Prop
  | nil (i : Nat) : Accounts s i [] i
  | blank {i j : Nat} {b : UInt8} {events : List ScanEvent} (hb : s[i]? = some b)
      (hblank : isBlank b = true) (h : Accounts s (i + 1) events j) : Accounts s i events j
  | event {j : Nat} {events : List ScanEvent} (event : ScanEvent)
      (hroom : event.span.lo < event.span.hi) (htells : event.Tells s)
      (h : Accounts s event.span.hi events j) : Accounts s event.span.lo (event :: events) j

namespace Accounts

variable {s : Bytes} {i j k : Nat} {events events' : List ScanEvent}

theorem append (h : Accounts s i events j) (h' : Accounts s j events' k) :
    Accounts s i (events ++ events') k := by
  induction h with
  | nil i => exact h'
  | blank hb hblank _ ih => exact .blank hb hblank (ih h')
  | event event hroom htells _ ih => exact .event event hroom htells (ih h')

theorem le (h : Accounts s i events j) : i ≤ j := by
  induction h with
  | nil i => exact Nat.le_refl i
  | blank _ _ _ ih => omega
  | event _ hroom _ _ ih => omega

/-- Every event stands in the part of the text, and tells what stands at its place. -/
theorem of_mem (h : Accounts s i events j) : ∀ event ∈ events,
    i ≤ event.span.lo ∧ event.span.lo < event.span.hi ∧ event.span.hi ≤ j ∧ event.Tells s := by
  induction h with
  | nil i => simp
  | blank _ _ _ ih =>
    intro event hmem
    have hevent := ih event hmem
    exact ⟨by omega, hevent.2⟩
  | @event j events event hroom htells h ih =>
    intro event' hmem
    rcases List.mem_cons.mp hmem with rfl | hmem
    · exact ⟨Nat.le_refl _, hroom, h.le, htells⟩
    · have hevent := ih event' hmem
      exact ⟨by omega, hevent.2⟩

/-- The events stand one behind the other. -/
theorem pairwise (h : Accounts s i events j) :
    events.Pairwise fun a b => a.span.hi ≤ b.span.lo := by
  induction h with
  | nil i => exact .nil
  | blank _ _ _ ih => exact ih
  | event _ _ _ h ih =>
    refine List.pairwise_cons.mpr ⟨?_, ih⟩
    intro event' hmem
    exact (h.of_mem event' hmem).1

/-- What no event stands on is blank. -/
theorem covers (h : Accounts s i events j) : ∀ n, i ≤ n → n < j →
    (∃ event ∈ events, event.span.lo ≤ n ∧ n < event.span.hi) ∨
      ∃ b, s[n]? = some b ∧ isBlank b = true := by
  induction h with
  | nil i =>
    intro n hlo hhi
    omega
  | @blank i j b events hb hblank _ ih =>
    intro n hlo hhi
    by_cases hn : n = i
    · rw [hn]
      exact .inr ⟨b, hb, hblank⟩
    · exact ih n (by omega) hhi
  | @event j events event hroom htells _ ih =>
    intro n hlo hhi
    by_cases hn : n < event.span.hi
    · exact .inl ⟨event, by simp, hlo, hn⟩
    · rcases ih n (by omega) hhi with ⟨event', hmem, hplace⟩ | hblank
      · exact .inl ⟨event', by simp [hmem], hplace⟩
      · exact .inr hblank

/-- Several blanks in front. -/
theorem blanks {n : Nat} (hn : i + n ≤ s.length)
    (hblank : ∀ b ∈ (s.drop i).take n, isBlank b = true) (h : Accounts s (i + n) events j) :
    Accounts s i events j := by
  induction n generalizing i with
  | zero => exact h
  | succ n ih =>
    have hi : i < s.length := by omega
    rw [List.drop_eq_getElem_cons hi, List.take_succ_cons] at hblank
    obtain ⟨hfirst, hrest⟩ := List.forall_mem_cons.mp hblank
    refine .blank (List.getElem?_eq_getElem hi) hfirst (ih (by omega) hrest ?_)
    rwa [Nat.add_assoc, Nat.add_comm 1]

end Accounts

/-- A match of blank space is made of blanks. -/
theorem blank_of_longest {s : Bytes} {n : Nat} (h : longest .start s = some (.blank, n)) :
    ∀ b ∈ s.take n, isBlank b = true := by
  cases s with
  | nil => cases h
  | cons a s =>
    have ha := isBlank_of_longest h
    have hnext : State.next .start a = some .blank := by simp [State.next, ha]
    rw [longest_cons_of_some hnext, longest_blank] at h
    simp only [Option.some.injEq, Prod.mk.injEq, true_and] at h
    have htake : s.take (s.takeWhile isBlank).length = s.takeWhile isBlank :=
      (List.prefix_iff_eq_take.mp (List.takeWhile_prefix isBlank)).symm
    intro b hb
    rw [← h, List.take_succ_cons, htake] at hb
    rcases List.mem_cons.mp hb with rfl | hb
    · exact ha
    · exact List.all_eq_true.mp List.all_takeWhile b hb

/-! ### One call -/

namespace Engine

variable {s : Bytes}

/-- A call accounts for what it passes over: up to the end of the text, or up to behind a token. -/
def Passes (s : Bytes) (offset : Nat) : List SyntaxError × Token × Nat → Prop
  | (es, t, offset') =>
    (t = Token.endAt s.length ∧ offset' = s.length ∧
      Accounts s offset (es.map .error) s.length) ∨
    (offset < offset' ∧ offset' ≤ s.length ∧
      Accounts s offset (es.map .error ++ [.token t]) offset')

/-- Blanks or a report in front of what a call passes over. -/
theorem Passes.behind {i j : Nat} {es : List SyntaxError} {t : Token} {offset : Nat}
    (es' : List SyntaxError) (hij : i ≤ j)
    (hfront : ∀ {events : List ScanEvent} {k : Nat}, Accounts s j events k →
      Accounts s i (es'.map .error ++ events) k)
    (h : Passes s j (es, t, offset)) :
    Passes s i (es' ++ es, t, offset) := by
  rcases h with ⟨hend, hoffset, hrest⟩ | ⟨hlt, hle, hrest⟩
  · refine .inl ⟨hend, hoffset, ?_⟩
    rw [List.map_append]
    exact hfront hrest
  · refine .inr ⟨by omega, hle, ?_⟩
    rw [List.map_append, List.append_assoc]
    exact hfront hrest

theorem passes_next (engine : Engine) {offset : Nat} (h : offset ≤ s.length) :
    Passes s offset (engine.next s offset) := by
  fun_induction Engine.next engine s offset with
  | case1 offset hlt n hanswer ih =>
    have hbounds := bounds_of_found hanswer
    have hblank := blank_of_longest (engine.longest_of_found hanswer)
    have hbehind := ih (by omega)
    obtain ⟨es, t, offset', hnext⟩ : ∃ es t offset',
        engine.next s (offset + n) = (es, t, offset') := ⟨_, _, _, rfl⟩
    rw [hnext] at hbehind ⊢
    refine hbehind.behind [] (by omega) ?_
    intro events k hrest
    exact hrest.blanks (by omega) hblank
  | case2 offset hlt c n hanswer lexeme =>
    obtain ⟨hpos, hle⟩ := bounds_of_found hanswer
    have hlength : lexeme.length = n := by
      rw [List.length_take, List.length_drop]
      omega
    have hcut : lexeme = s.slice offset (offset + lexeme.length) := by
      rw [hlength, Bytes.slice, Nat.add_sub_cancel_left]
    have hfull : lexeme ≠ [] := by
      intro hnil
      rw [hnil] at hlength
      simp at hlength
      omega
    have hroom : offset < offset + lexeme.length := by omega
    refine .inr ⟨by omega, by omega, ?_⟩
    rw [← hlength]
    exact .event (.token ⟨c, lexeme, ⟨offset, offset + lexeme.length⟩⟩) hroom
      ⟨category_ne_end (engine.longest_of_found hanswer), hfull, hcut⟩ (.nil _)
  | case3 offset hlt failed hanswer es t offset' hnext ih =>
    obtain ⟨hroom, hle⟩ := lt_resume hlt failed
    have hbehind := ih hle
    rw [hnext] at hbehind
    refine hbehind.behind [report s offset failed] (by omega) ?_
    intro events k hrest
    exact .event (.error (report s offset failed)) hroom rfl hrest
  | case4 offset hge =>
    have hoffset : offset = s.length := by omega
    rw [hoffset]
    exact .inl ⟨rfl, rfl, .nil _⟩

/-! ### Calls up to the end and beyond -/

theorem next_at_end (engine : Engine) :
    engine.next s s.length = ([], Token.endAt s.length, s.length) := by
  rw [Engine.next, if_neg (by omega)]

theorem take_at_end (engine : Engine) (calls : Nat) :
    engine.take s calls s.length = List.replicate calls (.token (Token.endAt s.length)) := by
  induction calls with
  | zero => rfl
  | succ calls ih =>
    rw [Engine.take, next_at_end]
    simp only [List.map_nil, List.nil_append, ih]
    rfl

/-- There are no more calls up to the end than bytes, and they account for every byte. -/
theorem accounts_take (engine : Engine) {offset : Nat} (h : offset ≤ s.length) :
    ∃ events calls, calls ≤ s.length - offset ∧ Accounts s offset events s.length ∧
      ∀ more, engine.take s (calls + (more + 1)) offset
        = events ++ List.replicate (more + 1) (.token (Token.endAt s.length)) := by
  induction hleft : s.length - offset using Nat.strongRecOn generalizing offset with
  | ind left ih =>
    have hpasses := passes_next engine h
    obtain ⟨es, t, offset', hnext⟩ : ∃ es t offset',
        engine.next s offset = (es, t, offset') := ⟨_, _, _, rfl⟩
    rw [hnext] at hpasses
    rcases hpasses with ⟨hend, hoffset, hrest⟩ | ⟨hlt, hle, hfirst⟩
    · refine ⟨es.map .error, 0, by omega, hrest, ?_⟩
      intro more
      rw [Nat.zero_add, Engine.take, hnext]
      simp only [hoffset, take_at_end, hend, List.replicate_succ]
    · obtain ⟨events, calls, hcalls, hrest, htake⟩ := ih (s.length - offset') (by omega) hle rfl
      refine ⟨es.map .error ++ [.token t] ++ events, calls + 1, by omega, hfirst.append hrest, ?_⟩
      intro more
      rw [Nat.add_right_comm, Engine.take, hnext]
      simp only [htake more]
      simp

/-! ### The automaton as an engine -/

/-- What the scanner of this library makes of the lead of what is left. -/
theorem next_of_lead {offset n : Nat} {l : Lead} (hlt : offset < s.length)
    (h : lead (s.drop offset) = (l, n)) :
    1 ≤ n ∧ n ≤ s.length - offset ∧
    Scanner.next ⟨offset, s.drop offset⟩ = match l.event? offset n (s.drop offset) with
      | some (.token t) => ([], t, ⟨offset + n, s.drop (offset + n)⟩)
      | some (.error e) =>
        let (es, t, behind) := Scanner.next ⟨offset + n, s.drop (offset + n)⟩
        (e :: es, t, behind)
      | none => Scanner.next ⟨offset + n, s.drop (offset + n)⟩ := by
  obtain ⟨b, bs, hcons⟩ : ∃ b bs, s.drop offset = b :: bs :=
    ⟨_, _, List.drop_eq_getElem_cons hlt⟩
  rw [hcons] at h
  rw [← List.length_drop, ← List.drop_drop, hcons]
  obtain ⟨hpos, hle⟩ := lead_le h
  refine ⟨hpos, hle, ?_⟩
  have hdrop : (b :: bs).drop n = bs.drop (n - 1) := by
    cases n with
    | zero => omega
    | succ n => rfl
  cases hevent : l.event? offset n (b :: bs) with
  | none =>
    rw [Scanner.next, h]
    simp only [hevent, hdrop]
  | some event =>
    rw [Scanner.next, h]
    cases event <;> simp only [hevent, hdrop]

/-- The scanner of this library is the one whose engine is the automaton. -/
theorem next_automaton {offset : Nat} (h : offset ≤ s.length) :
    Scanner.next ⟨offset, s.drop offset⟩
      = let (es, t, offset') := automaton.next s offset
        (es, t, ⟨offset', s.drop offset'⟩) := by
  fun_induction Engine.next automaton s offset with
  | case1 offset hlt n hanswer ih =>
    have hlead : lead (s.drop offset) = (.blank, n) := by
      rw [lead, automaton.longest_of_found hanswer]
    obtain ⟨-, hle, hnext⟩ := next_of_lead hlt hlead
    rw [hnext]
    exact ih (by omega)
  | case2 offset hlt c n hanswer lexeme =>
    have hlead : lead (s.drop offset) = (.token c, n) := by
      rw [lead, automaton.longest_of_found hanswer]
    obtain ⟨-, hle, hnext⟩ := next_of_lead hlt hlead
    have hlength : lexeme.length = n := by
      rw [List.length_take, List.length_drop]
      omega
    rw [hnext]
    simp only [Lead.event?, hlength]
    rfl
  | case3 offset hlt failed hanswer es t offset' hbehind ih =>
    obtain ⟨hlong, rfl⟩ := longest_of_unconsumed hanswer
    generalize hn : reach .start (s.drop offset) = n at hbehind ih ⊢
    have hlead : lead (s.drop offset) = (.unrecognized, n) := by
      rw [lead, hlong, hn]
    obtain ⟨hpos, hle, hnext⟩ := next_of_lead hlt hlead
    -- the place where the automaton gives up is one where scanning can go on
    have hresume : resume s.length offset (offset + n : Nat) = offset + n := by
      have hon : ¬ ((offset + n : Nat) : Int) ≤ offset := by omega
      have hwithin : ¬ offset + n > s.length := by omega
      simp only [resume, hon, if_false, Int.toNat_natCast, hwithin]
    have hreport : report s offset (offset + n : Nat)
        = ⟨⟨offset, offset + n⟩, .unrecognized ((s.drop offset).take n)⟩ := by
      simp only [report, hresume, Bytes.slice, Nat.add_sub_cancel_left]
    rw [hresume] at hbehind ih
    have hrec := ih (by omega)
    rw [hbehind] at hrec
    rw [hnext, hreport]
    simp only [Lead.event?, hrec]
  | case4 offset hge =>
    have hoffset : offset = s.length := by omega
    rw [hoffset, List.drop_length, Scanner.next]
    simp

theorem take_automaton {offset : Nat} (h : offset ≤ s.length) (calls : Nat) :
    Scanner.take calls ⟨offset, s.drop offset⟩ = automaton.take s calls offset := by
  induction calls generalizing offset with
  | zero => rfl
  | succ calls ih =>
    have hpasses := passes_next automaton h
    have hnext := next_automaton h
    obtain ⟨es, t, offset', hcall⟩ : ∃ es t offset',
        automaton.next s offset = (es, t, offset') := ⟨_, _, _, rfl⟩
    rw [hcall] at hpasses hnext
    have hle : offset' ≤ s.length := by
      rcases hpasses with ⟨-, hoffset, -⟩ | ⟨-, hle, -⟩
      · omega
      · exact hle
    rw [Scanner.take, hnext, Engine.take, hcall]
    simp only [ih hle]

end Engine

theorem mem_blanks_iff {b : UInt8} : b ∈ utf8 " \t\n\r" ↔ isBlank b = true := by
  have hblanks : utf8 " \t\n\r" = [0x20, 0x09, 0x0A, 0x0D] := by decide
  rw [hblanks]
  simp [isBlank, or_assoc]

/-- **Every byte is accounted for, and scanning always ends.** Whatever an engine answers, asking
for tokens gets to the end of a text after no more calls than there are bytes, and from then on
gives the token of the end. The tokens and reports on the way take up room, one behind the other;
each token has the text at its place, each report quotes the text at its place, and what neither a
token nor a report stands on is a blank, a tab or a line end. The scanner of this library is the
one whose engine is the automaton of the token patterns. -/
theorem every_byte_accounted (engine : Engine) (s : Bytes) :
    (∃ events : List ScanEvent, ∃ calls ≤ s.length,
      (∀ more, engine.take s (calls + (more + 1)) 0
        = events ++ List.replicate (more + 1) (.token (Token.endAt s.length))) ∧
      (∀ event ∈ events, event.span.lo < event.span.hi ∧ event.span.hi ≤ s.length ∧
        event.Tells s) ∧
      (events.Pairwise fun a b => a.span.hi ≤ b.span.lo) ∧
      ∀ i (h : i < s.length), (∃ event ∈ events, event.span.lo ≤ i ∧ i < event.span.hi) ∨
        s[i] ∈ utf8 " \t\n\r") ∧
    ∀ calls, (Scanner.ofText s).take calls = Engine.automaton.take s calls 0 := by
  constructor
  · obtain ⟨events, calls, hcalls, haccounts, htake⟩ := engine.accounts_take (Nat.zero_le s.length)
    refine ⟨events, calls, hcalls, htake, ?_, haccounts.pairwise, ?_⟩
    · intro event hmem
      exact (haccounts.of_mem event hmem).2
    · intro i hi
      rcases haccounts.covers i (Nat.zero_le i) hi with hevent | ⟨b, hb, hblank⟩
      · exact .inl hevent
      · rw [List.getElem?_eq_getElem hi, Option.some.injEq] at hb
        rw [hb]
        exact .inr (mem_blanks_iff.mpr hblank)
  · intro calls
    exact Engine.take_automaton (Nat.zero_le s.length) calls

end RelaxArith
