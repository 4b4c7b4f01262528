/-
Where a derivation stands in its input.

The text of a subscript is cut out of the input, so a derivation depends on where its tokens
stand.  This file says how: the tokens of a spelled text stand in order and apart, every tree
covers exactly its own tokens, and the text that it covers is spelled by them.

A derivation can therefore be carried to any other input in which the same text occurs.  The tree
that it has there differs in spans only: the text of a subscript comes along with its tokens.
-/
import RelaxArith.Proofs.Parser.Phrases
import RelaxArith.Proofs.Scan.Spelling

namespace RelaxArith

/-! ### Rows of tokens in order -/

/-- The tokens take up room and stand one behind the other. -/
def Ordered (ts : List Token) : Prop :=
  (∀ t ∈ ts, t.span.lo < t.span.hi) ∧ ts.Pairwise fun t u => t.span.hi ≤ u.span.lo

theorem Ordered.left {ts us : List Token} (h : Ordered (ts ++ us)) : Ordered ts :=
  ⟨fun t ht => h.1 t (List.mem_append_left us ht), (List.pairwise_append.mp h.2).1⟩

theorem Ordered.right {ts us : List Token} (h : Ordered (ts ++ us)) : Ordered us :=
  ⟨fun t ht => h.1 t (List.mem_append_right ts ht), (List.pairwise_append.mp h.2).2.1⟩

theorem Ordered.tail {t : Token} {ts : List Token} (h : Ordered (t :: ts)) : Ordered ts :=
  Ordered.right (show Ordered ([t] ++ ts) from h)

theorem Spelled.ordered {n : Nat} {s v : Bytes} {ts : List Token} (h : Spelled n s v ts) :
    Ordered ts := by
  refine ⟨fun t ht => (h.span t ht).2.1, ?_⟩
  induction h with
  | nil => exact .nil
  | blank _ _ ih => exact ih
  | token _ h ih =>
    refine List.pairwise_cons.mpr ⟨?_, ih⟩
    intro u hu
    exact (h.span u hu).1

/-! ### Spans over rows -/

/-- A span reaches from the first to the last of some tokens. -/
def Span.Covers (s : Span) (ts : List Token) : Prop :=
  ∃ a ∈ ts.head?, ∃ b ∈ ts.getLast?, s = ⟨a.span.lo, b.span.hi⟩

/-- A span lies within another. -/
def Span.Within (s t : Span) : Prop := t.lo ≤ s.lo ∧ s.hi ≤ t.hi

/-- A span over tokens in order reaches over each of them. -/
theorem Span.Covers.over {p : Span} {ts : List Token} (hp : p.Covers ts) (hts : Ordered ts)
    {t : Token} (ht : t ∈ ts) : t.span.Within p := by
  obtain ⟨a, ha, b, hb, rfl⟩ := hp
  obtain ⟨hroom, horder⟩ := hts
  have ht_room := hroom t ht
  constructor
  · obtain ⟨rest, rfl⟩ := List.head?_eq_some_iff.mp ha
    rcases List.mem_cons.mp ht with rfl | hrest
    · exact Nat.le_refl _
    · have hbefore := (List.pairwise_cons.mp horder).1 t hrest
      have ha_room := hroom a List.mem_cons_self
      show a.span.lo ≤ t.span.lo
      omega
  · obtain ⟨before, rfl⟩ := List.getLast?_eq_some_iff.mp hb
    rcases List.mem_append.mp ht with hmem | hlast
    · have hbehind := (List.pairwise_append.mp horder).2.2 t hmem b (List.mem_singleton_self b)
      have hb_room := hroom b (List.mem_append_right before (List.mem_singleton_self b))
      show t.span.hi ≤ b.span.hi
      omega
    · obtain rfl := List.mem_singleton.mp hlast
      exact Nat.le_refl _

/-- A span over tokens takes up room: there is a token, and it does. -/
theorem Span.Covers.room {p : Span} {ts : List Token} (hp : p.Covers ts) (hts : Ordered ts) :
    p.lo < p.hi := by
  have ⟨a, ha, _⟩ := hp
  have hmem := List.mem_of_mem_head? ha
  have hroom := hts.1 a hmem
  obtain ⟨hlo, hhi⟩ := hp.over hts hmem
  omega

/-- A span over some of the tokens in order lies within a span over all of them. -/
theorem Span.Covers.within {p q : Span} {ts us : List Token} (hq : q.Covers us)
    (hp : p.Covers ts) (hts : Ordered ts) (hus : us ⊆ ts) : q.Within p := by
  obtain ⟨a, ha, b, hb, rfl⟩ := hq
  have hfirst := hp.over hts (hus (List.mem_of_mem_head? ha))
  have hlast := hp.over hts (hus (List.mem_of_mem_getLast? hb))
  exact ⟨hfirst.1, hlast.2⟩

theorem Token.covers (t : Token) : t.span.Covers [t] := ⟨t, rfl, t, rfl, rfl⟩

/-- Two spans together reach over everything between them. -/
theorem Span.Covers.extend {s s' : Span} {ts us : List Token} (hs : s.Covers ts)
    (ms : List Token) (hs' : s'.Covers us) (h : Ordered (ts ++ (ms ++ us))) :
    (s.extend s').Covers (ts ++ (ms ++ us)) := by
  obtain ⟨a, ha, b, hb, rfl⟩ := hs
  obtain ⟨a', ha', b', hb', rfl⟩ := hs'
  have hmem := List.mem_of_mem_head? ha
  have hmem' := List.mem_of_mem_getLast? hb'
  obtain ⟨hroom, horder⟩ := h
  have hbefore := (List.pairwise_append.mp horder).2.2
  have haa' : a.span.hi ≤ a'.span.lo :=
    hbefore a hmem a' (List.mem_append_right ms (List.mem_of_mem_head? ha'))
  have hbb' : b.span.hi ≤ b'.span.lo :=
    hbefore b (List.mem_of_mem_getLast? hb) b' (List.mem_append_right ms hmem')
  have ha_room : a.span.lo < a.span.hi := hroom a (List.mem_append_left _ hmem)
  have hb_room : b.span.lo < b.span.hi :=
    hroom b (List.mem_append_left _ (List.mem_of_mem_getLast? hb))
  have hb'_room : b'.span.lo < b'.span.hi :=
    hroom b' (List.mem_append_right ts (List.mem_append_right ms hmem'))
  refine ⟨a, ?_, b', ?_, ?_⟩
  · rw [List.head?_append, ha]
    rfl
  · rw [List.getLast?_append, List.getLast?_append, hb']
    rfl
  · have hnull : Span.isNull ⟨a.span.lo, b.span.hi⟩ = false := by
      simp [Span.isNull]
      omega
    have hnull' : Span.isNull ⟨a'.span.lo, b'.span.hi⟩ = false := by
      simp [Span.isNull]
      omega
    rw [Span.extend, hnull, hnull']
    simp only [Bool.false_eq_true, if_false]
    rw [if_neg (by omega), if_pos (by omega)]

namespace Grammar

variable {π : Type} {input : Bytes}

/-- A tree covers the tokens it was derived from. -/
theorem Derives.covers {ts : List Token} {p : Phrase π} (h : Derives input ts p)
    (hord : Ordered ts) : ∀ k e, p = .expr k e → e.span.Covers ts := by
  induction h with
  | tighter hlo hhi h ih =>
    rintro k e ⟨⟩
    exact ih hord _ _ rfl
  | @assignment ts us l r t hl ht hr ihl ihr =>
    rintro k e ⟨⟩
    exact (ihl hord.left _ _ rfl).extend [t] (ihr hord.right.tail _ _ rfl) hord
  | @compound ts us l r t hl hcat hop hne hr ihl ihr =>
    rintro k e ⟨⟩
    exact (ihl hord.left _ _ rfl).extend [t] (ihr hord.right.tail _ _ rfl) hord
  | @operation k ts us l r t hlo hhi hl hcat hop hr ihl ihr =>
    rintro k e ⟨⟩
    exact (ihl hord.left _ _ rfl).extend [t] (ihr hord.right.tail _ _ rfl) hord
  | @prefixed ts x t hcat hop hx ih =>
    rintro k e ⟨⟩
    exact t.covers.extend [] (ih hord.tail _ _ rfl) hord
  | @call ts us f args o c hf ho hargs hc ihf ihargs =>
    rintro k e ⟨⟩
    exact (ihf hord.left _ _ rfl).extend (o :: us) c.covers hord
  | @subscript ts us e i o c he ho hi hc ihe ihi =>
    rintro k x ⟨⟩
    exact (ihe hord.left _ _ rfl).extend (o :: us) c.covers hord
  | @name t h =>
    rintro k e ⟨⟩
    exact t.covers
  | @number t h =>
    rintro k e ⟨⟩
    exact t.covers
  | @text t h =>
    rintro k e ⟨⟩
    exact t.covers
  | @group ts es o c ho hes hc ih =>
    rintro k e ⟨⟩
    exact o.covers.extend ts c.covers hord
  | lastElement | nextElement | unlabeled | labeled | lastArgument | nextArgument | noArguments
  | someArguments => intro k e hp; cases hp

end Grammar

/-! ### Rows of tokens in an input -/

theorem slice_window (u s v : Bytes) {i j : Nat} (hj : j ≤ s.length) :
    Bytes.slice (u ++ (s ++ v)) (u.length + i) (u.length + j) = Bytes.slice s i j := by
  unfold Bytes.slice
  have hlen : u.length + j - (u.length + i) = j - i := by omega
  rw [hlen, List.drop_append, List.drop_eq_nil_of_le (by omega), List.nil_append,
    Nat.add_sub_cancel_left]
  by_cases hi : i ≤ s.length
  · rw [List.drop_append_of_le_length hi, List.take_append_of_le_length]
    rw [List.length_drop]
    omega
  · have hempty : j - i = 0 := by omega
    rw [hempty, List.take_zero, List.take_zero]

theorem slice_middle (u s v : Bytes) :
    Bytes.slice (u ++ (s ++ v)) u.length (u.length + s.length) = s := by
  have h := slice_window u s v (i := 0) (Nat.le_refl s.length)
  rw [Nat.add_zero] at h
  rw [h]
  simp [Bytes.slice]

/-- Somewhere in an input stands a text that is spelled by some tokens. -/
def Located (input : Bytes) (ts : List Token) : Prop :=
  ∃ u s v, input = u ++ (s ++ v) ∧ Spelled u.length s v ts

variable {input : Bytes}

theorem Located.ordered {ts : List Token} (h : Located input ts) : Ordered ts := by
  obtain ⟨_, _, _, _, hspelled⟩ := h
  exact hspelled.ordered

theorem Located.isWhole {ts : List Token} (h : Located input ts) : ∀ t ∈ ts, t.IsWhole := by
  obtain ⟨_, _, _, _, hspelled⟩ := h
  exact hspelled.isWhole

theorem Located.left {ts us : List Token} (h : Located input (ts ++ us)) : Located input ts := by
  obtain ⟨u, s, v, hin, hspelled⟩ := h
  obtain ⟨s₁, s₂, rfl, hfirst, _⟩ := hspelled.split
  exact ⟨u, s₁, s₂ ++ v, by rw [hin, List.append_assoc], hfirst⟩

theorem Located.right {ts us : List Token} (h : Located input (ts ++ us)) : Located input us := by
  obtain ⟨u, s, v, hin, hspelled⟩ := h
  obtain ⟨s₁, s₂, rfl, _, hsecond, _⟩ := hspelled.split
  refine ⟨u ++ s₁, s₂, v, by rw [hin, List.append_assoc, List.append_assoc], ?_⟩
  rwa [List.length_append]

theorem Located.tail {t : Token} {ts : List Token} (h : Located input (t :: ts)) :
    Located input ts :=
  Located.right (show Located input ([t] ++ ts) from h)

/-- Neighbours among tokens that stand in a text stand in it. -/
theorem Located.of_isInfix {ts us : List Token} (h : Located input ts) (hus : us <:+: ts) :
    Located input us := by
  obtain ⟨before, behind, rfl⟩ := hus
  exact h.left.right

/-- All tokens of a text stand in it. -/
theorem Spelled.located {s : Bytes} {ts : List Token} (h : Spelled 0 s [] ts) : Located s ts :=
  ⟨[], s, [], by rw [List.nil_append, List.append_nil], h⟩

/-- The text that a span covers is spelled by the tokens that the span covers. -/
theorem Located.cut {ts : List Token} {p : Span} (h : Located input ts) (hp : p.Covers ts) :
    ∃ u v, input = u ++ (input.slice p.lo p.hi ++ v) ∧ u.length = p.lo ∧
      p.lo + (input.slice p.lo p.hi).length = p.hi ∧
      Spelled p.lo (input.slice p.lo p.hi) v ts := by
  obtain ⟨u, s, v, hin, hspelled⟩ := h
  obtain ⟨a, ha, b, hb, rfl⟩ := hp
  cases ts with
  | nil => cases ha
  | cons t ts =>
    cases ha
    obtain ⟨w, s', rfl, htrimmed, hlo⟩ := hspelled.trim
    rw [← List.append_nil (a :: ts)] at htrimmed
    obtain ⟨s₁, s₂, rfl, hfirst, _, _, hlast⟩ := htrimmed.split
    have hhi := hlast b hb
    have hin' : input = (u ++ w) ++ (s₁ ++ (s₂ ++ v)) := by
      rw [hin]
      simp only [List.append_assoc]
    rw [← List.length_append] at hlo hhi hfirst
    have hslice : input.slice a.span.lo b.span.hi = s₁ := by
      rw [hlo, hhi, hin', slice_middle]
    refine ⟨u ++ w, s₂ ++ v, ?_, hlo.symm, ?_, ?_⟩
    · rw [hslice, hin']
    · rw [hslice]
      show a.span.lo + s₁.length = b.span.hi
      rw [hlo, hhi]
    · rw [hslice]
      show Spelled a.span.lo s₁ (s₂ ++ v) (a :: ts)
      rwa [hlo]

/-! ### Moving tokens -/

/-- A token that stood behind `a` bytes, now behind `b` bytes. -/
def Token.move (a b : Nat) (t : Token) : Token :=
  { t with span := ⟨b + (t.span.lo - a), b + (t.span.hi - a)⟩ }

theorem Spelled.move {n : Nat} {s v : Bytes} {ts : List Token} (h : Spelled n s v ts) {a : Nat}
    (ha : a ≤ n) (b : Nat) : Spelled (b + (n - a)) s v (ts.map (Token.move a b)) := by
  induction h with
  | nil n v => exact .nil _ v
  | @blank n c s v ts hb _ ih =>
    refine .blank hb ?_
    have hnext : b + (n + 1 - a) = b + (n - a) + 1 := by omega
    rw [← hnext]
    exact ih (by omega)
  | @token n c w s v ts hw _ ih =>
    have hnext : b + (n + w.length - a) = b + (n - a) + w.length := by omega
    rw [List.map_cons, Token.move]
    simp only [hnext]
    refine .token hw ?_
    rw [← hnext]
    exact ih (by omega)

theorem Ordered.move {ts : List Token} (h : Ordered ts) {a : Nat}
    (ha : ∀ t ∈ ts, a ≤ t.span.lo) (b : Nat) : Ordered (ts.map (Token.move a b)) := by
  constructor
  · intro u hu
    obtain ⟨t, ht, rfl⟩ := List.mem_map.mp hu
    have hroom := h.1 t ht
    have hfrom := ha t ht
    simp only [Token.move]
    omega
  · rw [List.pairwise_map]
    refine h.2.imp ?_
    intro t u htu
    simp only [Token.move]
    omega

theorem Span.Covers.move {s s' : Span} {ts : List Token} {a b : Nat} (hs : s.Covers ts)
    (hs' : s'.Covers (ts.map (Token.move a b))) :
    s' = ⟨b + (s.lo - a), b + (s.hi - a)⟩ := by
  obtain ⟨x, hx, y, hy, rfl⟩ := hs
  obtain ⟨x', hx', y', hy', rfl⟩ := hs'
  rw [List.head?_map, hx] at hx'
  rw [List.getLast?_map, hy] at hy'
  cases hx'
  cases hy'
  rfl

/-! ### Carrying a derivation to another input -/

namespace Grammar

variable {π : Type}

section Transfer

variable {input' u u' s v v' : Bytes}

/-- The tokens stand between two offsets. -/
def Within (lo hi : Nat) (ts : List Token) : Prop := ∀ t ∈ ts, lo ≤ t.span.lo ∧ t.span.hi ≤ hi

theorem Within.left {lo hi : Nat} {ts us : List Token} (h : Within lo hi (ts ++ us)) :
    Within lo hi ts :=
  fun t ht => h t (List.mem_append_left us ht)

theorem Within.right {lo hi : Nat} {ts us : List Token} (h : Within lo hi (ts ++ us)) :
    Within lo hi us :=
  fun t ht => h t (List.mem_append_right ts ht)

theorem Within.tail {lo hi : Nat} {t : Token} {ts : List Token} (h : Within lo hi (t :: ts)) :
    Within lo hi ts :=
  fun u hu => h u (List.mem_cons_of_mem t hu)

theorem within_of_spelled {n : Nat} {ts : List Token} (h : Spelled n s v ts) :
    Within n (n + s.length) ts := by
  intro t ht
  obtain ⟨hlo, _, hhi⟩ := h.span t ht
  exact ⟨hlo, hhi⟩

/-- The same text is cut out at both places. -/
theorem slice_move {p p' : Span} {ts : List Token} (hin : input = u ++ (s ++ v))
    (hin' : input' = u' ++ (s ++ v')) (hord : Ordered ts)
    (hts : Within u.length (u.length + s.length) ts) (hp : p.Covers ts)
    (hp' : p'.Covers (ts.map (Token.move u.length u'.length))) :
    input'.slice p'.lo p'.hi = input.slice p.lo p.hi := by
  rw [hp.move hp']
  obtain ⟨a, ha, b, hb, rfl⟩ := hp
  obtain ⟨hlo, _⟩ := hts a (List.mem_of_mem_head? ha)
  obtain ⟨hlo', hhi⟩ := hts b (List.mem_of_mem_getLast? hb)
  have hroom := hord.1 b (List.mem_of_mem_getLast? hb)
  have hwindow := slice_window u s v (i := a.span.lo - u.length) (j := b.span.hi - u.length)
    (by omega)
  rw [Nat.add_sub_cancel' hlo, Nat.add_sub_cancel' (by omega)] at hwindow
  show input'.slice (u'.length + (a.span.lo - u.length)) (u'.length + (b.span.hi - u.length))
    = input.slice a.span.lo b.span.hi
  rw [hin', slice_window u' s v' (by omega), hin, hwindow]

theorem isPunctuation_move {t : Token} {mark : String} (h : t.IsPunctuation mark) (a b : Nat) :
    (t.move a b).IsPunctuation mark := h

/-- **A derivation holds wherever its text stands**, of a tree that differs in spans only. -/
theorem Derives.transfer {ts : List Token} {p : Phrase π} (h : Derives input ts p)
    (hin : input = u ++ (s ++ v)) (hin' : input' = u' ++ (s ++ v')) (hord : Ordered ts)
    (hts : Within u.length (u.length + s.length) ts) :
    IsPhrase π p.erase input' (ts.map (Token.move u.length u'.length)) := by
  induction h with
  | @tighter k _ _ hlo hhi _ ih => exact (ih hord hts).loosen hlo (Nat.le_succ k) (by omega)
  | assignment _ ht _ ihl ihr =>
    rw [List.map_append, List.map_cons]
    exact (ihl hord.left hts.left).assignment ht (ihr hord.right.tail hts.right.tail)
  | compound _ hcat hop hne _ ihl ihr =>
    rw [List.map_append, List.map_cons]
    exact (ihl hord.left hts.left).compound hcat hop hne (ihr hord.right.tail hts.right.tail)
  | operation hlo hhi _ hcat hop _ ihl ihr =>
    rw [List.map_append, List.map_cons]
    exact (ihl hord.left hts.left).operation hlo hhi hcat hop (ihr hord.right.tail hts.right.tail)
  | prefixed hcat hop _ ih =>
    exact (ih hord.tail hts.tail).prefixed hcat hop
  | call _ ho _ hc ihf ihargs =>
    rw [List.map_append, List.map_cons, List.map_append, List.map_singleton]
    exact (ihf hord.left hts.left).call (isPunctuation_move ho _ _)
      (ihargs hord.right.tail.left hts.right.tail.left) (isPunctuation_move hc _ _)
  | @subscript ts us e i o c he ho hi hc ihe ihi =>
    obtain ⟨e', he', _⟩ := (ihe hord.left hts.left).expr
    obtain ⟨i', hi', _⟩ := (ihi hord.right.tail.left hts.right.tail.left).expr
    have hsubscript := Derives.subscript he' (isPunctuation_move ho u.length u'.length) hi'
      (isPunctuation_move hc u.length u'.length)
    have hrow : (ts ++ o :: (us ++ [c])).map (Token.move u.length u'.length)
        = ts.map (Token.move u.length u'.length) ++ o.move u.length u'.length ::
          (us.map (Token.move u.length u'.length) ++ [c.move u.length u'.length]) := by
      simp
    rw [← hrow] at hsubscript
    -- both nodes cover their rows, so the text in the new one is the text in the old one
    have hcovers := (Derives.subscript he ho hi hc).covers hord _ _ rfl
    have hcovers' := hsubscript.covers (hord.move (fun t ht => (hts t ht).1) _) _ _ rfl
    rw [Expr.span] at hcovers hcovers'
    refine ⟨_, hsubscript, ?_⟩
    simp only [Phrase.erase, Expr.erase]
    rw [slice_move hin hin' hord hts hcovers hcovers']
  | @name t h => exact IsPhrase.name (t := t.move u.length u'.length) h
  | @number t h => exact IsPhrase.number (t := t.move u.length u'.length) h
  | @text t h => exact IsPhrase.text (t := t.move u.length u'.length) h
  | group ho _ hc ih =>
    rw [List.map_cons, List.map_append, List.map_singleton]
    exact IsPhrase.group (isPunctuation_move ho _ _) (ih hord.tail.left hts.tail.left)
      (isPunctuation_move hc _ _)
  | lastElement _ ih => exact (ih hord hts).lastElement
  | nextElement _ ht _ ihe ihes =>
    rw [List.map_append, List.map_cons]
    exact (ihe hord.left hts.left).nextElement (isPunctuation_move ht _ _)
      (ihes hord.right.tail hts.right.tail)
  | unlabeled _ ih => exact (ih hord hts).unlabeled
  | labeled ht hc _ ih =>
    exact (ih hord.tail.tail hts.tail.tail).labeled ht (isPunctuation_move hc _ _)
  | lastArgument _ ih => exact (ih hord hts).lastArgument
  | nextArgument _ ht _ iha ihargs =>
    rw [List.map_append, List.map_cons]
    exact (iha hord.left hts.left).nextArgument (isPunctuation_move ht _ _)
      (ihargs hord.right.tail hts.right.tail)
  | noArguments => exact .noArguments
  | someArguments _ ih => exact (ih hord hts).someArguments

end Transfer
end Grammar
end RelaxArith
