/-
Scanning: text to tokens.

At each position the longest beginning that is a token or blank space is taken off.  Where there
is none, everything through the byte that no pattern can go on with is reported as unrecognized
and skipped.  So every byte of the input is blank, part of a token or part of a report, and
scanning always ends.
-/
import RelaxArith.Token.Automaton

namespace RelaxArith

/-- What scanning comes across. -/
inductive ScanEvent where
  | token (t : Token)
  | error (e : SyntaxError)
deriving DecidableEq, Repr

/-- What stands at the beginning of a text. -/
inductive Lead where
  | blank
  | token (category : Category)
  | unrecognized
deriving DecidableEq, Repr

/-- What stands at the beginning of a text, and how many bytes it takes. -/
def lead (s : Bytes) : Lead × Nat :=
  match Automaton.longest .start s with
  | some (.blank, n) => (.blank, n)
  | some (.token c, n) => (.token c, n)
  | none => (.unrecognized, Automaton.reach .start s)

/-- What a lead of `n` bytes at an offset gives rise to. -/
def Lead.event? (l : Lead) (offset n : Nat) (s : Bytes) : Option ScanEvent :=
  match l with
  | .blank => none
  | .token c => some (.token ⟨c, s.take n, ⟨offset, offset + n⟩⟩)
  | .unrecognized => some (.error ⟨⟨offset, offset + n⟩, .unrecognized (s.take n)⟩)

/-- Tokens and reports of a text that begins at an offset, without the token at its end. -/
def scanFrom (offset : Nat) (s : Bytes) : List ScanEvent :=
  match s with
  | [] => []
  | b :: bs =>
    let (l, n) := lead (b :: bs)
    (l.event? offset n (b :: bs)).toList ++ scanFrom (offset + n) (bs.drop (n - 1))
termination_by s.length

/-- Tokens and reports of a text, without the token at its end. -/
def scan (s : Bytes) : List ScanEvent := scanFrom 0 s

/-- A scanner: the text still to be read and its offset. -/
structure Scanner where
  offset : Nat
  rest : Bytes

namespace Scanner

/-- A scanner at the beginning of a text. -/
def ofText (s : Bytes) : Scanner := ⟨0, s⟩

/-- The next token, the reports on the way to it, and the scanner behind it. At the end of the
text this is the token of the end, again and again. -/
def next (s : Scanner) : List SyntaxError × Token × Scanner :=
  match s with
  | ⟨offset, []⟩ => ([], Token.endAt offset, ⟨offset, []⟩)
  | ⟨offset, b :: bs⟩ =>
    let (l, n) := lead (b :: bs)
    let behind : Scanner := ⟨offset + n, bs.drop (n - 1)⟩
    match l.event? offset n (b :: bs) with
    | some (.token t) => ([], t, behind)
    | some (.error e) =>
      let (es, t, s') := next behind
      (e :: es, t, s')
    | none => next behind
termination_by s.rest.length
decreasing_by all_goals exact Nat.lt_succ_of_le (by rw [List.length_drop]; exact Nat.sub_le _ _)

/-- What the next `n` calls for a token come across. -/
def take : Nat → Scanner → List ScanEvent
  | 0, _ => []
  | n + 1, s =>
    let (es, t, s') := s.next
    es.map .error ++ .token t :: take n s'

end Scanner

/-- What is come across by asking for tokens up to the end of a text, and then `extra` times more. -/
def scanSession (s : Bytes) (extra : Nat) : List ScanEvent :=
  scan s ++ (⟨s.length, []⟩ : Scanner).take (extra + 1)

/-- Tokens of a text, or the first report. -/
def tokens (s : Bytes) : Except SyntaxError (List Token) :=
  (scan s).foldr
    (fun ev rest =>
      match ev with
      | .token t => rest.map (t :: ·)
      | .error e => .error e)
    (.ok [])

end RelaxArith
