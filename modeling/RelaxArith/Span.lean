/-
Spans: where in a text a token or a node of a tree was written.

A span is a start offset and the offset just behind the end, both counted in bytes.  It is a
note for the reader of a message and never takes part in comparing trees.  The null span 0…0
stands for "no position".
-/
import RelaxArith.Text

namespace RelaxArith

/-- The bytes from `lo` up to, but not including, `hi`. -/
structure Span where
  lo : Nat
  hi : Nat
deriving DecidableEq, Repr, Inhabited

namespace Span

/-- The span of nothing in particular. -/
def null : Span := ⟨0, 0⟩

/-- Is a span the null span? -/
def isNull (s : Span) : Bool := s.lo == 0 && s.hi == 0

/-- How many numbers a word of 64 bits can hold. -/
def wordSize : Nat := 0x10000000000000000

/-- Length of a span in 64-bit words: a span that ends before it starts wraps around. -/
def len (s : Span) : Nat := (s.hi + wordSize - s.lo) % wordSize

/-- The smallest span that covers two spans; the null span adds nothing. -/
def extend (s t : Span) : Span :=
  if s.isNull then t
  else if t.isNull then s
  else ⟨if t.lo < s.lo then t.lo else s.lo, if t.hi > s.hi then t.hi else s.hi⟩

/-- The form in which messages show a span. -/
def render (s : Span) : Bytes :=
  utf8 "(" ++ Bytes.decimal s.lo ++ utf8 "…" ++ Bytes.decimal s.hi ++ utf8 ")"

end Span
end RelaxArith
