/-
The lexemes of Go source.

Source is cut into names, keywords, literals and symbols; a line end behind something that can
end a statement counts as a semicolon.  Comments are kept beside the lexemes.  Positions count
bytes from one, so that zero can stand for "no position".
-/
import RelaxArith.Text
import RelaxArith.Text.Unicode

namespace RelaxArith.Host

/-- The kinds of literals. -/
inductive LiteralKind where
  | int
  | float
  | imaginary
  | char
  | text
deriving DecidableEq, Repr, Inhabited

/-- The kinds of lexemes. -/
inductive LexemeKind where
  | name
  | keyword
  | literal (kind : LiteralKind)
  | symbol
  /-- The semicolon that a line end stands for. -/
  | lineEnd
  /-- The end of the source. -/
  | finish
deriving DecidableEq, Repr, Inhabited

/-- A lexeme, where it stands, and how many bytes of the source it takes. That is more than its
text has if carriage returns were dropped. -/
structure Lexeme where
  kind : LexemeKind
  text : Bytes
  pos : Nat
  width : Nat
deriving DecidableEq, Repr, Inhabited

/-- A comment with its marks, and where it stands. -/
structure Comment where
  text : Bytes
  pos : Nat
deriving DecidableEq, Repr, Inhabited

/-- What source is made of; a comment with the bytes of the source that it takes. -/
inductive Item where
  | lexeme (l : Lexeme)
  | comment (c : Comment) (raw : Bytes)
deriving DecidableEq, Repr, Inhabited

namespace Lex

/-- The keywords. -/
def keywords : List Bytes :=
  ["break", "case", "chan", "const", "continue", "default", "defer", "else", "fallthrough", "for",
   "func", "go", "goto", "if", "import", "interface", "map", "package", "range", "return", "select",
   "struct", "switch", "type", "var"].map utf8

/-- The symbols, longer ones before their beginnings. -/
def symbols : List Bytes :=
  ["<<=", ">>=", "&^=", "...", "<<", ">>", "&^", "+=", "-=", "*=", "/=", "%=", "&=", "|=", "^=",
   "&&", "||", "<-", "++", "--", "==", "!=", "<=", ">=", ":=", "+", "-", "*", "/", "%", "&", "|",
   "^", "<", ">", "=", "!", "~", "(", ")", "[", "]", "\x7b", "\x7d", ",", ";", ".", ":"].map utf8

/-- Can a lexeme end a statement, so that a line end behind it counts as a semicolon? -/
def endsStatement (kind : LexemeKind) (text : Bytes) : Bool :=
  match kind with
  | .name => true
  | .literal _ => true
  | .keyword => [utf8 "break", utf8 "continue", utf8 "fallthrough", utf8 "return"].contains text
  | .symbol => [utf8 "++", utf8 "--", utf8 ")", utf8 "]", utf8 "\x7d"].contains text
  | _ => false

def isDecimal (b : UInt8) : Bool := 0x30 ≤ b && b ≤ 0x39

def isHex (b : UInt8) : Bool := isDecimal b || (0x61 ≤ b && b ≤ 0x66) || (0x41 ≤ b && b ≤ 0x46)

/-- A letter in lower case, for ASCII letters. -/
def lower (b : UInt8) : UInt8 := b ||| 0x20

/-- The value of a hexadecimal digit. -/
def hexValue (b : UInt8) : Nat :=
  if isDecimal b then b.toNat - 0x30 else (lower b).toNat - 0x61 + 10

/-! ### Names -/

/-- The length of the code point that a name may go on with, or zero. -/
def wordLength (first : Bool) (s : Bytes) : Nat :=
  match Bytes.codePoint? s with
  | none => 0
  | some (c, n) =>
    if c < 0x80 then
      let b := c.toUInt8
      if (0x61 ≤ lower b && lower b ≤ 0x7A) || b == 0x5F || (!first && isDecimal b) then 1 else 0
    else if Unicode.isLetter c || (!first && Unicode.isDigit c) then n
    else 0

/-- The length of the rest of a name. -/
def restOfName (s : Bytes) : Nat :=
  match s with
  | [] => 0
  | b :: bs =>
    match wordLength false (b :: bs) with
    | 0 => 0
    | n + 1 => n + 1 + restOfName (bs.drop n)
termination_by s.length

/-! ### Numbers -/

/-- Digits and underscores at the beginning of a text. -/
def digitRun (hex : Bool) (s : Bytes) : Bytes :=
  s.takeWhile fun b => (if hex then isHex b else isDecimal b) || b == 0x5F

/-- A point at the beginning of a text and the digits behind it, if there is one. -/
def fractionRun (hex : Bool) (s : Bytes) : Bytes :=
  match s with
  | 0x2E :: rest => 0x2E :: digitRun hex rest
  | _ => []

/-- Do underscores stand between digits only? `digit` says whether the last byte was a digit. -/
def separatorsOk (hex : Bool) (digit underscore : Bool) : Bytes → Bool
  | [] => !underscore
  | b :: bs =>
    if b == 0x5F then digit && !underscore && separatorsOk hex false true bs
    else if isDecimal b || (hex && isHex b) then separatorsOk hex true false bs
    else !underscore && separatorsOk hex false false bs

/-- The letter behind a leading zero that marks the base of a number, in lower case. -/
def baseMark (s : Bytes) : Option UInt8 :=
  match s with
  | 0x30 :: b :: _ =>
    if lower b == 0x78 || lower b == 0x6F || lower b == 0x62 then some (lower b) else none
  | _ => none

/-- The length of a sign at the beginning of a text. -/
def signLength (s : Bytes) : Nat := if s.head? == some 0x2B || s.head? == some 0x2D then 1 else 0

/-- The length of the exponent of a number, which may be zero; `mark` is the mark of the base. A
hexadecimal number with a point needs one. -/
def exponentLength? (mark : Option UInt8) (pointed : Bool) (s : Bytes) : Option Nat :=
  let letter := s.head?.map lower
  if letter == some 0x65 || letter == some 0x70 then
    if letter == some 0x65 && mark.isSome then none
    else if letter == some 0x70 && mark != some 0x78 then none
    else
      let sign := signLength (s.drop 1)
      let digits := digitRun false (s.drop (1 + sign))
      if digits.all fun b => b == 0x5F then none else some (1 + sign + digits.length)
  else if mark == some 0x78 && pointed then none
  else some 0

/-- Has an integer a digit that its base does not have? -/
def hasWrongDigit (mark : Option UInt8) (s whole : Bytes) : Bool :=
  if mark == some 0x62 then whole.any fun b => isDecimal b && b > 0x31
  else if mark == some 0x6F || (mark.isNone && s.head? == some 0x30) then
    whole.any fun b => isDecimal b && b > 0x37
  else false

/-- The number at the beginning of a text: its kind and length. -/
def number? (s : Bytes) : Option (LiteralKind × Nat) :=
  let mark := baseMark s
  let hex := mark == some 0x78
  let start := if mark.isSome then 2 else 0
  let whole := digitRun hex (s.drop start)
  let fraction := fractionRun hex (s.drop (start + whole.length))
  let pointed := !fraction.isEmpty
  let mantissa := start + whole.length + fraction.length
  if pointed && (mark == some 0x6F || mark == some 0x62) then none
  else if (whole ++ fraction.drop 1).all fun b => b == 0x5F then none
  else
    match exponentLength? mark pointed (s.drop mantissa) with
    | none => none
    | some exponent =>
      let body := mantissa + exponent
      let imaginary := (s.drop body).head? == some 0x69
      let length := body + (if imaginary then 1 else 0)
      let isInt := !pointed && exponent == 0 && !imaginary
      if isInt && hasWrongDigit mark s whole then none
      else if !separatorsOk hex mark.isSome false ((s.take length).drop start) then none
      else some (if imaginary then .imaginary else if isInt then .int else .float, length)

/-! ### Characters and texts -/

/-- The value of digits in a base, if each of them is one. -/
def digitsValue? (base : Nat) (s : Bytes) : Option Nat :=
  s.foldl (fun acc b => acc.bind fun n =>
    if isHex b && hexValue b < base then some (n * base + hexValue b) else none) (some 0)

/-- The length of an escape behind its backslash. -/
def escapeLength? (quote : UInt8) (s : Bytes) : Option Nat :=
  let digits (skip count base most : Nat) : Option Nat :=
    let ds := (s.drop skip).take count
    if ds.length = count then
      match digitsValue? base ds with
      | some n => if n ≤ most && !(0xD800 ≤ n && n < 0xE000) then some (skip + count) else none
      | none => none
    else none
  match s with
  | [] => none
  | b :: _ =>
    if b == quote || ([0x61, 0x62, 0x66, 0x6E, 0x72, 0x74, 0x76, 0x5C] : List UInt8).contains b then
      some 1
    else if 0x30 ≤ b && b ≤ 0x37 then digits 0 3 8 255
    else if b == 0x78 then digits 1 2 16 255
    else if b == 0x75 then digits 1 4 16 0x10FFFF
    else if b == 0x55 then digits 1 8 16 0x10FFFF
    else none

/-- Length up to and including the closing quote, and the number of characters before it. -/
def quoted? (quote : UInt8) (s : Bytes) : Option (Nat × Nat) :=
  match s with
  | [] => none
  | b :: bs =>
    if b == quote then some (1, 0)
    else if b == 0x0A then none
    else if b == 0x5C then do
      let n ← escapeLength? quote bs
      let (len, chars) ← quoted? quote (bs.drop n)
      pure (len + n + 1, chars + 1)
    else do
      let (_, n) ← Bytes.codePoint? (b :: bs)
      let (len, chars) ← quoted? quote (bs.drop (n - 1))
      pure (len + n, chars + 1)
termination_by s.length

/-- The letters of escapes for control characters, and the characters. -/
def controls : List (UInt8 × UInt8) :=
  [(0x61, 0x07), (0x62, 0x08), (0x66, 0x0C), (0x6E, 0x0A), (0x72, 0x0D), (0x74, 0x09),
   (0x76, 0x0B)]

/-- What an escape stands for: a byte by its number, a code point by its number, or itself. -/
def escapeValue (s : Bytes) : Bytes :=
  match s with
  | [] => []
  | b :: digits =>
    let value (base : Nat) (ds : Bytes) : Nat := (digitsValue? base ds).getD 0
    match controls.lookup b with
    | some c => [c]
    | none =>
      if isDecimal b then [(value 8 s).toUInt8]
      else if b == 0x78 then [(value 16 digits).toUInt8]
      else if b == 0x75 || b == 0x55 then utf8Char (Char.ofNat (value 16 digits))
      else [b]

/-- The inside of a quoted text with each escape replaced by what it stands for. -/
def unescape (quote : UInt8) (s : Bytes) : Bytes :=
  match s with
  | [] => []
  | b :: bs =>
    if b == 0x5C then
      let n := (escapeLength? quote bs).getD 0
      escapeValue (bs.take n) ++ unescape quote (bs.drop n)
    else b :: unescape quote bs
termination_by s.length

/-- The text that a literal of a text spells. -/
def textValue (raw : Bytes) : Bytes :=
  let inside := (raw.drop 1).take (raw.length - 2)
  match raw with
  | 0x60 :: _ => inside
  | _ => unescape 0x22 inside

/-- The length of a raw text behind its opening quote. -/
def rawLength? : Bytes → Option Nat
  | [] => none
  | b :: bs => if b == 0x60 then some 1 else (rawLength? bs).map (· + 1)

/-- The length of a general comment behind its opening mark. -/
def commentLength? : Bytes → Option Nat
  | [] => none
  | [_] => none
  | a :: b :: rest =>
    if a == 0x2A && b == 0x2F then some 2 else (commentLength? (b :: rest)).map (· + 1)

/-- A text without carriage returns. -/
def dropReturns (s : Bytes) : Bytes := s.filter (· != 0x0D)

/-- The inside of a general comment without carriage returns, except those between a star and a
slash, which would end the comment. `star` says whether what was kept last is a star. -/
def dropInnerReturns (star : Bool) : Bytes → Bytes
  | [] => []
  | b :: bs =>
    if b == 0x0D && !(star && bs.head? == some 0x2F) then dropInnerReturns star bs
    else b :: dropInnerReturns (b == 0x2A) bs

/-! ### The source -/

/-- The lexeme at the beginning of a text that is neither blank nor a comment: its kind and
length. -/
def lexeme? (s : Bytes) : Option (LexemeKind × Nat) :=
  match s with
  | [] => none
  | b :: bs =>
    if wordLength true s != 0 then
      let n := restOfName s
      some (if keywords.contains (s.take n) then .keyword else .name, n)
    else if isDecimal b || (b == 0x2E && (bs.head?.map isDecimal).getD false) then
      (number? s).map fun (k, n) => (.literal k, n)
    else if b == 0x22 then (quoted? 0x22 bs).map fun (n, _) => (.literal .text, n + 1)
    else if b == 0x27 then
      match quoted? 0x27 bs with
      | some (n, 1) => some (.literal .char, n + 1)
      | _ => none
    else if b == 0x60 then (rawLength? bs).map fun n => (.literal .text, n + 1)
    else (symbols.find? fun w => s.startsWith w).map fun w => (.symbol, w.length)

/-- The semicolon for a line end at an offset. -/
def lineEndAt (offset : Nat) : Item := .lexeme ⟨.lineEnd, utf8 ";", offset + 1, 0⟩

/-- The semicolon for a line end at an offset, if one is due. -/
def lineEndIf (ending : Bool) (offset : Nat) : List Item :=
  if ending then [lineEndAt offset] else []

/-- The items of source that begins at an offset; `ending` says whether a line end there would
end a statement. The first line end in a general comment counts as one behind the comment. -/
def itemsFrom (offset : Nat) (ending : Bool) (s : Bytes) : Option (List Item) :=
  match s with
  | [] => some (lineEndIf ending offset ++ [.lexeme ⟨.finish, [], offset + 1, 0⟩])
  | b :: bs =>
    if b == 0x0A then do
      let rest ← itemsFrom (offset + 1) false bs
      pure (lineEndIf ending offset ++ rest)
    else if b == 0x20 || b == 0x09 || b == 0x0D then itemsFrom (offset + 1) ending bs
    else if Bytes.startsWith (b :: bs) (utf8 "//") then do
      let body := bs.takeWhile (· != 0x0A)
      let rest ← itemsFrom (offset + 1 + body.length) ending (bs.drop body.length)
      pure (Item.comment ⟨dropReturns (b :: body), offset + 1⟩ (b :: body) :: rest)
    else if Bytes.startsWith (b :: bs) (utf8 "/*") then do
      let n ← commentLength? (bs.drop 1)
      let raw := b :: bs.take (n + 1)
      let ends := ending && raw.contains 0x0A
      let first := offset + (raw.takeWhile (· != 0x0A)).length
      let rest ← itemsFrom (offset + 2 + n) (ending && !ends) (bs.drop (n + 1))
      let text := raw.take 2 ++ dropInnerReturns false (raw.drop 2)
      pure (Item.comment ⟨text, offset + 1⟩ raw :: lineEndIf ends first ++ rest)
    else do
      let (kind, n) ← lexeme? (b :: bs)
      let text := (b :: bs).take n
      let text := if b == 0x60 then dropReturns text else text
      let rest ← itemsFrom (offset + n) (endsStatement kind text) (bs.drop (n - 1))
      pure (.lexeme ⟨kind, text, offset + 1, n⟩ :: rest)
termination_by s.length
decreasing_by all_goals simp; try omega

/-- Is source well-formed UTF-8 without NUL and without a byte order mark? -/
def wellEncoded (s : Bytes) : Bool :=
  match s with
  | [] => true
  | b :: bs =>
    match Bytes.codePoint? (b :: bs) with
    | some (c, n) => c != 0 && c != 0xFEFF && wellEncoded (bs.drop (n - 1))
    | none => false
termination_by s.length

/-- The items of a source; a byte order mark may stand at its very beginning. -/
def items (s : Bytes) : Option (List Item) :=
  let mark := utf8Char (Char.ofNat 0xFEFF)
  let skip := if s.startsWith mark then mark.length else 0
  if wellEncoded (s.drop skip) then itemsFrom skip false (s.drop skip) else none

end Lex
end RelaxArith.Host
