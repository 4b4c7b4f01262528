/-
Quoted texts, as messages show them: between double quotes, with the control characters and all
that is not printable spelled by escapes, and a byte that is no UTF-8 by its number.
-/
import RelaxArith.Text
import RelaxArith.Text.Unicode

namespace RelaxArith.Quoted

/-- The letter that stands for a control character behind a backslash. -/
def controlLetter? : Nat → Option String
  | 0x07 => some "a"
  | 0x08 => some "b"
  | 0x0C => some "f"
  | 0x0A => some "n"
  | 0x0D => some "r"
  | 0x09 => some "t"
  | 0x0B => some "v"
  | _ => none

/-- One code point inside a quoted text. -/
def encodeChar (c : Nat) : Bytes :=
  if c = 0x22 || c = 0x5C then [0x5C, c.toUInt8]
  else if Unicode.isPrintable c then utf8Char (Char.ofNat c)
  else
    match controlLetter? c with
    | some letter => 0x5C :: utf8 letter
    | none =>
      if c < 0x80 then utf8 "\\x" ++ Bytes.hex 2 c
      else if c < 0x10000 then utf8 "\\u" ++ Bytes.hex 4 c
      else utf8 "\\U" ++ Bytes.hex 8 c

/-- The inside of a quoted text. -/
def encode (s : Bytes) : Bytes :=
  match s with
  | [] => []
  | b :: rest =>
    match Bytes.codePoint? (b :: rest) with
    | some (c, width) => encodeChar c ++ encode (rest.drop (width - 1))
    | none => utf8 "\\x" ++ Bytes.hex 2 b.toNat ++ encode rest
termination_by s.length

/-- A text between double quotes. -/
def quote (s : Bytes) : Bytes := 0x22 :: encode s ++ [0x22]

end RelaxArith.Quoted
