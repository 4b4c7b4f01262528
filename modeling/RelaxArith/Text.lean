/-
Text as a list of bytes.

Source text need not be well-formed UTF-8 and every position in it counts bytes, so bytes are
what the whole library reads and writes.  This file holds the little that is needed on them:
literals, numerals, the first code point of a text, blank space as Unicode defines it, and the
usual cutting and joining.
-/
namespace RelaxArith

/-- A text: any sequence of bytes, usually the UTF-8 form of some characters. -/
abbrev Bytes := List UInt8

/-- The UTF-8 form of a string. -/
def utf8 (s : String) : Bytes := s.toUTF8.data.toList

/-- The UTF-8 form of one code point. -/
def utf8Char (c : Char) : Bytes := String.utf8EncodeChar c

namespace Bytes

/-! ### Numerals -/

/-- A number in decimal digits. -/
def decimal (n : Nat) : Bytes := utf8 (toString n)

/-- An integer in decimal digits, behind its sign if it is negative. -/
def integer (n : Int) : Bytes := if n < 0 then 0x2D :: decimal n.natAbs else decimal n.natAbs

/-- A number in lower-case hexadecimal digits, padded with zeros to a width. -/
def hex (width n : Nat) : Bytes :=
  let digits := (Nat.toDigits 16 n).map fun c => c.toNat.toUInt8
  List.replicate (width - digits.length) 0x30 ++ digits

/-! ### Code points -/

/-- A continuation byte's six bits. -/
def continuation? (b : UInt8) : Option Nat :=
  if 0x80 ≤ b && b < 0xC0 then some (b.toNat - 0x80) else none

/-- A code point that may be written in UTF-8 with no fewer bytes. -/
def shortest? (least c width : Nat) : Option (Nat × Nat) :=
  if least ≤ c && c ≤ 0x10FFFF && !(0xD800 ≤ c && c ≤ 0xDFFF) then some (c, width) else none

/-- The code point a text begins with and the number of bytes that spell it, if the text begins
with well-formed UTF-8. -/
def codePoint? : Bytes → Option (Nat × Nat)
  | [] => none
  | a :: rest =>
    if a < 0x80 then some (a.toNat, 1)
    else if 0xC0 ≤ a && a < 0xE0 then
      match rest with
      | b :: _ => do
        let b ← continuation? b
        shortest? 0x80 ((a.toNat - 0xC0) * 64 + b) 2
      | _ => none
    else if 0xE0 ≤ a && a < 0xF0 then
      match rest with
      | b :: c :: _ => do
        let b ← continuation? b
        let c ← continuation? c
        shortest? 0x800 (((a.toNat - 0xE0) * 64 + b) * 64 + c) 3
      | _ => none
    else if 0xF0 ≤ a && a < 0xF8 then
      match rest with
      | b :: c :: d :: _ => do
        let b ← continuation? b
        let c ← continuation? c
        let d ← continuation? d
        shortest? 0x10000 ((((a.toNat - 0xF0) * 64 + b) * 64 + c) * 64 + d) 4
      | _ => none
    else none

/-- The code points of a text, apart from bytes that are no UTF-8. -/
def codePoints (s : Bytes) : List Nat :=
  match s with
  | [] => []
  | b :: rest =>
    match codePoint? (b :: rest) with
    | some (c, width) => c :: codePoints (rest.drop (width - 1))
    | none => codePoints rest
termination_by s.length

/-- The characters of a text; a byte that is no UTF-8 counts as the replacement character. -/
def characters (s : Bytes) : List Char :=
  match s with
  | [] => []
  | b :: rest =>
    match codePoint? (b :: rest) with
    | some (c, width) => Char.ofNat c :: characters (rest.drop (width - 1))
    | none => Char.ofNat 0xFFFD :: characters rest
termination_by s.length

/-- The UTF-8 form of characters. -/
def ofCharacters (cs : List Char) : Bytes := cs.flatMap utf8Char

/-- The code point that ends with the first of the given bytes, which stand the last first. -/
def lastCodePoint? (reversed : Bytes) : Option Nat :=
  let tail := reversed.takeWhile fun b => 0x80 ≤ b && b < 0xC0
  (codePoint? (reversed.take (tail.length + 1)).reverse).map Prod.fst

/-! ### Cutting -/

/-- The text behind a given beginning. -/
def dropPrefix? : Bytes → Bytes → Option Bytes
  | [], s => some s
  | _ :: _, [] => none
  | w :: ws, c :: cs => if w = c then dropPrefix? ws cs else none

/-- Does a text begin with another? -/
def startsWith (s start : Bytes) : Bool := start.isPrefixOf s

/-- Does a text end with another? -/
def endsWith (s tail : Bytes) : Bool := tail.isSuffixOf s

/-- The bytes from one offset up to another. -/
def slice (s : Bytes) (lo hi : Nat) : Bytes := (s.drop lo).take (hi - lo)

/-- All pieces of a text between occurrences of a byte; a text without it is one piece. -/
def splitOnByte (sep : UInt8) : Bytes → List Bytes
  | [] => [[]]
  | c :: cs =>
    if c = sep then [] :: splitOnByte sep cs
    else
      match splitOnByte sep cs with
      | [] => [[c]]
      | piece :: pieces => (c :: piece) :: pieces

/-- The parts before and behind the last occurrence of a byte. -/
def splitLast? (sep : UInt8) : Bytes → Option (Bytes × Bytes)
  | [] => none
  | c :: cs =>
    match splitLast? sep cs with
    | some (before, behind) => some (c :: before, behind)
    | none => if c = sep then some ([], cs) else none

/-- The parts before and behind the first occurrence of a text that is not empty. -/
def splitAt? (mark : Bytes) : Bytes → Option (Bytes × Bytes)
  | [] => none
  | c :: cs =>
    match dropPrefix? mark (c :: cs) with
    | some rest => some ([], rest)
    | none => (splitAt? mark cs).map fun (before, behind) => (c :: before, behind)

/-- Texts in a row with a separator between them. -/
def join (sep : Bytes) : List Bytes → Bytes
  | [] => []
  | [s] => s
  | s :: rest => s ++ sep ++ join sep rest

/-! ### Blank space -/

/-- The spellings of the code points that Unicode counts as white space. -/
def blanks : List Bytes :=
  ([0x09, 0x0A, 0x0B, 0x0C, 0x0D, 0x20, 0x85, 0xA0, 0x1680, 0x2000, 0x2001, 0x2002, 0x2003,
    0x2004, 0x2005, 0x2006, 0x2007, 0x2008, 0x2009, 0x200A, 0x2028, 0x2029, 0x202F, 0x205F,
    0x3000] : List Nat).map fun c => utf8Char (Char.ofNat c)

/-- Removes beginnings found in a list of spellings for as long as there is one. -/
def dropSpellings (spellings : List Bytes) (s : Bytes) : Bytes :=
  match spellings.findSome? fun w => dropPrefix? w s with
  | some rest => if rest.length < s.length then dropSpellings spellings rest else s
  | none => s
termination_by s.length

/-- A text without white space at its start. -/
def trimStart (s : Bytes) : Bytes := dropSpellings blanks s

/-- A text without white space at its end. -/
def trimEnd (s : Bytes) : Bytes := (dropSpellings (blanks.map List.reverse) s.reverse).reverse

/-- A text without white space at either end. -/
def trim (s : Bytes) : Bytes := trimEnd (trimStart s)

/-- The length of the white space at the beginning of a text: one code point or nothing. -/
def blankLength (s : Bytes) : Nat :=
  ((blanks.find? fun w => startsWith s w).map List.length).getD 0

/-- The pieces of a text between code points of white space, from behind some bytes on. -/
def piecesBetweenBlanks : (skip : Nat) → Bytes → List Bytes
  | _, [] => [[]]
  | skip + 1, _ :: bs => piecesBetweenBlanks skip bs
  | 0, b :: bs =>
    match blankLength (b :: bs) with
    | n + 1 => [] :: piecesBetweenBlanks n bs
    | 0 =>
      match piecesBetweenBlanks 0 bs with
      | [] => [[b]]
      | piece :: pieces => (b :: piece) :: pieces

/-- The words of a text, which have white space between them. -/
def words (s : Bytes) : List Bytes := (piecesBetweenBlanks 0 s).filter fun w => !w.isEmpty

/-! ### Order -/

/-- Bytewise lexicographic order. -/
def le : Bytes → Bytes → Bool
  | [], _ => true
  | _ :: _, [] => false
  | a :: as, b :: bs => if a < b then true else if b < a then false else le as bs

end Bytes
end RelaxArith
