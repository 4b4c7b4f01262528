/-
Keys.

Most characters stand for themselves.  Control characters move the cursor, delete, or ask for
earlier lines, and so do some characters behind an escape.  A sequence that begins with an escape
and an opening bracket reaches up to the first character that is neither a digit nor a semicolon;
it means nothing, unless it is an arrow or one of the keys `Home`, `End` and `Delete`.
-/
import RelaxArith.Text.Unicode

namespace RelaxArith.Shell

/-- What a key asks for. -/
inductive Key where
  | character (c : Char)
  | enter
  /-- There is no more input. -/
  | finish
  | interrupt
  | lineStart
  | lineEnd
  | backward
  | forward
  | wordBackward
  | wordForward
  /-- Deletes the character before the cursor. -/
  | backspace
  /-- Deletes the character behind the cursor. On an empty line there is no more input. -/
  | delete
  | deleteWord
  | cutStart
  | cutEnd
  | cutWord
  /-- Inserts what was cut or deleted last. -/
  | yank
  /-- Exchanges the characters around the cursor. -/
  | transpose
  | previous
  | next
  | search
  /-- Sends the cursor of the screen to its corner. -/
  | corner
  | nothing
deriving DecidableEq, Repr

namespace Key

/-- The key of a character. -/
def ofChar (c : Char) : Key :=
  match c.toNat with
  | 0x00 => .finish
  | 0x01 => .lineStart
  | 0x02 => .backward
  | 0x03 => .interrupt
  | 0x04 => .delete
  | 0x05 => .lineEnd
  | 0x06 => .forward
  | 0x08 | 0x7F => .backspace
  | 0x0A | 0x0D => .enter
  | 0x0B => .cutEnd
  | 0x0C => .corner
  | 0x0E => .next
  | 0x10 => .previous
  | 0x12 | 0x13 => .search
  | 0x14 => .transpose
  | 0x15 => .cutStart
  | 0x17 => .cutWord
  | 0x19 => .yank
  | 0x07 | 0x1A => .nothing
  | _ => .character c

/-- The key of a character behind an escape. -/
def ofEscaped (c : Char) : Key :=
  match c.toNat with
  | 0x62 => .wordBackward
  | 0x66 => .wordForward
  | 0x64 => .deleteWord
  | 0x7F => .cutWord
  | 0x14 => .character (Char.ofNat 0xFFFD)
  | _ => ofChar c

/-- The key of a sequence in brackets, by what stands in it and by its last character. -/
def ofSequence (parameters : List Char) (last : Char) : Key :=
  match last with
  | 'A' => .previous
  | 'B' => .next
  | 'C' => .forward
  | 'D' => .backward
  | 'H' => .lineStart
  | 'F' => .lineEnd
  | '~' => if parameters = ['3'] then .delete else .nothing
  | _ => .nothing

/-- May a character stand in a sequence before the last one? -/
def isParameter (c : Char) : Bool := c == ';' || Unicode.isDigit c.toNat

/-- The keys of characters. A sequence that means nothing is left out. -/
def ofCharacters (cs : List Char) : List Key :=
  match cs with
  | [] => []
  | '\x1b' :: '[' :: cs =>
    let parameters := cs.takeWhile isParameter
    match cs[parameters.length]? with
    | none => []
    | some last =>
      [ofSequence parameters last].filter (· != .nothing) ++
        ofCharacters (cs.drop (parameters.length + 1))
  | '\x1b' :: 'O' :: 'H' :: cs => .lineStart :: ofCharacters cs
  | '\x1b' :: 'O' :: 'F' :: cs => .lineEnd :: ofCharacters cs
  | '\x1b' :: '\x1b' :: cs => ofCharacters ('\x1b' :: cs)
  | '\x1b' :: c :: cs => ofEscaped c :: ofCharacters cs
  | ['\x1b'] => []
  | c :: cs => ofChar c :: ofCharacters cs
termination_by cs.length

end Key
end RelaxArith.Shell
