/-
The running text of comments that document a declaration.

Pairs of backquotes and pairs of apostrophes stand for quotation marks, except inside addresses
of the web, which are left as they are, and inside longer runs of backquotes.  A text in brackets
is a link if the comment defines it, or if it names a package or something in one; addresses inside
a link are not looked for.
-/
import RelaxArith.Text
import RelaxArith.Text.Unicode

namespace RelaxArith.Host.DocText

/-! ### Addresses -/

/-- Is a byte an ASCII letter or digit? -/
def isAlphanumeric (b : UInt8) : Bool :=
  (0x61 ≤ (b ||| 0x20) && (b ||| 0x20) ≤ 0x7A) || (0x30 ≤ b && b ≤ 0x39)

/-- The schemes of addresses. -/
def isScheme (s : Bytes) : Bool :=
  ["file", "ftp", "gopher", "http", "https", "mailto", "nntp"].any fun w => s == utf8 w

/-- Bytes of the name of a host. -/
def isHost (b : UInt8) : Bool := isAlphanumeric b || (utf8 "_@-.[]:").contains b

/-- Bytes that may stand inside of an address but not end it. -/
def isPunctuation (b : UInt8) : Bool := (utf8 ".,:;?!").contains b

/-- Bytes of a path, apart from punctuation. -/
def isPath (b : UInt8) : Bool := isAlphanumeric b || (utf8 "$'()*+&#=@~_/-[]\x7b\x7d%").contains b

/-- The bracket that closes another one. -/
def closing? (b : UInt8) : Option UInt8 :=
  if b == 0x28 then some 0x29
  else if b == 0x7B then some 0x7D
  else if b == 0x5B then some 0x5D
  else none

/-- Is a byte a closing bracket? -/
def isClosing (b : UInt8) : Bool := b == 0x29 || b == 0x7D || b == 0x5D

/-- The length of the name of a host: it ends with something else than punctuation. `i` counts
the bytes so far and `found` is the length that has been found. -/
def hostLength (i found : Nat) : Bytes → Nat
  | [] => found
  | b :: bs =>
    if isHost b then hostLength (i + 1) (if isPunctuation b then found else i + 1) bs else found

/-- The length of a path in which brackets match. `open` holds the brackets to be closed. -/
def pathLength (i found : Nat) (opened : List UInt8) : Bytes → Nat
  | [] => found
  | b :: bs =>
    if isPunctuation b then pathLength (i + 1) found opened bs
    else if !isPath b then found
    else
      let next : Option (List UInt8) :=
        match closing? b with
        | some c => some (c :: opened)
        | none =>
          if isClosing b then
            match opened with
            | c :: rest => if c = b then some rest else none
            | [] => none
          else some opened
      match next with
      | none => found
      | some opened => pathLength (i + 1) (if opened.isEmpty then i + 1 else found) opened bs

/-- The index of the colon behind a scheme, which is the first of four places that has one. -/
def colonIndex? (s : Bytes) : Option Nat :=
  if s.length < 7 then none else [3, 4, 5, 6].find? fun i => s[i]? == some 0x3A

/-- The length of the address at the beginning of a text. -/
def addressLength? (s : Bytes) : Option Nat := do
  let i ← colonIndex? s
  if !isScheme (s.take i) || !Bytes.startsWith (s.drop i) (utf8 "://") then none
  match s.drop (i + 3) with
  | [] => none
  | b :: bs =>
    if !isHost b || isPunctuation b then none
    let host := hostLength 1 1 bs
    let start := i + 3 + host
    pure (pathLength start start [] (s.drop start))

/-! ### Words -/

/-- The length of the word of letters and digits at the beginning of a text; it does not begin with
a digit. -/
def wordLength (first : Bool) (s : Bytes) : Nat :=
  match s with
  | [] => 0
  | b :: bs =>
    match Bytes.codePoint? (b :: bs) with
    | some (c, n + 1) =>
      let isWord :=
        if c < 0x80 then
          b == 0x5F || (isAlphanumeric b && !(first && 0x30 ≤ b && b ≤ 0x39))
        else Unicode.isLetter c
      if isWord then n + 1 + wordLength false (bs.drop n) else 0
    | _ => 0
termination_by s.length

/-! ### Quotation marks -/

/-- How many backquotes of a run are passed over, given where the text stands in the whole. Behind
the first three, those are meant whose number in the rest of the text is at least that place. -/
def runLength (place : Nat) (rest : Bytes) : Nat :=
  3 + ((rest.drop (place + 3)).takeWhile (· == 0x60)).length

/-- Text with quotation marks. `place` is where the rest stands in the whole, and `seeks` says
whether addresses are looked for. -/
def quoteFrom (seeks : Bool) (place : Nat) (s : Bytes) : Bytes :=
  match s with
  | [] => []
  | b :: bs =>
    let plain := if seeks then (addressLength? (b :: bs)).getD (wordLength true (b :: bs)) else 0
    match plain with
    | n + 1 => b :: bs.take n ++ quoteFrom seeks (place + n + 1) (bs.drop n)
    | 0 =>
      if Bytes.startsWith (b :: bs) (utf8 "```") then
        let n := runLength place (b :: bs)
        b :: bs.take (n - 1) ++ quoteFrom seeks (place + n) (bs.drop (n - 1))
      else if Bytes.startsWith (b :: bs) (utf8 "``") then
        utf8 "“" ++ quoteFrom seeks (place + 2) (bs.drop 1)
      else if Bytes.startsWith (b :: bs) (utf8 "''") then
        utf8 "”" ++ quoteFrom seeks (place + 2) (bs.drop 1)
      else b :: quoteFrom seeks (place + 1) bs
termination_by s.length
decreasing_by all_goals (simp only [List.length_cons, List.length_drop]; omega)

/-- Text with quotation marks. -/
def quoted (seeks : Bool) (s : Bytes) : Bytes := quoteFrom seeks 0 s

/-! ### Names of packages and of what is in them -/

/-- The packages that are known by a name without slashes. -/
def knownPackages : List Bytes :=
  ["bufio", "bytes", "cmp", "context", "crypto", "embed", "encoding", "errors", "expvar", "flag",
   "fmt", "hash", "html", "image", "io", "iter", "log", "maps", "math", "mime", "net", "os", "path",
   "plugin", "reflect", "regexp", "runtime", "slices", "sort", "strconv", "strings", "structs",
   "sync", "syscall", "testing", "time", "unicode", "unique", "unsafe", "weak"].map utf8

/-- Is a text a name that begins with a capital? -/
def isExported (s : Bytes) : Bool :=
  !s.isEmpty && wordLength true s = s.length &&
    ((Bytes.codePoint? s).map fun c => Unicode.isCapital c.1).getD false

/-- What stands before the last point of a text, if a name that begins with a capital stands behind
it or is all there is. -/
def beforeName? (s : Bytes) : Option Bytes :=
  match Bytes.splitLast? 0x2E s with
  | some (before, name) => if isExported name then some before else none
  | none => if isExported s then some [] else none

/-- May a text stand between the slashes of the path of a package? -/
def isPathElement (s : Bytes) : Bool :=
  !s.isEmpty && s.head? != some 0x2E && s.getLast? != some 0x2E &&
    s.all fun b => isAlphanumeric b || (utf8 "-.~_+").contains b

/-- Is a text the path of a package, or a package that is known by its name? -/
def isPackage (s : Bytes) : Bool :=
  if s.contains 0x2F then
    s.head? != some 0x2D && (Bytes.splitOnByte 0x2F s).all isPathElement
  else knownPackages.contains s

/-- Does a text name a package, something in it, or a method of something in it? -/
def isReference (s : Bytes) : Bool :=
  let s := (Bytes.dropPrefix? (utf8 "*") s).getD s
  isPackage (match beforeName? s with
    | some before => (beforeName? before).getD before
    | none => s)

/-- May a code point stand right before or behind a reference? -/
def isBoundary (c : Nat) : Bool :=
  c == 0x20 || c == 0x09 || c == 0x0A || Unicode.isPunctuation c

/-! ### Links -/

/-- A piece of text: outside of links, or the inside of one, with its name if the comment defines
it. -/
inductive Piece where
  | plain (s : Bytes)
  | link (s : Bytes) (name : Option Bytes)
deriving DecidableEq, Repr

/-- What is known while links are looked for, all of it the last first: the plain text so far, the
text behind the last opening bracket if there is one, the name that it spells, which goes on
through further opening brackets, and whether a reference may begin at the last opening bracket. -/
structure Search where
  plain : Bytes
  inside : Option Bytes
  name : Bytes
  bounded : Bool

/-- The text that turns out to be plain. -/
def Search.text (s : Search) : Bytes :=
  match s.inside with
  | some t => t ++ 0x5B :: s.plain
  | none => s.plain

/-- Is the text in brackets in front of some text a reference? -/
def Search.refers (s : Search) (inside rest : Bytes) : Bool :=
  s.bounded && ((Bytes.codePoint? rest).map fun c => isBoundary c.1).getD rest.isEmpty &&
    isReference inside.reverse

/-- Cuts a text at its links, given the names that are defined and the text before, the last
first. -/
def pieces (names : List Bytes) (found : Search) (before : Bytes) : Bytes → List Piece
  | [] => [.plain found.text.reverse]
  | b :: bs =>
    if b == 0x5B then
      let bounded := ((Bytes.lastCodePoint? before).map isBoundary).getD before.isEmpty
      pieces names { found with plain := found.text, inside := some [], bounded := bounded }
        (b :: before) bs
    else
      match found.inside with
      | none =>
        -- a closing bracket without an opening one forgets the name as well
        let name := if b == 0x5D then [] else found.name
        pieces names { found with plain := b :: found.plain, name := name } (b :: before) bs
      | some t =>
        if b == 0x5D then
          let next : Search := ⟨[], none, [], false⟩
          if names.contains found.name.reverse then
            .plain found.plain.reverse :: .link t.reverse (some found.name.reverse) ::
              pieces names next (b :: before) bs
          else if found.refers t bs then
            .plain found.plain.reverse :: .link t.reverse none :: pieces names next (b :: before) bs
          else pieces names { next with plain := b :: found.text } (b :: before) bs
        else
          let c := if b == 0x0A || b == 0x09 then 0x20 else b
          pieces names { found with inside := some (b :: t), name := c :: found.name } (b :: before) bs

/-- The pieces of a text with links to given names. -/
def piecesOf (names : List Bytes) (s : Bytes) : List Piece :=
  pieces names ⟨[], none, [], false⟩ [] s

/-- A text as it is written. -/
def render (names : List Bytes) (s : Bytes) : Bytes :=
  (piecesOf names s).flatMap fun
    | .plain t => quoted true t
    | .link t _ => utf8 "[" ++ quoted false t ++ utf8 "]"

/-- The names that a text has links to. -/
def linked (names : List Bytes) (s : Bytes) : List Bytes :=
  (piecesOf names s).filterMap fun
    | .plain _ => none
    | .link _ name => name

end RelaxArith.Host.DocText
