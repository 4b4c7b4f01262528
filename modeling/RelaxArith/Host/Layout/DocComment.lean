/-
The normal form of comments that document a declaration.

The text of such a comment is read as blocks: paragraphs, headings, lists and indented code, and
definitions of links.  Written again, blocks have one empty line between them, code is indented by
a tab, items of lists are indented alike, definitions of links stand behind the text, and
directives stand at the end.

Where a block ends is mostly a matter of indentation and empty lines.  Lists and code that someone
forgot to indent are recognised by what follows them.
-/
import RelaxArith.Host.Layout.DocText
import RelaxArith.Host.Lines

namespace RelaxArith.Host.DocComment

/-- Is a byte a blank or a tab? -/
def isSpace (b : UInt8) : Bool := b == 0x20 || b == 0x09

/-- Does a line begin with white space? -/
def isIndented (line : Bytes) : Bool := (line.head?.map isSpace).getD false

/-- An item of a list: its number, if it has one, and its paragraphs. -/
structure ListItem where
  number : Bytes
  paragraphs : List Bytes
deriving DecidableEq, Repr

/-- What the text of a comment is made of. -/
inductive Block where
  | paragraph (text : Bytes)
  | heading (text : Bytes)
  | code (lines : List Bytes)
  /-- A list, whether an empty line has to stand before it, and whether its items have to have
  empty lines between them. -/
  | list (items : List ListItem) (apart spread : Bool)
deriving DecidableEq, Repr

/-- The definition of a link. -/
structure LinkDefinition where
  name : Bytes
  address : Bytes
deriving DecidableEq, Repr

/-! ### Directives -/

/-- Is the text behind the slashes of a comment a directive to some tool? -/
def isDirective (s : Bytes) : Bool :=
  let word (b : UInt8) : Bool := (0x61 ≤ b && b ≤ 0x7A) || (0x30 ≤ b && b ≤ 0x39)
  let tool := s.takeWhile word
  ["line ", "extern ", "export "].any (fun w => s.startsWith (utf8 w)) ||
    (!tool.isEmpty &&
      match s.drop tool.length with
      | colon :: b :: _ => colon == 0x3A && word b
      | _ => false)

/-! ### Lines -/

/-- The longest common beginning of two texts. -/
def common : Bytes → Bytes → Bytes
  | a :: as, b :: bs => if a = b then a :: common as bs else []
  | _, _ => []

/-- Lines without empty ones at the end. -/
def trimBlankEnd (lines : List Bytes) : List Bytes :=
  (lines.reverse.dropWhile List.isEmpty).reverse

/-- Lines without empty ones at either end. -/
def trimBlank (lines : List Bytes) : List Bytes := trimBlankEnd (lines.dropWhile List.isEmpty)

/-- Lines without the white space that all of them begin with, and without blank lines at either
end; lines of white space become empty. -/
def unindent (lines : List Bytes) : List Bytes :=
  match trimBlank lines with
  | [] => []
  | first :: rest =>
    let shared := rest.foldl
      (fun acc line => if line.isEmpty then acc else common acc (line.takeWhile isSpace))
      (first.takeWhile isSpace)
    trimBlank ((first :: rest).map fun line =>
      let line := (Bytes.dropPrefix? shared line).getD line
      if (Bytes.trim line).isEmpty then [] else line)

/-! ### Marks -/

/-- The number of a list item, empty for a bullet, and the text behind its mark. -/
def itemMark? (line : Bytes) : Option (Bytes × Bytes) :=
  let line := Bytes.trim line
  let bullet := ["•", "*", "+", "-"].findSome? fun w => Bytes.dropPrefix? (utf8 w) line
  let digits := line.takeWhile fun b => 0x30 ≤ b && b ≤ 0x39
  let marked :=
    match bullet with
    | some rest => some ([], rest)
    | none =>
      match digits, line.drop digits.length with
      | _ :: _, b :: rest => if b == 0x2E || b == 0x29 then some (digits, rest) else none
      | _, _ => none
  marked.filter fun (_, rest) => isIndented rest && !(Bytes.trim rest).isEmpty

/-- Is a line the beginning of a list item? -/
def isItem (line : Bytes) : Bool := (itemMark? line).isSome

/-- Is a line marked as a heading? -/
def isHeading (line : Bytes) : Bool :=
  match line with
  | 0x23 :: b :: _ => isSpace b && Bytes.trim line != utf8 "#"
  | _ => false

/-- Has every occurrence of a byte something behind it that is admitted? -/
def eachFollowedBy (mark : UInt8) (admitted : Bytes → Bool) : Bytes → Bool
  | [] => true
  | b :: bs => (b != mark || admitted bs) && eachFollowedBy mark admitted bs

/-- Characters that no heading has. -/
def noHeading : List Nat := (";:!?+*/=[]\x7b\x7d_^°&§~%#@<\">\\".toList).map Char.toNat

/-- May a line on its own between paragraphs be a heading by its looks? It begins with a capital,
ends with a letter or digit, and has no punctuation but a few marks. -/
def looksLikeHeading (line : Bytes) : Bool :=
  let line := Bytes.trim line
  let points := Bytes.codePoints line
  let capital := (points.head?.map fun c => Unicode.isLetter c && Unicode.isCapital c).getD false
  let ends := (points.getLast?.map fun c => Unicode.isLetter c || Unicode.isDigit c).getD false
  capital && ends && !points.any noHeading.contains &&
    eachFollowedBy 0x27 (fun rest => rest == utf8 "s" || rest.startsWith (utf8 "s ")) line &&
    eachFollowedBy 0x2E (fun rest => !rest.isEmpty && rest.head? != some 0x20) line

/-- Is the line of some number a heading by its looks? Empty lines stand around it, and behind
them something that is not indented. -/
def isPlainHeading (lines : List Bytes) (i : Nat) : Bool :=
  match lines.drop (i - 1) with
  | before :: line :: behind :: next :: _ =>
    0 < i && before.isEmpty && behind.isEmpty && !isIndented next && looksLikeHeading line
  | _ => false

/-! ### Spans -/

/-- The kinds of blocks. -/
inductive SpanKind where
  | list
  | code
  | heading
  | plainHeading
  | paragraph
deriving DecidableEq, Repr

/-- The lines of a block: from one number up to another. -/
structure LineSpan where
  start : Nat
  stop : Nat
  kind : SpanKind
deriving DecidableEq, Repr

/-- The line of some number. -/
def lineAt (lines : List Bytes) (i : Nat) : Bytes := lines.getD i []

/-- The number of lines from one on that belong to an indented block. `forced` is the number up to
which lines count as indented, and `loose` says whether items of a list need not be indented;
that ends at an empty line. -/
def indentedLength (forced : Nat) : (i : Nat) → (loose : Bool) → List Bytes → Nat
  | _, _, [] => 0
  | i, loose, l :: ls =>
    if l.isEmpty then indentedLength forced (i + 1) false ls + 1
    else if i < forced || isIndented l || (loose && isItem l) then
      indentedLength forced (i + 1) loose ls + 1
    else 0

/-- The indented block that begins with the line of some number. A closing brace right behind it
belongs to it. -/
def indentedSpan (lines : List Bytes) (forced start : Nat) : LineSpan :=
  let first := lineAt lines start
  let rest := lines.drop (start + 1)
  let taken := rest.take (indentedLength forced (start + 1) (isItem first && start < forced) rest)
  let stop := start + 1 + (trimBlankEnd taken).length
  let closed := Bytes.startsWith (lineAt lines stop) (utf8 "\x7d")
  ⟨start, if closed then stop + 1 else stop, if isItem first then .list else .code⟩

/-- How many lines before the end of a paragraph belong to the indented block behind it: items of
a list, or a line that ends with an opening brace or a backslash. -/
def borrowed (paragraph : List Bytes) : Nat :=
  match paragraph.reverse with
  | [] => 0
  | last :: before =>
    if isItem last then 1 + (before.takeWhile isItem).length
    else if last.getLast? == some 0x7B || last.getLast? == some 0x5C then 1
    else 0

/-- The blocks of lines from one on. `forced` is the number up to which lines count as indented;
`depth` bounds the number of steps. -/
def spansFrom (lines : List Bytes) : (depth : Nat) → (forced start : Nat) → List LineSpan
  | 0, _, _ => []
  | depth + 1, forced, start =>
    match lines.drop start with
    | [] => []
    | [] :: _ => spansFrom lines depth forced (start + 1)
    | first :: rest =>
      if start < forced || isIndented first then
        let span := indentedSpan lines forced start
        span :: spansFrom lines depth forced span.stop
      else
        let more := rest.takeWhile fun l => !l.isEmpty && !isIndented l
        let paragraph := first :: more
        let behind := start + paragraph.length
        let next := lineAt lines behind
        let lent := if next.isEmpty || isItem next then 0 else borrowed paragraph
        let forced := if lent = 0 then forced else behind
        let stop := behind - lent
        if stop = start then spansFrom lines depth forced start
        else
          let kind : SpanKind :=
            if stop = start + 1 && isHeading first then .heading
            else if stop = start + 1 && isPlainHeading lines start then .plainHeading
            else .paragraph
          ⟨start, stop, kind⟩ :: spansFrom lines depth forced stop

/-- The blocks of lines. Each step but one ends a block or passes an empty line. -/
def spans (lines : List Bytes) : List LineSpan := spansFrom lines (2 * lines.length + 1) 0 0

/-! ### Blocks -/

/-- The definition of a link that a line spells. -/
def definition? (line : Bytes) : Option LinkDefinition := do
  let inner ← Bytes.dropPrefix? (utf8 "[") line
  let (name, behind) ← Bytes.splitAt? (utf8 "]:") inner
  match behind with
  | b :: c :: rest =>
    if !isSpace b then none
    let address := Bytes.trim (c :: rest)
    let (scheme, _) ← Bytes.splitAt? (utf8 "://") address
    if DocText.isScheme scheme then pure ⟨name, address⟩ else none
  | _ => none

/-- A paragraph, or the definitions of links that it consists of. -/
def paragraphOf (lines : List Bytes) : Option Bytes × List LinkDefinition :=
  match lines.mapM definition? with
  | some definitions => (none, definitions)
  | none => (some (Bytes.join [0x0A] lines), [])

/-- What is known while a list is read, all of it the last first: the finished items, the lines of
the current paragraph, the definitions of links, and whether there was an empty line. -/
structure ListState where
  items : List ListItem
  paragraph : List Bytes
  definitions : List LinkDefinition
  spread : Bool

/-- Ends the current paragraph of a list. -/
def ListState.flush (s : ListState) : ListState :=
  match s.items with
  | [] => { s with paragraph := [] }
  | item :: items =>
    let (text, definitions) := paragraphOf s.paragraph.reverse
    { s with
      items := { item with paragraphs := item.paragraphs ++ text.toList } :: items
      paragraph := []
      definitions := definitions.reverse ++ s.definitions }

/-- Adds a line to a list; `numbered` tells numbered lists from bullets. -/
def ListState.add (numbered : Bool) (s : ListState) (line : Bytes) : ListState :=
  let (s, line) :=
    match (itemMark? line).filter fun (n, _) => !n.isEmpty == numbered with
    | some (n, rest) =>
      let s := s.flush
      ({ s with items := ⟨n, []⟩ :: s.items }, rest)
    | none => (s, line)
  let line := Bytes.trim line
  if line.isEmpty then { s.flush with spread := true }
  else { s with paragraph := line :: s.paragraph }

/-- The list that lines spell, and the definitions of links in it. -/
def listOf (apart : Bool) (lines : List Bytes) : Block × List LinkDefinition :=
  let numbered := ((lines.head?.bind itemMark?).map fun (n, _) => !n.isEmpty).getD false
  let s := (lines.foldl (ListState.add numbered) ⟨[], [], [], false⟩).flush
  let spread := s.spread || s.items.any fun i => i.paragraphs.length != 1
  (.list s.items.reverse (apart || spread) spread, s.definitions.reverse)

/-- The block of a span, if it is one, and the definitions of links in it. `previous` is the number
of the line behind the span before. -/
def blockOf (lines : List Bytes) (previous : Nat) (s : LineSpan) :
    Option Block × List LinkDefinition :=
  let own := (lines.drop s.start).take (s.stop - s.start)
  match s.kind with
  | .list =>
    let (block, definitions) := listOf (previous < s.start) own
    (some block, definitions)
  | .code => (some (.code (unindent own)), [])
  | .heading => (some (.heading (Bytes.trim ((own.headD []).drop 1))), [])
  | .plainHeading => (some (.heading (Bytes.trim (own.headD []))), [])
  | .paragraph =>
    let (text, definitions) := paragraphOf own
    (text.map .paragraph, definitions)

/-- The blocks of spans, and the definitions of links among them. -/
def blocks (lines : List Bytes) : (previous : Nat) → List LineSpan →
    List Block × List LinkDefinition
  | _, [] => ([], [])
  | previous, s :: ss =>
    let (block, first) := blockOf lines previous s
    let (more, rest) := blocks lines s.stop ss
    (block.toList ++ more, first ++ rest)

/-! ### Writing -/

/-- Running text with some white space behind its line ends. -/
def runningText (names : List Bytes) (margin s : Bytes) : Bytes :=
  (DocText.render names s).flatMap fun b => if b == 0x0A then b :: margin else [b]

/-- The paragraphs of an item of a list. -/
def itemParagraphs (names : List Bytes) : List Bytes → Bytes
  | [] => []
  | p :: ps =>
    let margin := utf8 "    "
    runningText names margin p ++ [0x0A] ++
      (if ps.isEmpty then [] else 0x0A :: margin ++ itemParagraphs names ps)

/-- An item of a list. -/
def renderItem (names : List Bytes) (i : ListItem) : Bytes :=
  (if i.number.isEmpty then utf8 "  - " else utf8 " " ++ i.number ++ utf8 ". ") ++
    itemParagraphs names i.paragraphs

/-- A block. -/
def renderBlock (names : List Bytes) : Block → Bytes
  | .paragraph s => runningText names [] s ++ [0x0A]
  | .heading s => utf8 "# " ++ s ++ [0x0A]
  | .code lines => lines.flatMap fun l => (if l.isEmpty then [] else 0x09 :: l) ++ [0x0A]
  | .list items _ spread =>
    Bytes.join (if spread then [0x0A] else []) (items.map (renderItem names))

/-- Blocks with empty lines between them. -/
def renderBlocks (names : List Bytes) : List Block → Bytes
  | [] => []
  | [b] => renderBlock names b
  | b :: c :: rest =>
    let close := match c with
      | .list _ apart _ => !apart
      | _ => false
    renderBlock names b ++ (if close then [] else [0x0A]) ++ renderBlocks names (c :: rest)

/-- The names of the links in a block. -/
def linkedIn (names : List Bytes) : Block → List Bytes
  | .paragraph s => DocText.linked names s
  | .list items _ _ => items.flatMap fun i => i.paragraphs.flatMap (DocText.linked names)
  | _ => []

/-- Definitions of links below each other, behind an empty line. -/
def renderDefinitions (definitions : List LinkDefinition) : Bytes :=
  if definitions.isEmpty then []
  else 0x0A :: definitions.flatMap fun d => utf8 "[" ++ d.name ++ utf8 "]: " ++ d.address ++ [0x0A]

/-- The definitions that come first for their names. -/
def firstDefinitions (names : List Bytes) : List LinkDefinition → List (LinkDefinition × Bool)
  | [] => []
  | d :: ds => (d, !names.contains d.name) :: firstDefinitions (d.name :: names) ds

/-- The normal form of the lines of a comment. Definitions of links that are used come before the
others. -/
def normalText (lines : List Bytes) : Bytes :=
  let lines := unindent lines
  let (blocks, definitions) := blocks lines 0 (spans lines)
  let names := definitions.map LinkDefinition.name
  let used := blocks.flatMap (linkedIn names)
  let marked := (firstDefinitions [] definitions).map fun (d, first) =>
    (d, first && used.contains d.name)
  renderBlocks names blocks ++
    renderDefinitions ((marked.filter fun m => m.2).map Prod.fst) ++
    renderDefinitions ((marked.filter fun m => !m.2).map Prod.fst)

/-! ### Comments -/

/-- A line of a comment. -/
def commentLine (l : Bytes) : Bytes :=
  if l.isEmpty then utf8 "//"
  else if l.head? == some 0x09 then utf8 "//" ++ l
  else utf8 "// " ++ l

/-- Do all lines of a general comment behind the first begin with a star? -/
def allStars (text : Bytes) : Bool :=
  ((Bytes.splitOnByte 0x0A text).drop 1).all fun l => (l.dropWhile isSpace).head? == some 0x2A

/-- The normal form of a general comment of several lines; one with a column of stars is left as
it is. -/
def formatGeneral (text : Bytes) : Bytes :=
  if !text.contains 0x0A || allStars text then text
  else
    let inner := (text.drop 2).take (text.length - 4)
    if inner.isEmpty then text
    else utf8 "/*\n" ++ normalText (Bytes.splitOnByte 0x0A inner) ++ utf8 "*/"

/-- The normal form of comments that end with their lines, given what stands behind the
slashes. -/
def formatLines (texts : List Bytes) : List Bytes :=
  let directives := texts.filter isDirective
  let lines := (texts.filter fun t => !isDirective t).map fun t =>
    (Bytes.dropPrefix? (utf8 " ") t).getD t
  if lines.isEmpty then texts.map (utf8 "//" ++ ·)
  else
    let text := normalText lines
    let doc := if text.isEmpty then [] else (Bytes.splitOnByte 0x0A text).dropLast.map commentLine
    let tail := if directives.isEmpty then [] else utf8 "//" :: directives.map (utf8 "//" ++ ·)
    doc ++ tail

/-- The normal form of a group of comments. -/
def format (g : CommentGroup) : List Comment :=
  match g with
  | [c] =>
    if Bytes.startsWith c.text (utf8 "/*") then [{ c with text := formatGeneral c.text }]
    else
      match Bytes.dropPrefix? (utf8 "//") c.text with
      | some t => (formatLines [t]).map fun t => ⟨t, c.pos⟩
      | none => g
  | g =>
    match g.mapM fun c => Bytes.dropPrefix? (utf8 "//") c.text with
    | none => g
    | some texts => (formatLines texts).map fun t => ⟨t, CommentGroup.pos g⟩

/-! ### Bare text -/

/-- The text of a comment without its marks; a directive has none. -/
def bareText? (c : Comment) : Option Bytes :=
  match Bytes.dropPrefix? (utf8 "//") c.text with
  | some t =>
    match t with
    | 0x20 :: rest => some rest
    | t => if isDirective t then none else some t
  | none => some ((c.text.drop 2).take (c.text.length - 4))

/-- A line without white space at its end. -/
def trimLine (l : Bytes) : Bytes :=
  (l.reverse.dropWhile fun b => isSpace b || b == 0x0A || b == 0x0D).reverse

/-- Lines of which no two empty ones are adjacent; `above` says whether there is a line that is
not empty right above them. -/
def squeeze (above : Bool) : List Bytes → List Bytes
  | [] => []
  | l :: ls =>
    if l.isEmpty then if above then l :: squeeze false ls else squeeze false ls
    else l :: squeeze true ls

/-- The text of a group of comments: lines without white space at their ends, and no empty ones
at the beginning or below each other. -/
def plainText (g : CommentGroup) : Bytes :=
  let lines := squeeze false (((g.filterMap bareText?).flatMap (Bytes.splitOnByte 0x0A)).map trimLine)
  let closed := (lines.getLast?.map List.isEmpty).getD true
  Bytes.join (utf8 "\n") (if closed then lines else lines ++ [[]])

end RelaxArith.Host.DocComment
