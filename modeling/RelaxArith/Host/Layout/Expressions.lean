/-
The layout of Go expressions and types.

Blanks around binary operators show how tightly they bind: the deeper an expression is nested and
the more precedences it mixes, the fewer operators have blanks.  Lists keep the line breaks of the
source between their elements.

A layout of something that may contain itself is handed the layouts of what is inside (`Inner`).
-/
import RelaxArith.Host.Layout.Page
import RelaxArith.Host.Grammar

namespace RelaxArith.Host

/-- Steps on a page. -/
abbrev Layout := StateM Page

namespace Layout

/-- Layouts of what is inside of a construct. -/
structure Inner where
  /-- An expression behind an operator of some precedence, at some depth. -/
  expression : Node → (precedence depth : Nat) → Layout Unit
  /-- A statement, and whether a closing brace follows. -/
  statement : Node → (beforeBrace : Bool) → Layout Unit
  /-- The body of a function, given the length of what stands before it on its line. -/
  body : (before : Nat) → Space → Node → Layout Unit

/-! ### Steps -/

/-- Holds white space back. -/
def space (s : Space) : Layout Unit := modify (·.addSpace s)

/-- Writes a symbol or a keyword given as bytes. -/
def symbolOf (s : Bytes) : Layout Unit := modify (·.addWord (.symbol s) s)

/-- Writes a symbol or a keyword. -/
def symbol (s : String) : Layout Unit := symbolOf (utf8 s)

/-- Writes a name. -/
def name (s : Bytes) : Layout Unit := modify (·.addWord .name s)

/-- Writes a literal. -/
def literal (kind : LiteralKind) (raw : Bytes) : Layout Unit :=
  modify (·.addWord (.literal kind) raw)

/-- Says where the next word stands in the source, unless it has no position. -/
def setPos (pos : Nat) : Layout Unit :=
  modify fun p => if pos = 0 then p else { p with pos := p.lines.spot pos }

/-- The line of a position in the source. -/
def lineOf (pos : Nat) : Layout Nat := do return (← get).lines.line pos

/-- Breaks the line as often as the source does up to a line of it, but at least and at most so
many times. White space is added before the first break, which may begin a new section. The
result is zero if there is no break, one if there is exactly one, and more otherwise. -/
def lineBreak (line least : Nat) (s : Space) (newSection : Bool) : Layout Nat := do
  let n := max (min (line - (← get).pos.line) Page.mostBreaks) least
  if n = 0 then return 0
  space s
  if newSection then space .formfeed
  let more := if newSection then n - 1 else n
  (List.replicate more Space.newline).forM space
  return if newSection then more + 2 else more

/-- Runs a layout and gives the line on which its first word was written. -/
def marked (l : Layout Unit) : Layout Nat := do
  modify fun p => { p with awaiting := true }
  l
  let p ← get
  set { p with awaiting := false, marked := p.marked.drop 1 }
  return p.marked.headD 0

/-- Did the output get past a line? -/
def isPast (line : Nat) : Layout Bool := do return line < (← get).out.line

/-- The length of a layout on a line of its own, if it fits on one. Nothing is measured for a page
that is overfull itself. -/
def measure (depth : Nat) (l : Layout Unit) : Layout (Option Nat) := do
  if (← get).overfull then return none
  let (_, p) := l.run { lines := (← get).lines, raw := true, depth := depth }
  if p.overfull then return none
  let text := p.finish
  return if text.contains 0x0A || text.contains 0x0C then none else some text.length

/-- Runs a layout, unless the page is overfull. -/
def unlessOverfull (l : Layout Unit) : Layout Unit := do
  if !(← get).overfull then l

variable (r : Inner)

/-- An expression that stands alone at some depth. -/
def expressionAt (n : Node) (depth : Nat) : Layout Unit := r.expression n 0 depth

/-- An expression that stands alone. -/
def expression (n : Node) : Layout Unit := expressionAt r n 1

/-! ### Lists -/

/-- How a list is set. -/
structure ListStyle where
  /-- Is the list indented from the first line break on? -/
  indented : Bool
  /-- Is there a comma behind the last element if a line break follows? -/
  closed : Bool
deriving DecidableEq, Repr

/-- What is known while a list is set: the white space to put before a line break, the index
behind the last line break, the size of the last element, the sizes in the current run of aligned
lines, and the line of the last element. -/
structure ListState where
  ws : Space
  broken : Nat
  size : Nat
  sizes : List Nat
  line : Nat

/-- Sizes up to this one are aligned whatever their ratio. -/
def smallSize : Nat := 40

/-- The binary logarithm of a number, approximated by straight lines between powers of two, in
units of one over a power of two that is at least the number's own. -/
def flatLog (unit size : Nat) : Nat :=
  let power := 1 <<< Nat.log2 size
  Nat.log2 size * unit + size * unit / power - unit

/-- The mean of sizes in the scale of such logarithms, as a fraction. -/
def flatMean (sizes : List Nat) : Nat × Nat :=
  let unit := 1 <<< Nat.log2 (sizes.foldl max 1)
  let total := unit * sizes.length
  let logs := sizes.foldl (fun n s => n + flatLog unit s) 0
  ((1 <<< (logs / total)) * (total + logs % total), total)

/-- Is a size out of proportion to earlier ones: at most two fifths or at least five halves of
their mean? -/
def outOfProportion (sizes : List Nat) (size : Nat) : Bool :=
  let (mean, unit) := flatMean sizes
  5 * size * unit ≤ 2 * mean || 5 * mean ≤ 2 * size * unit

/-- The size by which an element is aligned: that of its key, if it has one, and zero if it does
not fit on a line. Where only the length of the whole counts, so that no elements are aligned, it
is left at zero. -/
def elementSize (x : Node) : Layout Nat := do
  if (← get).raw then return 0
  match ← measure 0 (expression r x) with
  | none => return 0
  | some n =>
    match x with
    | .other (.keyValue _) [key, _] => return (← measure 0 (expression r key)).getD 0
    | _ => return n

/-- Sets an element; a key on a line of its own ends a cell. -/
def element (several : Bool) (size depth : Nat) (broken : Bool) (x : Node) : Layout Unit := do
  match x with
  | .other (.keyValue colon) [key, value] =>
    if several && 0 < size && broken then
      expression r key
      setPos colon
      symbol ":"
      space .cell
      expression r value
    else expressionAt r x depth
  | x => expressionAt r x depth

/-- Sets the elements of a list from an index on. -/
def elements (several sized : Bool) (depth : Nat) :
    Nat → List Node → ListState → Layout ListState
  | _, [], st => return st
  | i, x :: xs, st => do
    let line ← lineOf x.pos
    let size ← if sized then elementSize r x else pure 0
    let newSection :=
      if 0 < st.size && 0 < size then
        !(st.sizes.isEmpty || (st.size ≤ smallSize && size ≤ smallSize)) &&
          outOfProportion st.sizes size
      else true
    let broken := 0 < st.line && st.line < line
    let mut st := st
    if 0 < i then
      if !broken then setPos x.pos
      symbol ","
      let breaks ← if broken then lineBreak line 0 st.ws (newSection || st.broken < i) else pure 0
      if 0 < breaks then st := { st with ws := .nothing, broken := i + 1 }
      else space .blank
      if 1 < breaks then st := { st with sizes := [] }
    element r several size depth broken x
    let sizes := if 0 < size then size :: st.sizes else st.sizes
    elements several sized depth (i + 1) xs { st with size := size, sizes := sizes, line := line }

/-- Sets elements on one line. -/
def elementsOnLine (depth : Nat) : Nat → List Node → Layout Unit
  | _, [] => return ()
  | i, x :: xs => do
    if 0 < i then
      setPos x.pos
      symbol ","
      space .blank
    expressionAt r x depth
    elementsOnLine depth (i + 1) xs

/-- Sets a list between two positions of the source, which may be missing. -/
def list (prev : Nat) (xs : List Node) (depth : Nat) (style : ListStyle) (next : Nat) :
    Layout Unit := do
  match xs with
  | [] => return ()
  | x :: _ =>
    let prevLine ← lineOf prev
    let nextLine ← lineOf next
    let line ← lineOf x.pos
    let endLine ← lineOf ((xs.getLast?.map Node.stop).getD 0)
    if prev != 0 && prevLine = line && line = endLine then elementsOnLine r depth 0 xs
    else
      let ws : Space := if style.indented then .indent else .nothing
      let breaks ← if prev != 0 && prevLine < line then lineBreak line 0 ws true else pure 0
      let start : ListState :=
        { ws := if 0 < breaks then .nothing else ws
          broken := if 0 < breaks then 1 else 0
          size := 0
          sizes := []
          line := prevLine }
      let st ← elements r (1 < xs.length) (prev != 0 && next != 0) depth 0 xs start
      let unindent : Layout Unit :=
        if st.ws = .nothing && style.indented then space .unindent else pure ()
      if style.closed && next != 0 && (← get).pos.line < nextLine then
        symbol ","
        unindent
        space .formfeed
      else unindent

/-- Sets names. -/
def names (ns : List Node) (indented : Bool) : Layout Unit :=
  list r 0 ns 1 ⟨indented, false⟩ 0

/-! ### Parameters and fields -/

/-- An expression without the parentheses around it. -/
def stripAll : Node → Node
  | .paren x _ _ => stripAll x
  | n => n

/-- The names and the type of a field. -/
def fieldParts : Node → List Node × Node
  | .other (.field count _ _ _) parts => (parts.take count, parts.getD count .missing)
  | n => ([], n)

/-- The tag of a field, if it has one. -/
def fieldTag : Node → Option Node
  | .other (.field count _ true _) parts => parts[count + 1]?
  | _ => none

/-- Does a comment stand behind a field? -/
def isCommented : Node → Bool
  | .other (.field _ _ _ commented) _ => commented
  | _ => false

/-- The fields of a list. -/
def fields : Node → List Node
  | .other (.fieldList ..) fs => fs
  | _ => []

/-- Sets parameters from an index on, given the white space before a line break and the last
line. -/
def parameterList : Nat → List Node → Space → Nat → Layout (Space × Nat)
  | _, [], ws, line => return (ws, line)
  | i, f :: fs, ws, line => do
    let first ← lineOf f.pos
    let last ← lineOf f.stop
    let broken := 0 < line && line < first
    if 0 < i then
      if !broken then setPos f.pos
      symbol ","
    let breaks ← if broken then lineBreak first 0 ws true else pure 0
    if breaks = 0 && 0 < i then space .blank
    let ws := if 0 < breaks then .nothing else ws
    let (ns, type) := fieldParts f
    if !ns.isEmpty then
      names r ns (ws = .indent)
      space .blank
    expression r (stripAll type)
    parameterList (i + 1) fs ws last

/-- Would a name and an expression behind it read as a single expression? -/
def combinesWithName : Node → Bool
  | .other (.star _) [x] => !Grammar.isTypeElement x
  | .binary _ x y _ => combinesWithName x && !Grammar.isTypeElement y
  | .paren x _ _ => !Grammar.isTypeElement x
  | _ => false

/-- Is a list of type parameters a single one that would read as the length of an array? -/
def readsAsLength (fs : List Node) : Bool :=
  match fs.map fieldParts with
  | [([_], type)] => combinesWithName (stripAll type)
  | _ => false

/-- Sets parameters in parentheses, or in brackets if they are types. `declared` says whether they
are those of a declared type. -/
def parameters (declared : Bool) (n : Node) : Layout Unit := do
  match n with
  | .other (.fieldList role opening closing) fs =>
    let types := role = .typeParameters
    setPos opening
    symbol (if types then "[" else "(")
    if !fs.isEmpty then
      let (ws, line) ← parameterList r 0 fs .indent (← lineOf opening)
      let close ← lineOf closing
      if 0 < line && line < close then
        symbol ","
        let _ ← lineBreak close 0 .nothing true
      else if types && declared && readsAsLength fs then symbol ","
      if ws = .nothing then space .unindent
    setPos closing
    symbol (if types then "]" else ")")
  | _ =>
    symbol "("
    symbol ")"

/-- The type parameters, the parameters and the results of a function. -/
def signature (n : Node) : Layout Unit := do
  match n with
  | .other (.funcType _) [types, ps, rs] =>
    if !types.isMissing then parameters r false types
    parameters r false ps
    match fields rs with
    | [] => return ()
    | [f] =>
      space .blank
      let (ns, type) := fieldParts f
      if ns.isEmpty then expression r (stripAll type) else parameters r false rs
    | _ =>
      space .blank
      parameters r false rs
  | _ => return ()

/-- The longest lone field that is set on one line. -/
def longestField : Nat := 30

/-- May fields be set on one line? -/
def onOneLine (fs : List Node) : Layout Bool := do
  match fs with
  | [f] =>
    let (ns, type) := fieldParts f
    let size := (← measure 0 (expression r type)).getD (longestField + 1)
    return (fieldTag f).isNone && (if ns.isEmpty then 0 else 1) + size ≤ longestField
  | _ => return false

/-- A method of an interface, or a type in it. -/
def method (f : Node) : Layout Unit := do
  let (ns, type) := fieldParts f
  match ns with
  | n :: _ =>
    expression r n
    signature r type
  | [] => expression r type

/-- A field of a structure, with the white space between its parts. -/
def member (sep : Space) (f : Node) : Layout Unit := do
  let (ns, type) := fieldParts f
  if !ns.isEmpty then
    names r ns false
    space sep
  expression r type
  let columns ←
    match fieldTag f with
    | some tag => do
      if !ns.isEmpty && sep = .cell then space sep
      space sep
      expression r tag
      pure 0
    | none => pure (if ns.isEmpty then 2 else 1)
  -- comments behind fields stand in a column of their own
  if isCommented f then (List.replicate columns sep).forM space

/-- Fields below each other, given the line of the last one. -/
def fieldLines (set : Node → Layout Unit) : Nat → List Node → Nat → Layout Unit
  | _, [], _ => return ()
  | i, f :: fs, line => do
    if 0 < i then
      let _ ← lineBreak (← lineOf f.pos) 1 .nothing (← isPast line)
    let line ← marked (set f)
    fieldLines set (i + 1) fs line

/-- Fields in braces. -/
def fieldBlock (isStruct : Bool) (n : Node) : Layout Unit := do
  match n with
  | .other (.fieldList _ lbrace rbrace) fs =>
    let commented := (← get).commentBefore ((← get).lines.spot rbrace)
    let oneLine := lbrace != 0 && rbrace != 0 && (← lineOf lbrace) = (← lineOf rbrace)
    if !commented && oneLine && fs.isEmpty then
      setPos lbrace
      symbol "\x7b"
      setPos rbrace
      symbol "\x7d"
    else if !commented && oneLine && (← onOneLine r fs) then
      setPos lbrace
      symbol "\x7b"
      space .blank
      if isStruct then
        for f in fs do
          let (ns, type) := fieldParts f
          elementsOnLine r 1 0 ns
          if !ns.isEmpty then space .blank
          expression r type
      else fs.forM (method r)
      space .blank
      setPos rbrace
      symbol "\x7d"
    else
      space .blank
      setPos lbrace
      symbol "\x7b"
      space .indent
      if commented || !fs.isEmpty then space .formfeed
      let sep : Space := if fs.length = 1 then .blank else .cell
      fieldLines (if isStruct then member r sep else method r) 0 fs 0
      space .unindent
      space .formfeed
      setPos rbrace
      symbol "\x7d"
  | _ => return ()

/-! ### Operators -/

/-- What speaks for or against blanks around operators in an operation: whether it has operators
of the two tightest precedences, and the least precedence from which on blanks are needed to keep
operators apart. -/
structure Mixture where
  hasSum : Bool
  hasProduct : Bool
  problem : Nat

/-- The union of two mixtures. -/
def Mixture.join (a b : Mixture) : Mixture :=
  ⟨a.hasSum || b.hasSum, a.hasProduct || b.hasProduct, max a.problem b.problem⟩

/-- An empty mixture. -/
def Mixture.empty : Mixture := ⟨false, false, 0⟩

/-- The precedence of the operator of an operation. -/
def precedenceOf : Node → Nat
  | .binary op _ _ _ => Grammar.precedence op
  | _ => 0

/-- The mixture of operators in an operation, apart from those in parentheses. -/
def mixture : Node → Mixture
  | .binary op x y _ =>
    let prec := Grammar.precedence op
    let own : Mixture := ⟨prec == 4, prec == 5, 0⟩
    let left := if precedenceOf x < prec then .empty else mixture x
    let right :=
      match y with
      | .binary .. => if precedenceOf y ≤ prec then .empty else mixture y
      | .other (.star _) _ => if op == utf8 "/" then { Mixture.empty with problem := 5 } else .empty
      | .unary inner _ _ =>
        let both := op ++ inner
        if both == utf8 "&&" || both == utf8 "&^" then { Mixture.empty with problem := 5 }
        else if both == utf8 "++" || both == utf8 "--" then { Mixture.empty with problem := 4 }
        else .empty
      | _ => .empty
    (own.join left).join right
  | _ => .empty

/-- The precedence from which on operators have no blanks around them. -/
def cutoff (n : Node) (depth : Nat) : Nat :=
  let m := mixture n
  if 0 < m.problem then m.problem + 1
  else if m.hasSum && m.hasProduct then if depth = 1 then 5 else 4
  else if depth = 1 then 6 else 4

/-- The precedence of operators in front of an operand. -/
def unaryPrecedence : Nat := 6

/-- The precedence of selections, calls and the like. -/
def highestPrecedence : Nat := 7

/-- Parentheses undo a level of depth. -/
def reduced (depth : Nat) : Nat := max (depth - 1) 1

/-- Sets a binary operation; operands of lower precedence are put in parentheses. -/
def operation (op : Bytes) (x y : Node) (opPos prec₁ cutoff depth : Nat) : Layout Unit := do
  let prec := Grammar.precedence op
  if prec < prec₁ then
    symbol "("
    expressionAt r (.binary op x y opPos) (reduced depth)
    symbol ")"
  else
    let blanks := prec < cutoff
    r.expression x prec (depth + if precedenceOf x = prec then 0 else 1)
    if blanks then space .blank
    let xLine := (← get).pos.line
    let yLine ← lineOf y.pos
    setPos opPos
    symbolOf op
    let breaks ←
      if xLine != yLine && 0 < xLine && 0 < yLine then lineBreak yLine 1 .indent true else pure 0
    if blanks && breaks = 0 then space .blank
    r.expression y (prec + 1) (depth + 1)
    if 0 < breaks then space .unindent

/-! ### Literals -/

/-- A numeral with lower-case marks and without idle zeros in imaginary integers. -/
def normalNumber (raw : Bytes) : Bytes :=
  let lowerLast (upper lower : UInt8) (s : Bytes) : Bytes :=
    match Bytes.splitLast? upper s with
    | some (before, behind) => before ++ lower :: behind
    | none => s
  match raw with
  | 0x30 :: 0x58 :: rest | 0x30 :: 0x78 :: rest => lowerLast 0x50 0x70 (utf8 "0x" ++ rest)
  | 0x30 :: 0x4F :: rest => utf8 "0o" ++ rest
  | 0x30 :: 0x42 :: rest => utf8 "0b" ++ rest
  | 0x30 :: 0x6F :: _ | 0x30 :: 0x62 :: _ => raw
  | _ =>
    if raw.length < 2 then raw
    else if raw.contains 0x45 then lowerLast 0x45 0x65 raw
    else if raw.getLast? == some 0x69 && !raw.any (fun b => b == 0x2E || b == 0x65) then
      let rest := raw.dropWhile fun b => b == 0x30 || b == 0x5F
      if rest == utf8 "i" then utf8 "0i" else rest
    else raw

/-- A literal as it is written. -/
def normalLiteral (kind : LiteralKind) (raw : Bytes) : Bytes :=
  match kind with
  | .int | .float | .imaginary => normalNumber raw
  | _ => raw

/-! ### Expressions -/

/-- A selection; says whether it was broken, and leaves the indentation to the caller if it is the
callee of a call. -/
def selection (x : Node) (sel : Bytes) (selPos depth : Nat) (callee : Bool) : Layout Bool := do
  r.expression x highestPrecedence depth
  symbol "."
  let line ← lineOf selPos
  let here := (← get).pos.line
  if 0 < here && here < line then
    space .indent
    space .newline
    setPos selPos
    name sel
    if !callee then space .unindent
    return true
  else
    setPos selPos
    name sel
    return false

/-- Does the callee of a call need parentheses, being a type that would swallow them? -/
def wrapsCallee : Node → Bool
  | .other (.funcType _) _ => true
  | .other (.chanType _ _ .receive) _ => true
  | _ => false

/-- A call. -/
def call (fn : Node) (args : List Node) (lparen ellipsis rparen depth : Nat) : Layout Unit := do
  let depth := if 1 < args.length then depth + 1 else depth
  let wrapped := wrapsCallee fn
  if wrapped then symbol "("
  let indented ←
    match fn with
    | .selector x sel p => selection r x sel p depth true
    | fn => do
      r.expression fn highestPrecedence depth
      pure false
  if wrapped then symbol ")"
  setPos lparen
  symbol "("
  if ellipsis != 0 then
    list r lparen args depth ⟨true, false⟩ ellipsis
    setPos ellipsis
    symbol "..."
    if rparen != 0 && (← lineOf ellipsis) < (← lineOf rparen) then
      symbol ","
      space .formfeed
  else list r lparen args depth ⟨true, true⟩ rparen
  setPos rparen
  symbol ")"
  if indented then space .unindent

/-- The bounds of a slice; `blanks` says whether colons have blanks around them. -/
def bounds (blanks : Bool) (depth : Nat) : Bool → List Node → Layout Unit
  | _, [] => return ()
  | previous, x :: xs => do
    if blanks && previous then space .blank
    symbol ":"
    if !x.isMissing then
      if blanks then space .blank
      expressionAt r x (depth + 1)
    bounds blanks depth (!x.isMissing) xs

/-- An operand in brackets. -/
def slice (x : Node) (limits : List Node) (lbrack rbrack depth : Nat) : Layout Unit := do
  r.expression x highestPrecedence 1
  setPos lbrack
  symbol "["
  let given := limits.filter fun l => !l.isMissing
  let blanks := depth ≤ 1 && 1 < given.length && given.any fun l => 0 < precedenceOf l
  match limits with
  | [] => return ()
  | low :: rest =>
    if !low.isMissing then expressionAt r low (depth + 1)
    bounds r blanks depth (!low.isMissing) rest
  setPos rbrack
  symbol "]"

/-- Elements in braces, behind a type unless it is missing. -/
def composite (type : Node) (es : List Node) (lbrace rbrace depth : Nat) : Layout Unit := do
  if !type.isMissing then r.expression type highestPrecedence depth
  modify fun p => { p with level := p.level + 1 }
  setPos lbrace
  symbol "\x7b"
  list r lbrace es 1 ⟨true, true⟩ rbrace
  let toggle (p : Page) : Page :=
    { p.noteOpened with
      noExtraBreak := !p.noExtraBreak
      noExtraBlank := if es.isEmpty then p.noExtraBlank else !p.noExtraBlank }
  space .indent
  space .unindent
  modify toggle
  setPos rbrace
  symbol "\x7d"
  modify toggle
  modify fun p => { p with level := p.level - 1 }

/-- How far the output has come since a column, if it is still on the line of a position. -/
def distanceFrom (pos column : Nat) : Layout Nat := do
  let p ← get
  if pos != 0 && p.pos.line != 0 && p.lines.line pos = p.pos.line then return p.out.column - column
  else return Page.far

/-- A function value. -/
def function (type body : Node) : Layout Unit := do
  setPos type.pos
  symbol "func"
  let column := (← get).out.column - 4
  signature r type
  r.body (← distanceFrom type.pos column) .blank body

/-- An operand behind a symbol of the precedence of operators in front of operands. -/
def inFront (prec₁ : Nat) (l : Layout Unit) : Layout Unit := do
  if unaryPrecedence < prec₁ then
    symbol "("
    l
    symbol ")"
  else l

/-- Any other expression or type. -/
def otherExpression (form : Form) (parts : List Node) (prec₁ depth : Nat) : Layout Unit := do
  match form, parts with
  | .star _, [x] =>
    inFront prec₁ do
      symbol "*"
      expression r x
  | .index lbrack rbrack, [x, i] =>
    r.expression x highestPrecedence 1
    setPos lbrack
    symbol "["
    expressionAt r i (depth + 1)
    setPos rbrack
    symbol "]"
  | .indexList lbrack rbrack, x :: is =>
    r.expression x highestPrecedence 1
    setPos lbrack
    symbol "["
    list r lbrack is (depth + 1) ⟨true, true⟩ rbrack
    setPos rbrack
    symbol "]"
  | .slice lbrack rbrack _, x :: limits => slice r x limits lbrack rbrack depth
  | .assertion lparen rparen, [x, t] =>
    r.expression x highestPrecedence depth
    symbol "."
    setPos lparen
    symbol "("
    if t.isMissing then symbol "type" else expression r t
    setPos rparen
    symbol ")"
  | .composite _ lbrace rbrace, t :: es => composite r t es lbrace rbrace depth
  | .keyValue colon, [key, value] =>
    expression r key
    setPos colon
    symbol ":"
    space .blank
    expression r value
  | .function, [t, body] => function r t body
  | .ellipsis _, [t] =>
    symbol "..."
    if !t.isMissing then expression r t
  | .arrayType _, [len, t] =>
    symbol "["
    if !len.isMissing then expression r len
    symbol "]"
    expression r t
  | .mapType _, [key, value] =>
    symbol "map"
    symbol "["
    expression r key
    symbol "]"
    expression r value
  | .chanType _ arrow direction, [t] =>
    match direction with
    | .both => symbol "chan"
    | .receive =>
      symbol "<-"
      symbol "chan"
    | .send =>
      symbol "chan"
      setPos arrow
      symbol "<-"
    space .blank
    expression r t
  | .funcType pos, parts =>
    symbol "func"
    signature r (.other (.funcType pos) parts)
  | .structType _, [fs] =>
    symbol "struct"
    fieldBlock r true fs
  | .interfaceType _, [fs] =>
    symbol "interface"
    fieldBlock r false fs
  | _, _ => return ()

/-- An expression behind an operator of some precedence, at some depth. -/
def expressionWith (n : Node) (prec₁ depth : Nat) : Layout Unit := unlessOverfull do
  setPos n.pos
  match n with
  | .missing => return ()
  | .ident s _ _ => name s
  | .literal kind raw _ _ => literal kind (if (← get).raw then raw else normalLiteral kind raw)
  | .selector x sel p =>
    let _ ← selection r x sel p depth false
  | .binary op x y p => operation r op x y p prec₁ (cutoff n depth) depth
  | .unary op x _ =>
    inFront prec₁ do
      symbolOf op
      r.expression x unaryPrecedence (if unaryPrecedence < prec₁ then 1 else depth)
  | .paren x _ rparen =>
    match x with
    | .paren .. => expressionAt r x depth
    | x =>
      symbol "("
      expressionAt r x (reduced depth)
      setPos rparen
      symbol ")"
  | .call fn args lparen ellipsis rparen => call r fn args lparen ellipsis rparen depth
  | .other form parts => otherExpression r form parts prec₁ depth

end Layout
end RelaxArith.Host
