/-
The layout of Go statements, declarations and files, and the knot of all layouts.

A function whose body stands on one line of the source, and is short enough, stays on one line;
every other block begins and ends lines of its own.
-/
import RelaxArith.Host.Layout.Expressions
import RelaxArith.Host.Statements
import RelaxArith.Text.Quoted

namespace RelaxArith.Host

namespace Layout

variable (r : Inner)

/-! ### Declarations -/

/-- The names, the type and the values of declared variables. -/
def valueParts : Node → List Node × Node × List Node
  | .other (.valueSpec count _) parts =>
    (parts.take count, parts.getD count .missing, parts.drop (count + 1))
  | _ => ([], .missing, [])

/-- Does a comment stand behind declared variables? -/
def isCommentedValue : Node → Bool
  | .other (.valueSpec _ commented) _ => commented
  | _ => false

/-- Which specifications keep the column of types although they have none: those in a run of
initialised ones of which some has a type. -/
def keepsTypeColumn (specs : List Node) : List Bool :=
  let rows := specs.map fun s =>
    let (_, type, values) := valueParts s
    (!type.isMissing, !values.isEmpty)
  (rows.splitBy fun a b => a.2 == b.2).flatMap fun run =>
    let keep := run.all (·.2) && run.any (·.1)
    run.map fun _ => keep

/-- Declared variables in a list, in columns: names, type, values and comments. -/
def valueRow (keepType : Bool) (s : Node) : Layout Unit := do
  let (ns, type, values) := valueParts s
  let typed := !type.isMissing || keepType
  names r ns false
  if typed then space .cell
  if !type.isMissing then expression r type
  if !values.isEmpty then
    space .cell
    symbol "="
    space .blank
    list r 0 values 1 ⟨true, false⟩ 0
  if isCommentedValue s then
    let used := (if typed then 1 else 0) + if values.isEmpty then 0 else 1
    (List.replicate (3 - used) Space.cell).forM space

/-- Characters that no path of an import has. -/
def noPath : List Nat :=
  ("!\"#$%&'()*,:;<=>?[\\]^\x7b|\x7d` ".toList).map Char.toNat ++ [0xFFFD]

/-- May a path be imported? It has to be UTF-8. -/
def isImportable (path : Bytes) : Bool :=
  let cs := Bytes.codePoints path
  !path.isEmpty && cs.flatMap (fun c => utf8Char (Char.ofNat c)) == path &&
    cs.all fun c => Unicode.isPrintable c && !noPath.contains c

/-- The literal of a path in plain quotes, if it can be imported. -/
def importPath (raw : Bytes) : Bytes :=
  let path := Lex.textValue raw
  if isImportable path then Quoted.quote path else raw

/-- A specification, of which there are so many. -/
def spec (count : Nat) (indented : Bool) (s : Node) : Layout Unit := do
  match s with
  | .other (.importSpec endPos _ _) [n, path] =>
    if !n.isMissing then
      expression r n
      space .blank
    match path with
    | .literal kind raw p width => expression r (.literal kind (importPath raw) p width)
    | path => expression r path
    setPos endPos
  | .other (.valueSpec ..) _ =>
    let (ns, type, values) := valueParts s
    names r ns indented
    if !type.isMissing then
      space .blank
      expression r type
    if !values.isEmpty then
      space .blank
      symbol "="
      space .blank
      list r 0 values 1 ⟨true, false⟩ 0
  | .other (.typeSpec assign) [n, types, type] =>
    expression r n
    if !types.isMissing then parameters r true types
    space (if count = 1 then .blank else .cell)
    if assign != 0 then
      symbol "="
      space .blank
    expression r type
  | _ => return ()

/-- Specifications below each other, given the line of the last one. -/
def specLines : Nat → List (Node × Layout Unit) → Nat → Layout Unit
  | _, [], _ => return ()
  | i, (s, l) :: rest, line => do
    if 0 < i then
      let _ ← lineBreak (← lineOf s.pos) 1 .nothing (← isPast line)
    let line ← marked l
    specLines (i + 1) rest line

/-- A declaration of one or several of a kind. -/
def groupDeclaration (keyword : Bytes) (pos lparen rparen : Nat) (specs : List Node) :
    Layout Unit := do
  setPos pos
  symbolOf keyword
  space .blank
  match lparen, specs with
  | 0, [s] => spec r 1 true s
  | _, _ =>
    setPos lparen
    symbol "("
    if !specs.isEmpty then
      space .indent
      space .formfeed
      let columns := 1 < specs.length && (keyword == utf8 "const" || keyword == utf8 "var")
      let rows :=
        if columns then
          List.zipWith (fun s keep => (s, valueRow r keep s)) specs (keepsTypeColumn specs)
        else specs.map fun s => (s, spec r specs.length false s)
      specLines 0 rows 0
      space .unindent
      space .formfeed
    setPos rparen
    symbol ")"

/-- A declaration of a function. -/
def functionDeclaration (pos : Nat) (receiver n type body : Node) : Layout Unit := do
  setPos pos
  symbol "func"
  space .blank
  let column := (← get).out.column - 5
  if !receiver.isMissing then
    parameters r false receiver
    space .blank
  expression r n
  signature r type
  r.body (← distanceFrom pos column) .cell body

/-- A declaration. -/
def declaration (n : Node) : Layout Unit :=
  match n with
  | .other (.group keyword pos lparen rparen _) specs =>
    groupDeclaration r keyword pos lparen rparen specs
  | .other (.funcDecl pos _) [receiver, name, type, body] =>
    functionDeclaration r pos receiver name type body
  | _ => return ()

/-! ### Blocks -/

/-- Is a statement empty? -/
def isEmptyStatement : Node → Bool
  | .other (.emptyStatement ..) _ => true
  | _ => false

/-- How many labels stand before a statement. -/
def labels : Node → Nat
  | .other (.labeled _) [_, s] => labels s + 1
  | _ => 0

/-- Statements below each other. `nested` says whether they are indented; `i` counts those before,
`left` is the number of the last of all, and `line` is where the last one began. -/
def statementLines (nested beforeBrace : Bool) (last : Nat) :
    Nat → List Node → Nat → Layout Unit
  | _, [], _ => return ()
  | i, s :: rest, line => do
    if !(← get).output.isEmpty then
      let _ ← lineBreak (← lineOf s.pos) 1 .nothing (i = 0 || !nested || (← isPast line))
    let line ← marked (r.statement s (beforeBrace && i = last))
    statementLines nested beforeBrace last (i + 1) rest (line + labels s)

/-- A list of statements; empty ones are left out. -/
def statements (ss : List Node) (nested beforeBrace : Bool) : Layout Unit := do
  if nested then space .indent
  let proper := ss.filter fun s => !isEmptyStatement s
  statementLines r nested beforeBrace (ss.length - 1) 0 proper 0
  if nested then space .unindent

/-- Statements in braces on lines of their own. -/
def block (nested : Bool) (n : Node) : Layout Unit := do
  match n with
  | .other (.block lbrace rbrace) ss =>
    setPos lbrace
    symbol "\x7b"
    statements r ss nested true
    let _ ← lineBreak (← lineOf rbrace) 1 .nothing false
    setPos rbrace
    symbol "\x7d"
  | _ => return ()

/-- The most that a function on one line may take. -/
def longestFunction : Nat := 100

/-- The most statements of a function on one line. -/
def mostStatements : Nat := 5

/-- The length of a body on one line, or more than it may have. -/
def bodySize (lbrace rbrace : Nat) (ss : List Node) : Layout Nat := do
  let apart := lbrace != 0 && rbrace != 0 && (← lineOf lbrace) != (← lineOf rbrace)
  if apart || mostStatements < ss.length then return longestFunction + 1
  let p ← get
  let sizes ← ss.mapM fun s => do
    let depth := if labels s = 0 then 0 else 1
    return (← measure depth (r.statement s false)).getD (longestFunction + 1)
  let comments := p.commentsSize (p.lines.spot rbrace)
  return sizes.foldl (· + ·) comments + 2 * (ss.length - 1)

/-- Statements on one line. -/
def statementsOnLine (last : Nat) : Nat → List Node → Layout Unit
  | _, [] => return ()
  | i, s :: rest => do
    if 0 < i then
      symbol ";"
      space .blank
    r.statement s (i = last)
    statementsOnLine last (i + 1) rest

/-- The body of a function, given the length of what stands before it. -/
def functionBody (before : Nat) (sep : Space) (n : Node) : Layout Unit := do
  match n with
  | .other (.block lbrace rbrace) ss =>
    let level := (← get).level
    modify fun p => { p with level := 0 }
    if before + (← bodySize r lbrace rbrace ss) ≤ longestFunction then
      space sep
      setPos lbrace
      symbol "\x7b"
      if !ss.isEmpty then
        space .blank
        statementsOnLine r (ss.length - 1) 0 ss
        space .blank
      let toggle (p : Page) : Page := { p.noteOpened with noExtraBreak := !p.noExtraBreak }
      modify toggle
      setPos rbrace
      symbol "\x7d"
      modify toggle
    else
      space .blank
      block r true n
    modify fun p => { p with level := level }
  | _ => return ()

/-! ### Statements -/

/-- Is an expression a name or a qualified name? -/
def isTypeName : Node → Bool
  | .ident .. => true
  | .selector x _ _ => isTypeName x
  | _ => false

mutual

/-- Does an expression have a composite value of a named type outside of parentheses? -/
def hasNamedComposite : Node → Bool
  | .missing => false
  | .ident .. => false
  | .literal .. => false
  | .selector x _ _ => hasNamedComposite x
  | .binary _ x y _ => hasNamedComposite x || hasNamedComposite y
  | .unary _ x _ => hasNamedComposite x
  | .paren .. => false
  | .call fn args _ _ _ => hasNamedComposite fn || anyNamedComposite args
  | .other (.composite ..) parts =>
    match parts with
    | t :: _ => isTypeName t
    | [] => false
  | .other _ parts => anyNamedComposite parts

/-- Does one of several expressions have such a value? -/
def anyNamedComposite : List Node → Bool
  | [] => false
  | n :: ns => hasNamedComposite n || anyNamedComposite ns

end

/-- An expression without parentheses around it that are not needed in a control clause. -/
def stripParens : Node → Node
  | .paren x p q => if hasNamedComposite x then .paren x p q else stripParens x
  | n => n

/-- A condition with its statements before and behind. -/
def controlClause (isLoop : Bool) (first cond step : Node) : Layout Unit := do
  space .blank
  if first.isMissing && step.isMissing then
    if !cond.isMissing then
      expression r (stripParens cond)
      space .blank
  else
    if !first.isMissing then r.statement first false
    symbol ";"
    space .blank
    if !cond.isMissing then expression r (stripParens cond)
    if isLoop then
      symbol ";"
      space .blank
      if !step.isMissing then
        r.statement step false
        space .blank
    else if !cond.isMissing then space .blank

/-- The lines of the first and of the last position of expressions. -/
def lineSpans (xs : List Node) : Layout (List (Nat × Nat)) :=
  xs.mapM fun x => do return (← lineOf x.pos, ← lineOf x.stop)

/-- Is one of several spans of lines not on the line on which the one before ends? -/
def hasGap : Nat → List (Nat × Nat) → Bool
  | _, [] => false
  | line, (first, last) :: rest => line < first || hasGap last rest

/-- Is an expression a composite value, perhaps in parentheses or behind `&`? -/
def isComposite : Node → Bool
  | .paren x _ _ => isComposite x
  | .unary op x _ => op == utf8 "&" && isComposite x
  | .other (.composite ..) _ => true
  | _ => false

/-- Does a list look better if it is indented as a whole? So if an element begins a line, or if
several elements other than composite values take more than one. -/
def indentsList (xs : List Node) : Layout Bool := do
  match ← lineSpans xs with
  | (first, last) :: rest =>
    let spans := (first, last) :: rest
    let stop := (spans.getLast?.map Prod.snd).getD 0
    let long := (xs.zip spans).filter fun (x, s) => !isComposite x && s.1 < s.2
    return !rest.isEmpty && 0 < first && first < stop && (hasGap first spans || 1 < long.length)
  | [] => return false

/-- An assignment. -/
def assignment (op : Bytes) (pos : Nat) (targets values : List Node) : Layout Unit := do
  let depth := if 1 < targets.length && 1 < values.length then 2 else 1
  list r ((targets.head?.map Node.pos).getD 0) targets depth ⟨true, false⟩ pos
  space .blank
  setPos pos
  symbolOf op
  space .blank
  list r pos values depth ⟨true, false⟩ 0

/-- A return with its values. -/
def returnValues (xs : List Node) : Layout Unit := do
  symbol "return"
  if !xs.isEmpty then
    space .blank
    if ← indentsList xs then
      space .indent
      list r 0 xs 1 ⟨false, false⟩ 0
      space .unindent
    else list r 0 xs 1 ⟨true, false⟩ 0

/-- A labeled statement; its label stands further left. -/
def labeled (label s : Node) (colon : Nat) (beforeBrace : Bool) : Layout Unit := do
  space .unindent
  expression r label
  setPos colon
  symbol ":"
  space .indent
  if isEmptyStatement s then
    if !beforeBrace then
      space .newline
      setPos s.pos
      symbol ";"
  else
    let _ ← lineBreak (← lineOf s.pos) 1 .nothing true
    r.statement s beforeBrace

/-- A conditional statement. -/
def conditional (first cond body alternative : Node) (beforeBrace : Bool) : Layout Unit := do
  symbol "if"
  controlClause r false first cond .missing
  block r true body
  if !alternative.isMissing then
    space .blank
    symbol "else"
    space .blank
    r.statement alternative beforeBrace

/-- A loop over a range. -/
def rangeLoop (op : Bytes) (opPos : Nat) (key value x body : Node) : Layout Unit := do
  symbol "for"
  space .blank
  if !key.isMissing then
    expression r key
    if !value.isMissing then
      setPos value.pos
      symbol ","
      space .blank
      expression r value
    space .blank
    setPos opPos
    symbolOf op
    space .blank
  symbol "range"
  space .blank
  expression r (stripParens x)
  space .blank
  block r true body

/-- Alternatives in braces that wait for communications. Without any they stay on one line. -/
def select (body : Node) : Layout Unit := do
  symbol "select"
  space .blank
  match body with
  | .other (.block lbrace rbrace) [] =>
    if (← get).commentBefore ((← get).lines.spot rbrace) then block r false body
    else
      setPos lbrace
      symbol "\x7b"
      setPos rbrace
      symbol "\x7d"
  | body => block r false body

/-- A statement. -/
def statement (n : Node) (beforeBrace : Bool) : Layout Unit := unlessOverfull do
  setPos n.pos
  match n with
  | .other form parts =>
    match form, parts with
    | .declaration, [d] => declaration r d
    | .labeled colon, [label, s] => labeled r label s colon beforeBrace
    | .expression, [x] => expression r x
    | .send arrow, [x, y] =>
      expression r x
      space .blank
      setPos arrow
      symbol "<-"
      space .blank
      expression r y
    | .incDec op pos, [x] =>
      expressionAt r x 2
      setPos pos
      symbolOf op
    | .assign op pos count, xs => assignment r op pos (xs.take count) (xs.drop count)
    | .go _, [c] =>
      symbol "go"
      space .blank
      expression r c
    | .defer _, [c] =>
      symbol "defer"
      space .blank
      expression r c
    | .returnValues _, xs => returnValues r xs
    | .branch keyword _, label =>
      symbolOf keyword
      for l in label do
        space .blank
        expression r l
    | .block .., _ => block r true n
    | .conditional _, [first, cond, body, alternative] =>
      conditional r first cond body alternative beforeBrace
    | .clause pos colon count isDefault, xs =>
      if isDefault then symbol "default"
      else
        symbol "case"
        space .blank
        list r pos (xs.take count) 1 ⟨true, false⟩ colon
      setPos colon
      symbol ":"
      statements r (xs.drop count) true beforeBrace
    | .switch _, [first, tag, body] =>
      symbol "switch"
      controlClause r false first tag .missing
      block r false body
    | .typeSwitch _, [first, guarded, body] =>
      symbol "switch"
      if !first.isMissing then
        space .blank
        r.statement first false
        symbol ";"
      space .blank
      r.statement guarded false
      space .blank
      block r false body
    | .commClause _ colon, comm :: ss =>
      if comm.isMissing then symbol "default"
      else
        symbol "case"
        space .blank
        r.statement comm false
      setPos colon
      symbol ":"
      statements r ss true beforeBrace
    | .select _, [body] => select r body
    | .loop _, [first, cond, step, body] =>
      symbol "for"
      controlClause r true first cond step
      block r true body
    | .range _ opPos op, [key, value, x, body] => rangeLoop r op opPos key value x body
    | _, _ => return ()
  | _ => return ()

/-! ### Files -/

/-- The keyword of a declaration, and whether it is documented. -/
def declarationKind : Node → Bytes × Bool
  | .other (.group keyword _ _ _ documented) _ => (keyword, documented)
  | .other (.funcDecl _ documented) _ => (utf8 "func", documented)
  | _ => ([], false)

/-- Declarations below each other, given the keyword of the last one. -/
def declarations : Bytes → List Node → Layout Unit
  | _, [] => return ()
  | previous, d :: ds => do
    let (keyword, documented) := declarationKind d
    if !(← get).output.isEmpty then
      let least := if previous != keyword || documented then 2 else 1
      let long := (← lineOf d.pos) < (← lineOf d.stop)
      let _ ← lineBreak (← lineOf d.pos) least .nothing (keyword == utf8 "func" && long)
    declaration r d
    declarations keyword ds

/-- A file. -/
def file (n : Node) : Layout Unit := do
  match n with
  | .other (.file pos) (package :: ds) =>
    setPos pos
    symbol "package"
    space .blank
    expression r package
    declarations r [] ds
    space .newline
  | _ => return ()

/-! ### The knot -/

/-- Layouts to a depth of nesting. -/
def inner : Nat → Inner
  | 0 => ⟨fun _ _ _ => return (), fun _ _ => return (), fun _ _ _ => return ()⟩
  | n + 1 =>
    let r := inner n
    { expression := expressionWith r
      statement := statement r
      body := functionBody r }

end Layout

/-- The text of a program. Every node is entered at most a few times on the way down. -/
def Program.render (p : Program) : Bytes :=
  let r := Layout.inner (4 * p.file.size + 4)
  let page : Page := { lines := p.lines, raw := false, comments := p.comments }
  ((Layout.file r p.file).run page).2.finish

end RelaxArith.Host
