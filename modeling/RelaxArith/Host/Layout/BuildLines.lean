/-
Lines that say under which conditions a file is built.

A condition is made of tags with negation, conjunction and disjunction.  It is written behind
`//go:build`, or in an older way behind `// +build`, where blanks are disjunction, commas are
conjunction and several lines are conjunction again.  If a file has lines of both kinds, those of
the older kind are made to agree with the newer one: negation is pushed down to the tags, and
what is left has to be a conjunction of disjunctions of conjunctions.

All these lines are brought together in one place, before the first thing that is no comment.
-/
import RelaxArith.Host.Layout.Columns
import RelaxArith.Text.Unicode

namespace RelaxArith.Host

/-- Conditions under which a file is built. -/
inductive Condition where
  | tag (name : Bytes)
  | not (c : Condition)
  | and (c d : Condition)
  | or (c d : Condition)
deriving DecidableEq, Repr, Inhabited

namespace Condition

/-! ### Text -/

/-- A condition in text. Conjunctions in disjunctions stand in parentheses, and the other way
round. -/
def text : Condition → Bytes
  | tag name => name
  | not c =>
    let inner := c.text
    match c with
    | .and .. | .or .. => utf8 "!(" ++ inner ++ utf8 ")"
    | _ => utf8 "!" ++ inner
  | and c d =>
    let side (c : Condition) (t : Bytes) : Bytes :=
      match c with
      | .or .. => utf8 "(" ++ t ++ utf8 ")"
      | _ => t
    side c c.text ++ utf8 " && " ++ side d d.text
  | or c d =>
    let side (c : Condition) (t : Bytes) : Bytes :=
      match c with
      | .and .. => utf8 "(" ++ t ++ utf8 ")"
      | _ => t
    side c c.text ++ utf8 " || " ++ side d d.text

/-- May a code point be part of a tag? -/
def isTagPoint (c : Nat) : Bool :=
  Unicode.isLetter c || Unicode.isDigit c || c == 0x5F || c == 0x2E

/-- The length of the tag at the beginning of a text. -/
def tagLength (s : Bytes) : Nat :=
  match s with
  | [] => 0
  | b :: bs =>
    match Bytes.codePoint? (b :: bs) with
    | some (c, n + 1) => if isTagPoint c then n + 1 + tagLength (bs.drop n) else 0
    | _ => 0
termination_by s.length

/-- Is a text a tag? -/
def isTag (s : Bytes) : Bool := !s.isEmpty && tagLength s == s.length

/-! ### Reading the newer form -/

/-- What a condition is written with. -/
inductive Mark where
  | tag (name : Bytes)
  | not
  | and
  | or
  | opening
  | closing
deriving DecidableEq, Repr

/-- The marks of a text. -/
def marks? (s : Bytes) : Option (List Mark) :=
  match s with
  | [] => some []
  | b :: bs =>
    if b == 0x20 || b == 0x09 then marks? bs
    else if b == 0x28 then (marks? bs).map (.opening :: ·)
    else if b == 0x29 then (marks? bs).map (.closing :: ·)
    else if b == 0x21 then (marks? bs).map (.not :: ·)
    else if b == 0x26 && bs.head? == some 0x26 then (marks? (bs.drop 1)).map (.and :: ·)
    else if b == 0x7C && bs.head? == some 0x7C then (marks? (bs.drop 1)).map (.or :: ·)
    else
      match tagLength (b :: bs) with
      | 0 => none
      | n + 1 => (marks? (bs.drop n)).map (.tag (b :: bs.take n) :: ·)
termination_by s.length
decreasing_by all_goals (simp only [List.length_cons, List.length_drop]; omega)

mutual

/-- Conjunctions with disjunction between them. The number bounds the depth. -/
def disjunction : Nat → List Mark → Option (Condition × List Mark)
  | 0, _ => none
  | n + 1, ms => do
    let (c, ms) ← conjunction n ms
    moreDisjuncts n c ms

/-- What follows the first conjunction. -/
def moreDisjuncts : Nat → Condition → List Mark → Option (Condition × List Mark)
  | 0, _, _ => none
  | n + 1, c, .or :: ms => do
    let (d, ms) ← conjunction n ms
    moreDisjuncts n (.or c d) ms
  | _ + 1, c, ms => some (c, ms)

/-- Negations with conjunction between them. -/
def conjunction : Nat → List Mark → Option (Condition × List Mark)
  | 0, _ => none
  | n + 1, ms => do
    let (c, ms) ← negation n ms
    moreConjuncts n c ms

/-- What follows the first negation. -/
def moreConjuncts : Nat → Condition → List Mark → Option (Condition × List Mark)
  | 0, _, _ => none
  | n + 1, c, .and :: ms => do
    let (d, ms) ← negation n ms
    moreConjuncts n (.and c d) ms
  | _ + 1, c, ms => some (c, ms)

/-- A tag or a condition in parentheses, perhaps negated, but not twice. -/
def negation : Nat → List Mark → Option (Condition × List Mark)
  | 0, _ => none
  | n + 1, .not :: ms => do
    let (c, ms) ← atom n ms
    pure (.not c, ms)
  | n + 1, ms => atom n ms

/-- A tag or a condition in parentheses. -/
def atom : Nat → List Mark → Option (Condition × List Mark)
  | _, .tag name :: ms => some (.tag name, ms)
  | n + 1, .opening :: ms => do
    match ← disjunction n ms with
    | (c, .closing :: ms) => pure (c, ms)
    | _ => none
  | _, _ => none

end

/-- The most tags and parentheses of a condition. -/
def mostTerms : Nat := 1000

/-- Reads a condition in the newer form. -/
def parse? (s : Bytes) : Option Condition := do
  let ms ← marks? s
  let terms := ms.filter fun m => match m with
    | .tag _ | .opening => true
    | _ => false
  if mostTerms < terms.length then none
  match ← disjunction (6 * ms.length + 6) ms with
  | (c, []) => pure c
  | _ => none

/-! ### Reading the older form -/

/-- A tag, perhaps negated; what is none counts as a tag that is never given. -/
def ofLiteral (s : Bytes) : Condition :=
  let ignored := Condition.tag (utf8 "ignore")
  if Bytes.startsWith s (utf8 "!!") || s == utf8 "!" then ignored
  else
    match Bytes.dropPrefix? (utf8 "!") s with
    | some name => .not (if isTag name then .tag name else ignored)
    | none => if isTag s then .tag s else ignored

/-- Conditions joined from left to right. -/
def joined (join : Condition → Condition → Condition) : List Condition → Option Condition
  | [] => none
  | c :: cs => some (cs.foldl join c)

/-- The most connectives of a condition in the older form. -/
def mostOldConnectives : Nat := 100

/-- Reads a condition in the older form. -/
def parseOld? (s : Bytes) : Option Condition :=
  let clauses := (Bytes.words s).map fun w => (Bytes.splitOnByte 0x2C w).map ofLiteral
  let literals := clauses.foldl (fun n ls => n + ls.length) 0
  if mostOldConnectives + 1 < literals then none
  else some ((joined .or (clauses.filterMap (joined .and))).getD (.tag (utf8 "ignore")))

/-! ### Writing the older form -/

/-- A condition or its negation, with negation at the tags only. -/
def normal : Bool → Condition → Condition
  | positive, tag name => if positive then .tag name else .not (.tag name)
  | positive, not c => normal (!positive) c
  | positive, and c d =>
    if positive then .and (normal true c) (normal true d)
    else .or (normal false c) (normal false d)
  | positive, or c d =>
    if positive then .or (normal true c) (normal true d)
    else .and (normal false c) (normal false d)

/-- What a conjunction joins. -/
def conjuncts : Condition → List Condition
  | and c d => c.conjuncts ++ d.conjuncts
  | c => [c]

/-- What a disjunction joins. -/
def disjuncts : Condition → List Condition
  | or c d => c.disjuncts ++ d.disjuncts
  | c => [c]

/-- The text of a tag that is perhaps negated. -/
def literalText? : Condition → Option Bytes
  | tag name => some name
  | not c => some (Condition.not c).text
  | _ => none

/-- The lines of the older form, if the condition has one. -/
def oldLines (c : Condition) : List Bytes :=
  let split := (normal true c).conjuncts.mapM fun c =>
    c.disjuncts.mapM fun d => d.conjuncts.mapM literalText?
  match split with
  | none => [utf8 "// +build error: expression too complex for // +build lines"]
  | some lines =>
    let lines := if lines.all fun l => l.length ≤ 1 then [[(lines.map List.flatten).flatten]] else lines
    lines.map fun l =>
      (utf8 "// +build") ++ l.flatMap fun ts => utf8 " " ++ Bytes.join (utf8 ",") ts

end Condition

namespace BuildLines

/-! ### Which lines they are -/

/-- The text behind a keyword, if white space or nothing follows it. -/
def behindKeyword? (keyword s : Bytes) : Option Bytes :=
  (Bytes.dropPrefix? keyword s).bind fun rest =>
    let text := Bytes.trim rest
    if rest.length = text.length && !rest.isEmpty then none else some text

/-- The condition that a comment of the newer form spells. -/
def newText? (comment : Bytes) : Option Bytes :=
  if Bytes.startsWith comment (utf8 "//go:build") then
    behindKeyword? (utf8 "//go:build") (Bytes.trim comment)
  else none

/-- The condition that a comment of the older form spells. -/
def oldText? (comment : Bytes) : Option Bytes :=
  (Bytes.dropPrefix? (utf8 "//") comment).bind fun rest =>
    behindKeyword? (utf8 "+build") (Bytes.trim rest)

/-- The condition of a comment of either form. -/
def condition? (comment : Bytes) : Option Condition :=
  match newText? comment with
  | some text => Condition.parse? text
  | none => (oldText? comment).bind Condition.parseOld?

/-! ### Bringing them together -/

/-- Does a byte end a line of unaligned text? -/
def isBreak (b : UInt8) : Bool := b == 0x0A || b == 0x0C

/-- The first line of a text, with its end. -/
def firstLine (s : Bytes) : Bytes :=
  let text := s.takeWhile fun b => !isBreak b
  s.take (text.length + 1)

/-- The text of the comment at the beginning of a text. -/
def commentText (s : Bytes) : Bytes :=
  let s := if s.head? == some Columns.escape then s.drop 1 else s
  s.takeWhile fun b => b != Columns.escape && !isBreak b

/-- The offset behind the last empty line among the comments at the beginning of a text. `offset`
is where the rest begins and `last` what has been found. The number bounds the lines. -/
def latestPlace : Nat → (offset last : Nat) → Bytes → Nat
  | 0, _, last, _ => last
  | n + 1, offset, last, s =>
    let space := (s.takeWhile fun b => b == 0x20 || b == 0x09).length
    let s := s.drop space
    let isComment := Bytes.startsWith s [Columns.escape, 0x2F, 0x2F] && 3 < s.length
    let comment := if isComment then (s.takeWhile fun b => !isBreak b).length else 0
    match s.drop comment with
    | b :: rest =>
      if isBreak b then
        let next := offset + space + comment + 1
        latestPlace n next (if isComment then last else next) rest
      else last
    | [] => last

/-- Appends lines to others without a second empty line in a row. -/
def appendLines (s t : Bytes) : Bytes :=
  let ends (s : Bytes) : Bool :=
    match s.reverse with
    | [] => true
    | a :: b :: _ => isBreak a && isBreak b
    | _ => false
  match t with
  | b :: rest => if isBreak b && ends s then s ++ rest else s ++ b :: rest
  | [] => s

/-- What is left of a text from an offset on without the lines at some offsets. -/
def withoutLines (text : Bytes) : (start : Nat) → List Nat → Bytes → Bytes
  | start, [], kept => appendLines kept (text.drop start)
  | start, place :: places, kept =>
    if place < start then withoutLines text start places kept
    else
      let kept := appendLines kept (Bytes.slice text start place)
      withoutLines text (place + (firstLine (text.drop place)).length) places kept

/-- The condition that lines at some offsets spell together; that of a single newer one counts. -/
def together? (text : Bytes) (new old : List Nat) : Option Condition :=
  match new with
  | [] => (old.mapM fun p => condition? (commentText (text.drop p))).bind (Condition.joined .and)
  | [p] => condition? (commentText (text.drop p))
  | _ => none

/-- The lines for a condition, or the lines at some offsets as they are if there is none. -/
def blockOf (text : Bytes) (new old : List Nat) : Bytes :=
  match together? text new old with
  | none => (new ++ old).flatMap (fun p => firstLine (text.drop p)) ++ [0x0A]
  | some c =>
    let lines := (utf8 "//go:build " ++ c.text) :: if old.isEmpty then [] else c.oldLines
    lines.flatMap (fun l => Columns.escape :: l ++ [Columns.escape, 0x0A]) ++ [0x0A]

/-- Brings the lines at the given offsets, newer and older ones, together in unaligned text. -/
def gather (new old : List Nat) (text : Bytes) : Bytes :=
  if new.isEmpty && old.isEmpty then text
  else
    let latest := latestPlace (text.length + 1) 0 0 text
    let insert :=
      match new, old with
      | p :: _, _ => if p < latest then p else
        match old with
        | q :: _ => if q < latest then q else latest
        | [] => latest
      | [], q :: _ => if q < latest then q else latest
      | [], [] => latest
    let places := (new ++ old).mergeSort fun a b => a ≤ b
    let after := withoutLines text insert places []
    let after :=
      match after.reverse with
      | a :: b :: _ => if isBreak a && isBreak b then after.dropLast else after
      | _ => after
    text.take insert ++ blockOf text new old ++ after

end BuildLines
end RelaxArith.Host
