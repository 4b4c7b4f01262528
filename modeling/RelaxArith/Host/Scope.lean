/-
Which names of a Go file refer to something declared in the file.

Parameters, local variables, constants and types, and the declarations of the package are taken
into account; an import is not a declaration.  A name is marked as resolved if it is in scope.
Since only membership matters, a scope is a plain list of names.

Types of parameters are looked up before the parameters are declared.  What stands to the left of
a short declaration is not looked up at all.
-/
import RelaxArith.Host.Node

namespace RelaxArith.Host.Scope

/-- The name of an identifier that can be declared. -/
def declarable : Node → List Bytes
  | .ident name _ _ => if name == utf8 "_" then [] else [name]
  | _ => []

/-- The names of a field. -/
def fieldNames : Node → List Bytes
  | .other (.field count _ _ _) parts => (parts.take count).flatMap declarable
  | _ => []

/-- The names of a list of fields. -/
def listNames : Node → List Bytes
  | .other (.fieldList ..) fs => fs.flatMap fieldNames
  | _ => []

/-- The names of type parameters, parameters and results. -/
def signatureNames : Node → List Bytes
  | .other (.funcType _) parts => parts.flatMap listNames
  | _ => []

/-- The names in brackets behind the type of a receiver, which stand for types. -/
def receiverTypes : Node → List Bytes
  | .other (.star _) [x] => receiverTypes x
  | .other (.index _ _) [_, i] => declarable i
  | .other (.indexList _ _) (_ :: is) => is.flatMap declarable
  | _ => []

/-- The names that stand for types in the first field of a receiver. -/
def receiverTypeNames : Node → List Bytes
  | .other (.fieldList ..) (.other (.field count _ _ _) parts :: _) =>
    receiverTypes (parts.getD count .missing)
  | _ => []

/-- Names that a construct declares for what comes behind it. -/
def declared (form : Form) (parts : List Node) : List Bytes :=
  match form with
  | .assign symbol _ targets =>
    if symbol == utf8 ":=" then (parts.take targets).flatMap declarable else []
  | .valueSpec names _ => (parts.take names).flatMap declarable
  | .typeSpec _ => (parts.take 1).flatMap declarable
  | _ => []

/-- Constructs in which declarations of one part reach the parts behind it. -/
def isSequence : Form → Bool
  | .block .. | .conditional _ | .loop _ | .switch _ | .typeSwitch _ | .clause .. | .commClause ..
  | .group .. | .declaration | .labeled _ => true
  | _ => false

/-- Constructs that let what is declared in them reach what comes behind. -/
def isOpen : Form → Bool
  | .group .. | .declaration | .labeled _ => true
  | _ => false

/-- Is an expression a name, perhaps in parentheses? -/
def isName : Node → Bool
  | .ident .. => true
  | .paren x _ _ => isName x
  | _ => false

mutual

/-- Marks the names of a node, given those in scope; with the names in scope behind it. -/
def mark (scope : List Bytes) : Node → Node × List Bytes
  | .missing => (.missing, scope)
  | .ident name p _ => (.ident name p (scope.contains name), scope)
  | .literal k raw p w => (.literal k raw p w, scope)
  | .selector x sel p => (.selector (mark scope x).1 sel p, scope)
  | .binary op x y p => (.binary op (mark scope x).1 (mark scope y).1 p, scope)
  | .unary op x p => (.unary op (mark scope x).1 p, scope)
  | .paren x p q => (.paren (mark scope x).1 p q, scope)
  | .call fn args p e q => (.call (mark scope fn).1 (markAll scope args) p e q, scope)
  | .other form parts =>
    let names := declared form parts
    match form with
    | .assign symbol pos targets =>
      let skipped := if symbol == utf8 ":=" then targets else 0
      (.other (.assign symbol pos targets) (markBehind skipped scope parts), names ++ scope)
    | .range pos symbolPos symbol =>
      (.other (.range pos symbolPos symbol) (markRange (symbol == utf8 ":=") scope parts), scope)
    | .function => (.other .function (markFunction scope parts), scope)
    | .funcType pos =>
      let types := (parts.take 1).flatMap listNames
      (.other (.funcType pos) (markAll (types ++ scope) parts), scope)
    | .typeSpec assign =>
      let types := ((parts.drop 1).take 1).flatMap listNames
      (.other (.typeSpec assign) (markAll (types ++ names ++ scope) parts), names ++ scope)
    | .funcDecl pos documented =>
      (.other (.funcDecl pos documented) (markFuncDecl scope parts), scope)
    | form =>
      if isSequence form then
        let (parts, inner) := markSequence scope parts
        (.other form parts, if isOpen form then inner else scope)
      else (.other form (markAll scope parts), names ++ scope)

/-- Marks parts that share a scope. -/
def markAll (scope : List Bytes) : List Node → List Node
  | [] => []
  | n :: ns => (mark scope n).1 :: markAll scope ns

/-- Marks parts behind the first few. -/
def markBehind : (skipped : Nat) → (scope : List Bytes) → List Node → List Node
  | _, _, [] => []
  | 0, scope, n :: ns => (mark scope n).1 :: markBehind 0 scope ns
  | k + 1, scope, n :: ns => n :: markBehind k scope ns

/-- Marks parts of which each sees the declarations of those before it. -/
def markSequence (scope : List Bytes) : List Node → List Node × List Bytes
  | [] => ([], scope)
  | n :: ns =>
    let (n, scope) := mark scope n
    let (ns, scope) := markSequence scope ns
    (n :: ns, scope)

/-- Marks the key, the value, the range and the body of a loop, of which a short declaration gives
the first two to the last. -/
def markRange (short : Bool) (scope : List Bytes) : List Node → List Node
  | [key, value, x, body] =>
    let names := if short then declarable key ++ declarable value else []
    let key := if short && isName key then key else (mark scope key).1
    let value := if short && isName value then value else (mark scope value).1
    [key, value, (mark scope x).1, (mark (names ++ scope) body).1]
  | ns => ns

/-- Marks the type and the body of a function. -/
def markFunction (scope : List Bytes) : List Node → List Node
  | [type, body] => [(mark scope type).1, (mark (signatureNames type ++ scope) body).1]
  | ns => ns

/-- Marks the receiver, the name, the type and the body of a declared function. -/
def markFuncDecl (scope : List Bytes) : List Node → List Node
  | [receiver, name, type, body] =>
    let scope := receiverTypeNames receiver ++ scope
    let inner := listNames receiver ++ signatureNames type ++ scope
    [(mark scope receiver).1, name, (mark scope type).1, (mark inner body).1]
  | ns => ns

end

/-- The names that a declaration of a file gives to the package. -/
def packageNames : Node → List Bytes
  | .other (.funcDecl ..) [.missing, n, _, _] =>
    (declarable n).filter fun name => name != utf8 "init"
  | .other (.group keyword _ _ _ _) specs =>
    if keyword == utf8 "import" then []
    else specs.flatMap fun
      | .other form parts => declared form parts
      | _ => []
  | _ => []

/-- A file with its names marked. -/
def markFile : Node → Node
  | .other (.file p) parts => .other (.file p) (markAll (parts.flatMap packageNames) parts)
  | n => n

end RelaxArith.Host.Scope
