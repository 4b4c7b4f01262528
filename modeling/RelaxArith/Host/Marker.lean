/-
Expanding marker calls in a Go file.

Nodes are visited after their parts, in source order.  A call whose callee spells the marker is
replaced by the relaxed form of its argument.  The first call with no argument or with several
stops the walk; the number of calls replaced so far is kept.
-/
import RelaxArith.Expansion
import RelaxArith.Host.Exchange

namespace RelaxArith.Host

/-- What marks an expression, and how it is relaxed. -/
structure Marker where
  name : Bytes
  relaxer : Relaxer

/-- The usual marker. -/
def Marker.defaultName : Bytes := utf8 "fastmath.Relaxed"

/-- Why a marker call cannot be replaced. -/
inductive MarkerError where
  /-- It has several arguments. -/
  | surplus (marker : Bytes) (arguments : Nat)
  /-- It has none. -/
  | expansion (e : ExpansionError)
  /-- Its argument has no Go form once it is relaxed. -/
  | conversion (e : ConversionError)
  /-- It stands behind `go` or `defer`, and what would replace it is no call. -/
  | notCall (type : Bytes)
deriving DecidableEq, Repr

/-- The wording of an error. -/
def MarkerError.message : MarkerError → Bytes
  | .surplus marker n =>
    marker ++ utf8 " called with " ++ Bytes.decimal n ++
      utf8 " arguments: marker call takes a single expression"
  | .expansion e => e.message
  | .conversion e => e.message
  | .notCall type =>
    utf8 "reflect.Set: value of type *ast." ++ type ++
      utf8 " is not assignable to type *ast.CallExpr"

/-- Where and why the walk stopped, and how many calls had been replaced. -/
structure Stopped where
  pos : Nat
  error : MarkerError
  count : Nat
deriving DecidableEq, Repr

namespace Marker

/-- What a walk over a node gives, started with a number of replaced calls. -/
abbrev Walk (α : Type) := Except Stopped (α × Nat)

/-- The replacement of a call whose parts have been visited. -/
def replacement (m : Marker) (pos stop : Nat) (args : List Node) : Except MarkerError Node :=
  if 1 < args.length then .error (.surplus m.name args.length)
  else
    match m.relaxer.expand ⟨m.name, args.map Node.toExpr, ⟨pos, stop⟩⟩ with
    | .error e => .error (.expansion e)
    | .ok e =>
      match Node.ofExpr e with
      | .error e => .error (.conversion e)
      | .ok x => .ok x

/-- Visits a call whose parts have been visited. -/
def visitCall (m : Marker) (fn : Node) (args : List Node) (lparen ellipsis rparen n : Nat) :
    Walk Node :=
  let call := Node.call fn args lparen ellipsis rparen
  if fn.qualifiedName? = some m.name then
    match m.replacement call.pos call.stop args with
    | .error e => .error ⟨call.pos, e, n⟩
    | .ok x => .ok (x, n + 1)
  else .ok (call, n)

/-- Visits any other construct whose parts have been visited. A call that `go` or `defer` starts
has to remain one. -/
def visitOther (form : Form) (parts : List Node) (n : Nat) : Walk Node :=
  match form, parts with
  | .go p, [x] | .defer p, [x] =>
    if x.isCall then .ok (.other form parts, n) else .error ⟨p, .notCall x.typeName, n⟩
  | form, parts => .ok (.other form parts, n)

mutual

/-- Replaces the marker calls of a node. -/
def expand (m : Marker) (n : Nat) : Node → Walk Node
  | .missing => .ok (.missing, n)
  | .ident name p res => .ok (.ident name p res, n)
  | .literal k raw p w => .ok (.literal k raw p w, n)
  | .selector x sel p =>
    match m.expand n x with
    | .error e => .error e
    | .ok (x, n) => .ok (.selector x sel p, n)
  | .binary op x y p =>
    match m.expand n x with
    | .error e => .error e
    | .ok (x, n) =>
      match m.expand n y with
      | .error e => .error e
      | .ok (y, n) => .ok (.binary op x y p, n)
  | .unary op x p =>
    match m.expand n x with
    | .error e => .error e
    | .ok (x, n) => .ok (.unary op x p, n)
  | .paren x p q =>
    match m.expand n x with
    | .error e => .error e
    | .ok (x, n) => .ok (.paren x p q, n)
  | .call fn args p e q =>
    match m.expand n fn with
    | .error e => .error e
    | .ok (fn, n) =>
      match m.expandAll n args with
      | .error e => .error e
      | .ok (args, n) => m.visitCall fn args p e q n
  | .other form parts =>
    match m.expandAll n parts with
    | .error e => .error e
    | .ok (parts, n) => visitOther form parts n

/-- Replaces the marker calls of several nodes, from left to right. -/
def expandAll (m : Marker) (n : Nat) : List Node → Walk (List Node)
  | [] => .ok ([], n)
  | x :: xs =>
    match m.expand n x with
    | .error e => .error e
    | .ok (x, n) =>
      match m.expandAll n xs with
      | .error e => .error e
      | .ok (xs, n) => .ok (x :: xs, n)

end

mutual

/-- What is left of a node in which the walk stops: marker calls are replaced up to there. -/
def leave (m : Marker) : Node → Node
  | .missing => .missing
  | .ident name p res => .ident name p res
  | .literal k raw p w => .literal k raw p w
  | .selector x sel p => .selector (m.leave x) sel p
  | .binary op x y p =>
    match m.expand 0 x with
    | .error _ => .binary op (m.leave x) y p
    | .ok (x, _) => .binary op x (m.leave y) p
  | .unary op x p => .unary op (m.leave x) p
  | .paren x p q => .paren (m.leave x) p q
  | .call fn args p e q =>
    match m.expand 0 fn with
    | .error _ => .call (m.leave fn) args p e q
    | .ok (fn, _) => .call fn (m.leaveAll args) p e q
  | .other form parts => .other form (m.leaveAll parts)

/-- What is left of several nodes if the walk stops in one of them or behind them. -/
def leaveAll (m : Marker) : List Node → List Node
  | [] => []
  | x :: xs =>
    match m.expand 0 x with
    | .error _ => m.leave x :: xs
    | .ok (x, _) => x :: m.leaveAll xs

end

end Marker
end RelaxArith.Host
