/-
Expanding invocations, alone and in batches.

An invocation is expanded to its first argument, relaxed; further arguments are ignored.  Only
an invocation without a first argument cannot be expanded.  A batch yields all results in the
order of its items, or none: the first item that fails decides the error.
-/
import RelaxArith.Expr.Reader
import RelaxArith.Relax

namespace RelaxArith

/-- The failure of an expansion: a kind, and which invocation it was. -/
structure ExpansionError where
  kind : Int
  name : Bytes
  span : Span
deriving DecidableEq, Repr

namespace ExpansionError

/-- The kind of the one failure there is: no operand was given. -/
def missingOperand : Int := 1

/-- The wording of a failure. -/
def message (_ : ExpansionError) : Bytes := utf8 "relaxed expression requires an operand"

/-- Failures match if they are of one kind. -/
def matchesKind (e target : ExpansionError) : Bool := target.kind == e.kind

end ExpansionError

/-- Why a batch yields nothing. -/
inductive BatchError where
  | canceled
  | expansion (index : Nat) (e : ExpansionError)
deriving DecidableEq, Repr

/-- The report of a failed batch. -/
def BatchError.message : BatchError → Bytes
  | .canceled => utf8 "context canceled"
  | .expansion i e =>
    utf8 "invocation #" ++ Bytes.decimal i ++ utf8 " (" ++ e.name ++ utf8 "): " ++ e.message

namespace Relaxer

variable {π : Type}

/-- The expansion of an invocation. -/
def expand (rx : Relaxer) (inv : Invocation π) : Except ExpansionError (Expr π) :=
  match inv.args with
  | [] => .error ⟨ExpansionError.missingOperand, inv.name, inv.span⟩
  | e :: _ =>
    if e.isAbsent then .error ⟨ExpansionError.missingOperand, inv.name, inv.span⟩
    else .ok (rx.relax e)

/-- A batch of trees, relaxed one by one, unless the caller has cancelled. -/
def relaxBatch (rx : Relaxer) (cancelled : Bool) (trees : List (Expr π)) :
    Except BatchError (List (Expr π)) :=
  if cancelled then .error .canceled else .ok (trees.map rx.relax)

/-- The expansions of invocations counted from an index on. -/
def expandFrom (rx : Relaxer) (i : Nat) : List (Invocation π) → Except BatchError (List (Expr π))
  | [] => .ok []
  | inv :: rest =>
    match rx.expand inv with
    | .error e => .error (.expansion i e)
    | .ok e => (rx.expandFrom (i + 1) rest).map (e :: ·)

/-- A batch of invocations, expanded one by one, unless the caller has cancelled. -/
def expandBatch (rx : Relaxer) (cancelled : Bool) (invs : List (Invocation π)) :
    Except BatchError (List (Expr π)) :=
  if cancelled then .error .canceled else rx.expandFrom 0 invs

end Relaxer
end RelaxArith
