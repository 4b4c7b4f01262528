/-
Expression trees.

A tree is what a host hands over for relaxing and gets back: names, constants, operators,
groupings, calls and assignments, each with the span it was written at.  A construct that the
model does not look into is a `foreign` node: its source text, and a payload of a type `π` that
belongs to the host.  Nothing in the library looks at payloads, so trees are polymorphic in `π`.

A part of a tree may be missing.  A missing part either says nothing at all (`absent none`) or
still says which kind of node should have stood there (`absent (some k)`, a *stub*).  Most
operations take both for "nothing here"; the few that would have to look inside cannot be
carried out on a stub, and fail with a `Fault`.
-/
import RelaxArith.Span

namespace RelaxArith

/-- The kinds of nodes. -/
inductive Kind where
  | identifier
  | literal
  | binary
  | prefixed
  | grouping
  | call
  | assignment
  | foreign
deriving DecidableEq, Repr, Inhabited

namespace Kind

/-- All kinds, in the order of their codes. -/
def all : List Kind :=
  [.identifier, .literal, .binary, .prefixed, .grouping, .call, .assignment, .foreign]

/-- The number of a kind; zero is the number of a missing node. -/
def code : Kind → Nat
  | .identifier => 1
  | .literal => 2
  | .binary => 3
  | .prefixed => 4
  | .grouping => 5
  | .call => 6
  | .assignment => 7
  | .foreign => 8

/-- The name of a kind in listings. -/
def name : Kind → Bytes
  | .identifier => utf8 "identifier"
  | .literal => utf8 "literal"
  | .binary => utf8 "binary"
  | .prefixed => utf8 "prefix"
  | .grouping => utf8 "grouping"
  | .call => utf8 "call"
  | .assignment => utf8 "assignment"
  | .foreign => utf8 "opaque"

/-- The name that belongs to a code, whatever the code. -/
def nameOfCode (n : Int) : Bytes :=
  if n = 0 then utf8 "<none>"
  else
    match all.find? fun k => (k.code : Int) = n with
    | some k => k.name
    | none => utf8 "<unknown>"

end Kind

/-- Numeric constants and texts. -/
inductive LiteralType where
  | number
  | text
deriving DecidableEq, Repr, Inhabited

/-- Expression trees with payloads of type `π`. -/
inductive Expr (π : Type) where
  /-- A missing part, plain or a stub. -/
  | absent (kind : Option Kind)
  /-- A name, possibly qualified. -/
  | ident (name : Bytes) (span : Span)
  /-- A constant, kept as it was written, with the quotes of a text. -/
  | literal (type : LiteralType) (raw : Bytes) (span : Span)
  /-- An operation between two operands. Any symbol may be an operator. -/
  | binary (op : Bytes) (left right : Expr π) (span : Span)
  /-- An operator in front of its operand. -/
  | prefixed (op : Bytes) (operand : Expr π) (span : Span)
  /-- Parentheses around one expression, or a tuple of several. -/
  | group (elements : List (Expr π)) (span : Span)
  /-- A call; each argument has a label, which may be empty. -/
  | call (callee : Expr π) (args : List (Bytes × Expr π)) (span : Span)
  /-- A plain assignment. -/
  | assign (target value : Expr π) (span : Span)
  /-- A construct that is only transported. -/
  | foreign (text : Bytes) (payload : Option π) (span : Span)
deriving Inhabited

/-- What goes wrong when an operation has to look inside a stub. -/
inductive Fault where
  | missingNode
deriving DecidableEq, Repr

/-- The report of a fault. -/
def Fault.message : Fault → Bytes
  | .missingNode => utf8 "runtime error: invalid memory address or nil pointer dereference"

namespace Expr

variable {π : Type}

/-- Is this a missing part, plain or a stub? -/
def isAbsent : Expr π → Bool
  | absent _ => true
  | _ => false

/-- Is this a missing part that still carries a kind? -/
def isStub : Expr π → Bool
  | absent (some _) => true
  | _ => false

/-- The kind of a node; a stub has the kind it should have had. -/
def kind? : Expr π → Option Kind
  | absent k => k
  | ident .. => some .identifier
  | literal .. => some .literal
  | binary .. => some .binary
  | prefixed .. => some .prefixed
  | group .. => some .grouping
  | call .. => some .call
  | assign .. => some .assignment
  | foreign .. => some .foreign

/-- The span of a node. A missing part has none. -/
def span : Expr π → Span
  | absent _ => .null
  | ident _ s => s
  | literal _ _ s => s
  | binary _ _ _ s => s
  | prefixed _ _ s => s
  | group _ s => s
  | call _ _ s => s
  | assign _ _ s => s
  | foreign _ _ s => s

/-- The direct children of a node in order; a call's callee comes first. -/
def children : Expr π → List (Expr π)
  | binary _ l r _ => [l, r]
  | prefixed _ x _ => [x]
  | group es _ => es
  | call f args _ => f :: args.map Prod.snd
  | assign t v _ => [t, v]
  | _ => []

/-- A call without labels. -/
def callOf (callee : Expr π) (args : List (Expr π)) : Expr π :=
  .call callee (args.map fun a => ([], a)) .null

mutual

/-- The number of nodes, missing parts included. -/
def size : Expr π → Nat
  | absent _ => 1
  | ident .. => 1
  | literal .. => 1
  | binary _ l r _ => l.size + r.size + 1
  | prefixed _ x _ => x.size + 1
  | group es _ => sizeAll es + 1
  | call f args _ => f.size + sizeArgs args + 1
  | assign t v _ => t.size + v.size + 1
  | foreign .. => 1

/-- The nodes of several trees. -/
def sizeAll : List (Expr π) → Nat
  | [] => 0
  | e :: es => e.size + sizeAll es

/-- The nodes of all arguments of a call. -/
def sizeArgs : List (Bytes × Expr π) → Nat
  | [] => 0
  | (_, e) :: args => e.size + sizeArgs args

end

mutual

/-- Does a tree contain a stub anywhere? -/
def containsStub : Expr π → Bool
  | absent k => k.isSome
  | ident .. => false
  | literal .. => false
  | binary _ l r _ => l.containsStub || r.containsStub
  | prefixed _ x _ => x.containsStub
  | group es _ => containsStubAll es
  | call f args _ => f.containsStub || containsStubArgs args
  | assign t v _ => t.containsStub || v.containsStub
  | foreign .. => false

/-- Does one of several trees contain a stub? -/
def containsStubAll : List (Expr π) → Bool
  | [] => false
  | e :: es => e.containsStub || containsStubAll es

/-- Does an argument of a call contain a stub? -/
def containsStubArgs : List (Bytes × Expr π) → Bool
  | [] => false
  | (_, e) :: args => e.containsStub || containsStubArgs args

end

theorem sizeArgs_eq (args : List (Bytes × Expr π)) :
    sizeArgs args = sizeAll (args.map Prod.snd) := by
  induction args with
  | nil => rfl
  | cons a args ih => obtain ⟨_, e⟩ := a; simp [sizeArgs, sizeAll, ih]

@[simp]
theorem sizeAll_append (es fs : List (Expr π)) : sizeAll (es ++ fs) = sizeAll es + sizeAll fs := by
  induction es with
  | nil => simp [sizeAll]
  | cons e es ih => simp [sizeAll, ih, Nat.add_assoc]

/-- A node is larger than all its children together. -/
theorem sizeAll_children_lt (e : Expr π) : sizeAll e.children < e.size := by
  cases e <;> simp [children, size, sizeAll, sizeArgs_eq]

theorem sizeAll_filter_le (p : Expr π → Bool) (es : List (Expr π)) :
    sizeAll (es.filter p) ≤ sizeAll es := by
  induction es with
  | nil => simp
  | cons e es ih =>
    by_cases h : p e <;> simp [h, sizeAll] <;> omega

end Expr

/-- Is a symbol a compound assignment, that is an operator of the form `op=`? Comparisons that
end in an equals sign do not count. -/
def isCompoundAssignment (op : Bytes) : Bool :=
  2 ≤ op.length && op.getLast? == some 0x3D &&
    !([utf8 "==", utf8 "!=", utf8 "<=", utf8 ">=", utf8 "===", utf8 "!=="].contains op)

end RelaxArith
