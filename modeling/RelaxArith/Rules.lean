/-
Rules for operators, and tables of rules.

A rule says what becomes of an operation once its operands have been relaxed: it is kept, it
is replaced by a combination of the operands, or, for a compound assignment, it becomes a plain
assignment of such a combination.  A table maps operator symbols to rules; operators that it does
not mention are kept.
-/
import RelaxArith.Expr.Traversal
import RelaxArith.Text.Quoted

namespace RelaxArith

/-- Ways to build a replacement from two relaxed operands. -/
inductive Combine where
  /-- A call of the relaxed sum. -/
  | sum
  /-- A call of the relaxed sum with the right operand negated. -/
  | difference
  /-- A call of the relaxed product. -/
  | product
  /-- The left operand alone. -/
  | left
  /-- The right operand alone. -/
  | right
  /-- Nothing at all. -/
  | nothing
  /-- A call of some function. -/
  | callOf (name : Bytes)
  /-- An operation with some operator. -/
  | operation (op : Bytes)
deriving DecidableEq, Repr

/-- What becomes of an operation. -/
inductive Rule where
  | keep
  | binary (c : Combine)
  | compound (c : Combine)
deriving DecidableEq, Repr

/-- What goes wrong when a table is changed. -/
inductive TableFault where
  /-- A symbol is given no rule. -/
  | missingRule (op : Bytes)
  /-- There is no table to change. -/
  | missingTable
deriving DecidableEq, Repr

/-- The report of a fault. -/
def TableFault.message : TableFault → Bytes
  | .missingRule op => utf8 "rule for operator " ++ Quoted.quote op ++ utf8 " is nil"
  | .missingTable => utf8 "assignment to entry in nil map"

/-- Rules by operator symbol, in the order of the symbols. -/
structure Table where
  entries : List (Bytes × Rule)
deriving DecidableEq, Repr, Inhabited

namespace Table

/-- The table without rules. -/
def empty : Table := ⟨[]⟩

/-- Puts an entry where its symbol belongs, in place of an older one for the same symbol. -/
def insert (op : Bytes) (rule : Rule) : List (Bytes × Rule) → List (Bytes × Rule)
  | [] => [(op, rule)]
  | (o, r) :: rest =>
    if op = o then (op, rule) :: rest
    else if Bytes.le op o then (op, rule) :: (o, r) :: rest
    else (o, r) :: insert op rule rest

/-- The rule for a symbol. -/
def get? (t : Table) (op : Bytes) : Option Rule := t.entries.lookup op

/-- A table with the rule for a symbol added or replaced. -/
def add (t : Table) (op : Bytes) (rule : Rule) : Table := ⟨insert op rule t.entries⟩

/-- A table without a rule for a symbol. -/
def delete (t : Table) (op : Bytes) : Table := ⟨t.entries.filter fun e => e.1 != op⟩

/-- The symbols that have a rule, sorted. -/
def operators (t : Table) : List Bytes := t.entries.map Prod.fst

/-- Adds a rule, which has to be there. -/
def add? (t : Table) (op : Bytes) : Option Rule → Except TableFault Table
  | some rule => .ok (t.add op rule)
  | none => .error (.missingRule op)

/-- Adds rules in order, up to the first that is missing. -/
def addAll (t : Table) : List (Bytes × Option Rule) → Except TableFault Table
  | [] => .ok t
  | (op, rule) :: rest =>
    match t.add? op rule with
    | .error f => .error f
    | .ok t => t.addAll rest

/-- The rules for addition, subtraction and multiplication, plain and as compound assignments. -/
def standard : Table :=
  [(utf8 "+", Rule.binary .sum), (utf8 "-", .binary .difference), (utf8 "*", .binary .product),
   (utf8 "+=", .compound .sum), (utf8 "-=", .compound .difference),
   (utf8 "*=", .compound .product)].foldl (fun t e => t.add e.1 e.2) empty

end Table
end RelaxArith
