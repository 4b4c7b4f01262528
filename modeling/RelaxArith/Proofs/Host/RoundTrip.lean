/-
Go expressions come back from trees as they were.

The exchange with trees forgets a few things about a Go expression.  A chain of selections of names
becomes one name with dots, and is taken apart at the dots again; that gives back the chain because
no name of Go has a dot.  The kind of a literal is guessed from its spelling, and rightly so.  What
trees do not know is carried along as a whole: calls with dots behind their arguments, selections
from anything but names, and all constructs without a constructor of their own.  What is lost for
good is where things stand in a source, and what names refer to.
-/
import RelaxArith.Proofs.Host.Exchange
import RelaxArith.Proofs.Host.Literals

namespace RelaxArith.Host

namespace Node

mutual

/-- A tree without its positions, and without what names refer to. Of the position of the dots in a
call it stays known whether there are dots. Constructs that are only transported come back as they
are, so nothing is taken away from them. -/
def unplaced : Node → Node
  | missing => missing
  | ident name _ _ => ident name 0 false
  | literal kind raw _ _ => literal kind raw 0 0
  | selector x sel _ => selector x.unplaced sel 0
  | binary op x y _ => binary op x.unplaced y.unplaced 0
  | unary op x _ => unary op x.unplaced 0
  | paren x _ _ => paren x.unplaced 0 0
  | call fn args _ e _ => call fn.unplaced (unplacedAll args) 0 (min e 1) 0
  | other form parts => other form parts

/-- Several trees without their positions. -/
def unplacedAll : List Node → List Node
  | [] => []
  | x :: xs => x.unplaced :: unplacedAll xs

end

mutual

/-- The operators in front of operands, at any depth. -/
def prefixOperators : Node → List Bytes
  | missing | ident _ _ _ | literal _ _ _ _ => []
  | selector x _ _ => x.prefixOperators
  | binary _ x y _ => x.prefixOperators ++ y.prefixOperators
  | unary op x _ => op :: x.prefixOperators
  | paren x _ _ => x.prefixOperators
  | call fn args _ _ _ => fn.prefixOperators ++ prefixOperatorsAll args
  | other _ parts => prefixOperatorsAll parts

/-- The operators in front of operands in several trees. -/
def prefixOperatorsAll : List Node → List Bytes
  | [] => []
  | x :: xs => x.prefixOperators ++ prefixOperatorsAll xs

end

theorem prefixOperatorsAll_subset {xs : List Node} {ops : List Bytes} :
    prefixOperatorsAll xs ⊆ ops ↔ ∀ x ∈ xs, x.prefixOperators ⊆ ops := by
  induction xs with
  | nil => simp [prefixOperatorsAll]
  | cons x xs ih => rw [prefixOperatorsAll, List.append_subset, ih, List.forall_mem_cons]

/-- An expression as Go's parser produces it: names have no dots, literals are spelled as Go's
lexical grammar has them, and binary operators are those of Go. Constructs that are only transported
may be anything. -/
inductive Written : Node → Prop
  | ident {name : Bytes} {p : Nat} {res : Bool} (hname : 0x2E ∉ name) : Written (.ident name p res)
  | literal {k : LiteralKind} {raw : Bytes} {p w : Nat} (hraw : Spelling k raw) :
      Written (.literal k raw p w)
  | selector {x : Node} {sel : Bytes} {p : Nat} (hx : Written x) (hsel : 0x2E ∉ sel) :
      Written (.selector x sel p)
  | binary {op : Bytes} {x y : Node} {p : Nat} (hop : op ∈ binaryOperators) (hx : Written x)
      (hy : Written y) : Written (.binary op x y p)
  | unary {op : Bytes} {x : Node} {p : Nat} (hx : Written x) : Written (.unary op x p)
  | paren {x : Node} {p q : Nat} (hx : Written x) : Written (.paren x p q)
  | call {fn : Node} {args : List Node} {p e q : Nat} (hfn : Written fn)
      (hargs : ∀ x ∈ args, Written x) : Written (.call fn args p e q)
  | other (form : Form) (parts : List Node) : Written (.other form parts)

@[simp, grind =] theorem written_ident {name : Bytes} {p : Nat} {res : Bool} :
    (ident name p res).Written ↔ 0x2E ∉ name :=
  ⟨fun h => by cases h; assumption, .ident⟩

@[simp, grind =] theorem written_literal {k : LiteralKind} {raw : Bytes} {p w : Nat} :
    (literal k raw p w).Written ↔ Spelling k raw :=
  ⟨fun h => by cases h; assumption, .literal⟩

@[simp, grind =] theorem written_selector {x : Node} {sel : Bytes} {p : Nat} :
    (selector x sel p).Written ↔ x.Written ∧ 0x2E ∉ sel :=
  ⟨fun h => by cases h; constructor <;> assumption, fun h => .selector h.1 h.2⟩

@[simp, grind =] theorem written_binary {op : Bytes} {x y : Node} {p : Nat} :
    (binary op x y p).Written ↔ op ∈ binaryOperators ∧ x.Written ∧ y.Written :=
  ⟨fun h => by cases h; refine ⟨?_, ?_, ?_⟩ <;> assumption, fun h => .binary h.1 h.2.1 h.2.2⟩

@[simp, grind =] theorem written_unary {op : Bytes} {x : Node} {p : Nat} :
    (unary op x p).Written ↔ x.Written :=
  ⟨fun h => by cases h; assumption, .unary⟩

@[simp, grind =] theorem written_paren {x : Node} {p q : Nat} : (paren x p q).Written ↔ x.Written :=
  ⟨fun h => by cases h; assumption, .paren⟩

@[simp, grind =] theorem written_call {fn : Node} {args : List Node} {p e q : Nat} :
    (call fn args p e q).Written ↔ fn.Written ∧ ∀ x ∈ args, x.Written :=
  ⟨fun h => by cases h; constructor <;> assumption, fun h => .call h.1 h.2⟩

@[simp, grind =] theorem written_other {form : Form} {parts : List Node} :
    (other form parts).Written ↔ True :=
  ⟨fun _ => trivial, fun _ => .other form parts⟩

/-! ### Names -/

end Node

theorem splitOnByte_of_not_mem {sep : UInt8} {s : Bytes} (h : sep ∉ s) :
    Bytes.splitOnByte sep s = [s] := by
  induction s with
  | nil => rfl
  | cons c cs ih =>
    rw [List.mem_cons, not_or] at h
    rw [Bytes.splitOnByte, if_neg (Ne.symm h.1), ih h.2]

/-- What stands behind the last separator is the last piece. -/
theorem splitOnByte_append {sep : UInt8} (s : Bytes) {t : Bytes} (h : sep ∉ t) :
    Bytes.splitOnByte sep (s ++ sep :: t) = Bytes.splitOnByte sep s ++ [t] := by
  induction s with
  | nil => simp [Bytes.splitOnByte, splitOnByte_of_not_mem h]
  | cons c cs ih =>
    rw [List.cons_append, Bytes.splitOnByte, Bytes.splitOnByte, ih]
    by_cases hc : c = sep
    · rw [if_pos hc, if_pos hc, List.cons_append]
    · rw [if_neg hc, if_neg hc]
      obtain ⟨first, rest, hsplit, _⟩ := splitOnByte_eq_cons sep cs
      rw [hsplit]
      rfl

namespace Node

theorem ofName_of_not_mem {name : Bytes} (h : 0x2E ∉ name) : ofName name = .ident name 0 false := by
  rw [ofName, splitOnByte_of_not_mem h]
  rfl

/-- A qualified name is a selection from what stands before its last dot. -/
theorem ofName_append (q : Bytes) {sel : Bytes} (h : 0x2E ∉ sel) :
    ofName (q ++ utf8 "." ++ sel) = .selector (ofName q) sel 0 := by
  have hsplit : Bytes.splitOnByte 0x2E (q ++ utf8 "." ++ sel)
      = Bytes.splitOnByte 0x2E q ++ [sel] := by
    rw [List.append_assoc]
    exact splitOnByte_append q h
  obtain ⟨first, rest, hq, _⟩ := splitOnByte_eq_cons 0x2E q
  rw [ofName, hsplit, ofName, hq]
  exact List.foldl_append

/-- The expression for the name that a chain of selections spells is that chain. -/
theorem Written.unplaced_ofName {x : Node} (hx : x.Written) {q : Bytes}
    (hq : x.qualifiedName? = some q) : (ofName q).unplaced = x.unplaced := by
  induction hx generalizing q with
  | ident hname =>
    cases hq
    rw [ofName_of_not_mem hname]
    rfl
  | @selector x sel p _ hsel ih =>
    rw [qualifiedName?] at hq
    obtain ⟨q', hq', rfl⟩ := Option.map_eq_some_iff.mp hq
    rw [ofName_append q' hsel, unplaced, unplaced, ih hq']
  | literal | binary | unary | paren | call | other => cases hq

/-! ### Expressions -/

/-- What is only transported comes back as it is. -/
theorem Transported.ofExpr_toExpr {x : Node} (h : x.Transported) : ofExpr x.toExpr = .ok x := by
  rw [h, ofExpr]

theorem ofArgs_toArgs {xs : List Node}
    (h : ∀ x ∈ xs, ∃ y, ofExpr x.toExpr = .ok y ∧ y.unplaced = x.unplaced) :
    ∃ ys, ofArgs (toArgs xs) = .ok ys ∧ unplacedAll ys = unplacedAll xs := by
  induction xs with
  | nil => exact ⟨[], rfl, rfl⟩
  | cons x xs ih =>
    rw [List.forall_mem_cons] at h
    obtain ⟨y, hy, hyx⟩ := h.1
    obtain ⟨ys, hys, hysxs⟩ := ih h.2
    refine ⟨y :: ys, ?_, ?_⟩
    · rw [toArgs, ofArgs_cons, if_pos rfl, hy, hys]
      rfl
    · rw [unplacedAll, unplacedAll, hyx, hysxs]

theorem Written.ofExpr_toExpr_of_name {x : Node} (hx : x.Written) {q : Bytes}
    (hq : x.qualifiedName? = some q) :
    ∃ y, ofExpr x.toExpr = .ok y ∧ y.unplaced = x.unplaced := by
  rw [toExpr_of_qualifiedName? hq]
  exact ⟨ofName q, rfl, hx.unplaced_ofName hq⟩

/-- An expression as Go's parser produces it, with operators in front of operands that trees know,
becomes a tree that becomes an expression again, and the two are the same but for positions and for
what names refer to. -/
theorem Written.ofExpr_toExpr {x : Node} (hx : x.Written)
    (hops : x.prefixOperators ⊆ unaryOperators) :
    ∃ y, ofExpr x.toExpr = .ok y ∧ y.unplaced = x.unplaced := by
  induction hx with
  | ident hname => exact (Written.ident hname).ofExpr_toExpr_of_name rfl
  | @literal k raw p w hraw =>
    refine ⟨.literal k raw 0 raw.length, ?_, rfl⟩
    rw [toExpr, ofExpr, literalKind_of_spelling hraw]
  | @selector x sel p hx hsel _ =>
    cases hq : (Node.selector x sel p).qualifiedName? with
    | some q => exact (Written.selector hx hsel).ofExpr_toExpr_of_name hq
    | none => exact ⟨_, (transported_selector hq).ofExpr_toExpr, rfl⟩
  | @binary op x y p hop _ _ ihx ihy =>
    rw [prefixOperators, List.append_subset] at hops
    obtain ⟨x', hx', hxx'⟩ := ihx hops.1
    obtain ⟨y', hy', hyy'⟩ := ihy hops.2
    refine ⟨.binary op x' y' 0, ?_, ?_⟩
    · rw [toExpr, ofExpr_binary, if_pos hop, hx', hy']
      rfl
    · rw [unplaced, unplaced, hxx', hyy']
  | @unary op x p _ ih =>
    rw [prefixOperators, List.cons_subset] at hops
    obtain ⟨y, hy, hyx⟩ := ih hops.2
    refine ⟨.unary op y 0, ?_, ?_⟩
    · rw [toExpr, ofExpr_prefixed, if_pos hops.1, hy]
      rfl
    · rw [unplaced, unplaced, hyx]
  | @paren x p q _ ih =>
    rw [prefixOperators] at hops
    obtain ⟨y, hy, hyx⟩ := ih hops
    refine ⟨.paren y 0 0, ?_, ?_⟩
    · rw [toExpr, ofExpr_paren, hy]
      rfl
    · rw [unplaced, unplaced, hyx]
  | @call fn args p e q _ _ ihfn ihargs =>
    rw [prefixOperators, List.append_subset, prefixOperatorsAll_subset] at hops
    by_cases he : e = 0
    · obtain ⟨fn', hfn', heqfn⟩ := ihfn hops.1
      obtain ⟨ys, hys, heqargs⟩ := ofArgs_toArgs fun x hx => ihargs x hx (hops.2 x hx)
      refine ⟨.call fn' ys 0 0 0, ?_, ?_⟩
      · rw [toExpr, if_pos he, ofExpr_call, hfn', hys]
        rfl
      · rw [unplaced, unplaced, heqfn, heqargs, he]
    · -- a call with dots is only transported
      exact ⟨_, (transported_call he).ofExpr_toExpr, rfl⟩
  | other form parts => exact ⟨_, (transported_other form parts).ofExpr_toExpr, rfl⟩

end Node

end RelaxArith.Host
