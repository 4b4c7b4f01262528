/-
Expressions as the parser produces them.

Parsers are described by what they give for genuine lexemes: those that make expressions give trees
as Go's parser produces them, and all of them leave genuine lexemes, since lexemes are only ever
taken from the front.  There is one lemma for each parser, in the order of the grammar, under the
assumption that the parsers handed to it for what is inside (`Rules`) do as promised; that they do
is an induction on the depth at which the knot is tied.  With the scanner in front, what is parsed
survives the exchange with trees.
-/
import Mathlib
import RelaxArith.Host.Statements
import RelaxArith.Proofs.Host.Lexemes
import RelaxArith.Proofs.Host.RoundTrip

namespace RelaxArith.Host

open Std.Do

set_option mvcgen.warning false

/-- Are all lexemes that are left genuine? -/
def Input.Genuine (i : Input) : Prop := ∀ l ∈ i.rest, l.Genuine

@[simp, grind =] theorem Input.genuine_withLevel (i : Input) (level : Int) :
    (⟨i.rest, level⟩ : Input).Genuine ↔ i.Genuine := Iff.rfl

namespace Grammar

/-- From genuine lexemes a parser gives what it promises and leaves genuine ones, unless it
fails. -/
abbrev Gives {α : Type} (p : Parser α) (post : α → Prop) : Prop :=
  ⦃fun i => ⌜i.Genuine⌝⦄ p ⦃⇓? a => fun i => ⌜i.Genuine ∧ post a⌝⦄

/-- From genuine lexemes a parser leaves genuine ones, unless it fails. -/
abbrev Keeps {α : Type} (p : Parser α) : Prop := Gives p fun _ => True

end Grammar

open Grammar in
/-- The parsers for what is inside give what they promise. -/
structure Rules.Sound (r : Rules) : Prop where
  expression : ∀ n, Gives (r.expression n) Node.Written
  unary : Gives r.unary Node.Written
  type? : Gives r.type? fun t => ∀ x ∈ t, x.Written
  elements : ∀ t, Keeps (r.elements t)
  block : Keeps r.block
  statement : Keeps r.statement
  conditional : Keeps r.conditional

namespace Grammar

/-! ### Lexemes -/

@[spec] theorem failure_gives {α : Type} : Gives (failure : Parser α) fun _ => False := by
  intro i h
  trivial

@[spec] theorem peek_gives : Gives peek Lexeme.Genuine := by
  mvcgen [peek]
  rename_i i h
  refine ⟨h, ?_⟩
  cases hi : i.rest with
  | nil => exact ⟨nofun, nofun⟩
  | cons l ls => exact h l (by simp [hi])

@[spec] theorem next_keeps : Keeps next := by
  mvcgen [next]
  · grind
  · rename_i i hi l rest _ hrest _
    intro l' hl'
    exact hi l' (by rw [hrest]; exact List.mem_cons_of_mem l hl')

@[spec] theorem at?_keeps (text : String) : Keeps (at? text) := by
  mvcgen [at?]
  grind

@[spec] theorem atAny?_keeps (texts : List String) : Keeps (atAny? texts) := by
  rw [atAny?]
  induction texts with
  | nil => mvcgen [List.anyM]
  | cons text texts ih =>
    mvcgen [List.anyM, ih]
    grind

@[spec] theorem atName?_keeps : Keeps atName? := by
  mvcgen [atName?]
  grind

@[spec] theorem atEnd?_keeps : Keeps atEnd? := by
  mvcgen [atEnd?]
  grind

@[spec] theorem expect_keeps (text : String) : Keeps (expect text) := by
  mvcgen [expect] <;> grind

@[spec] theorem accept_keeps (text : String) : Keeps (accept text) := by
  mvcgen [accept]
  all_goals grind

@[spec] theorem semicolon_keeps (r : Rules) : Keeps (semicolon r) := by
  mvcgen [semicolon] <;> grind

/-- Where nothing is said about what is read inside, the bracket level does not matter. -/
theorem atLevel_keeps {α : Type} (change : Int → Int) {p : Parser α} (hp : Keeps p) :
    Keeps (atLevel change p) := by
  mvcgen [atLevel, hp]

theorem inBrackets_keeps {α : Type} {p : Parser α} (hp : Keeps p) : Keeps (inBrackets p) :=
  atLevel_keeps _ hp

theorem inClause_keeps {α : Type} {p : Parser α} (hp : Keeps p) : Keeps (inClause p) :=
  atLevel_keeps _ hp

/-! ### Repetition -/

theorem iterate_gives {α : Type} {P : α → Prop} {step : α → Parser (Option α)}
    (h : ∀ a, P a → Gives (step a) fun b => ∀ x ∈ b, P x) (n : Nat) {a : α} (ha : P a) :
    Gives (iterate n a step) P := by
  induction n generalizing a with
  | zero =>
    mvcgen [iterate]
    grind
  | succ n ih =>
    have hstep := h a ha
    mvcgen [iterate, hstep]
    · intro i hi hb
      exact ih (hb _ rfl) i hi
    · grind

theorem repeated_gives {α : Type} {P : α → Prop} {step : α → Parser (Option α)}
    (h : ∀ a, P a → Gives (step a) fun b => ∀ x ∈ b, P x) {a : α} (ha : P a) :
    Gives (repeated a step) P := by
  have hiterate := fun n => iterate_gives h n ha
  mvcgen [repeated, hiterate]

theorem repeated_keeps {α : Type} {step : α → Parser (Option α)}
    (h : ∀ a, Keeps (step a)) (a : α) : Keeps (repeated a step) := by
  refine repeated_gives (fun a _ => ?_) trivial
  have hstep := h a
  mvcgen [hstep]
  grind

@[spec] theorem many_keeps {α : Type} {more : Parser Bool} {p : Parser α}
    (hmore : Keeps more) (hp : Keeps p) : Keeps (many more p) := by
  mvcgen [many, repeated_keeps, hmore, hp]
  grind

@[spec] theorem commaList_keeps {α : Type} {p : Parser α} (hp : Keeps p) :
    Keeps (commaList p) := by
  mvcgen [commaList, hp]
  all_goals grind

@[spec] theorem untilClosing_keeps {α : Type} {closing : String} {p : Parser α} (hp : Keeps p) :
    Keeps (untilClosing closing p) := by
  mvcgen [untilClosing, repeated_keeps, hp] <;> grind

/-! ### Names and types

Names, selections and types in parentheses are trees that the exchange knows; all other types are
only transported. -/

@[spec] theorem name_gives : Gives name Node.Written := by
  -- the lexeme that is looked at is the one that is taken
  mvcgen [name, atName?, peek, next] <;> simp_all [Input.Genuine]
  · rename_i hl hkind _
    exact hl.name hkind
  · rename_i hl hkind _ _
    exact ⟨hl.2, hl.1.name hkind⟩

@[spec] theorem indexed_gives (x : Node) (p q : Nat) (args : List Node) :
    Gives (indexed x p args q) Node.Written := by
  mvcgen [indexed] <;> grind

@[spec] theorem selected_gives (x : Node) :
    Gives (selected x) fun y => x.Written → y.Written := by
  mvcgen [selected] <;> grind

section

variable {r : Rules} (hr : r.Sound)

include hr

@[spec] theorem expression_gives : Gives (expression r) Node.Written := hr.expression 1

@[spec] theorem type_gives : Gives (type r) Node.Written := by
  have htype := hr.type?
  mvcgen [type, htype]
  all_goals grind

@[spec] theorem expressions_keeps : Keeps (expressions r) := by
  mvcgen [expressions] <;> grind

@[spec] theorem typeInstance_gives (x : Node) : Gives (typeInstance r x) Node.Written := by
  mvcgen [typeInstance, inBrackets_keeps] <;> grind

@[spec] theorem qualified_gives (x : Node) :
    Gives (qualified r x) fun y => x.Written → y.Written := by
  mvcgen [qualified] <;> grind

@[spec] theorem arrayOrInstance_keeps (x : Node) :
    Keeps (arrayOrInstance r x) := by
  have htype := hr.type?
  mvcgen [arrayOrInstance, inBrackets_keeps, htype] <;> grind

@[spec] theorem dotsType_keeps : Keeps (dotsType r) := by
  mvcgen [dotsType] <;> grind

@[spec] theorem unionTerm_keeps : Keeps (unionTerm r) := by
  mvcgen [unionTerm] <;> grind

@[spec] theorem union_keeps (x : Node) : Keeps (union r x) := by
  refine repeated_keeps (fun x => ?_) x
  mvcgen <;> grind

@[spec] theorem parameterBehind_keeps (sets : Bool) (n : Node) :
    Keeps (parameterBehind r sets n) := by
  have htype := hr.type?
  mvcgen [parameterBehind, htype] <;> grind

@[spec] theorem parameter_keeps (sets : Bool) (known : Option Node) :
    Keeps (parameter r sets known) := by
  mvcgen [parameter] <;> grind

omit hr in
@[spec] theorem parameterFields_keeps (role : FieldRole) (entries : List Entry) :
    Keeps (parameterFields role entries) := by
  mvcgen [parameterFields] <;> grind

@[spec] theorem parameters_keeps (role : FieldRole) : Keeps (parameters r role) := by
  mvcgen [parameters] <;> grind

@[spec] theorem typeParameters_keeps (opening : Nat) : Keeps (typeParameters r opening none) := by
  mvcgen [typeParameters] <;> grind

@[spec] theorem typeParameters_keeps_of_first (opening : Nat) {first : Parser Entry}
    (hfirst : Keeps first) : Keeps (typeParameters r opening (some first)) := by
  mvcgen [typeParameters, hfirst] <;> grind

@[spec] theorem results_keeps : Keeps (results r) := by
  have htype := hr.type?
  mvcgen [results, htype] <;> grind

@[spec] theorem signature_gives (pos : Nat) (types : Node) :
    Gives (signature r pos types) Node.Written := by
  mvcgen [signature] <;> grind

@[spec] theorem structFieldType_keeps : Keeps (structFieldType r) := by
  mvcgen [structFieldType] <;> grind

@[spec] theorem structField_keeps : Keeps (structField r) := by
  mvcgen [structField] <;> grind

@[spec] theorem interfaceInstance_keeps (x : Node) : Keeps (interfaceInstance r x) := by
  mvcgen [interfaceInstance, inBrackets_keeps] <;> grind

@[spec] theorem interfaceField_keeps : Keeps (interfaceField r) := by
  mvcgen [interfaceField] <;> grind

omit hr in
@[spec] theorem fieldsInBraces_keeps (role : FieldRole) {p : Parser Node} (hp : Keeps p) :
    Keeps (fieldsInBraces role p) := by
  mvcgen [fieldsInBraces, hp] <;> grind

@[spec] theorem chanType_gives : Gives (chanType r) Node.Written := by
  mvcgen [chanType] <;> grind

@[spec] theorem type?_gives : Gives (type? r) fun t => ∀ x ∈ t, x.Written := by
  mvcgen [type?, inBrackets_keeps] <;> grind

/-! ### Expressions

Literals are read off single lexemes, all else is put together from expressions and what is only
transported. -/

@[spec] theorem operand_gives : Gives (operand r) Node.Written := by
  have hblock := hr.block
  mvcgen [operand, inBrackets, atLevel, hblock] <;> grind [Lexeme.Genuine]

@[spec] theorem indexOrSlice_gives (x : Node) : Gives (indexOrSlice r x) Node.Written := by
  mvcgen [indexOrSlice, inBrackets_keeps] <;> grind

@[spec] theorem arguments_gives {fn : Node} (hfn : fn.Written) :
    Gives (arguments r fn) Node.Written := by
  -- the arguments that were read so far are part of the state of the repetition
  have hrepeated := @repeated_gives (Bool × List Node × Nat) fun s => ∀ x ∈ s.2.1, x.Written
  mvcgen [arguments, inBrackets, atLevel, hrepeated] <;> grind

@[spec] theorem elements_gives (t : Node) : Gives (elements r t) Node.Written := by
  have helements := hr.elements
  mvcgen [elements, inBrackets_keeps, helements] <;> grind

@[spec] theorem suffix_gives {x : Node} (hx : x.Written) :
    Gives (suffix r x) fun y => ∀ z ∈ y, z.Written := by
  mvcgen [suffix, hx] <;> grind

@[spec] theorem primary_gives {x : Node} (hx : x.Written) : Gives (primary r x) Node.Written :=
  repeated_gives (fun _ hx => suffix_gives hr hx) hx

omit hr in
theorem written_receiving {arrow : Nat} {x y : Node} (h : receiving arrow x = some y) :
    y.Written := by
  rw [receiving.eq_def] at h
  split at h
  · cases h
    exact .other _ _
  · obtain ⟨_, _, rfl⟩ := Option.map_eq_some_iff.mp h
    exact .other _ _
  · cases h

@[spec] theorem unary_gives : Gives (unary r) Node.Written := by
  have hunary := hr.unary
  mvcgen [unary, hunary] <;> grind [written_receiving]

omit hr in
theorem mem_binaryOperators_of_precedence {op : Bytes} (h : precedence op ≠ 0) :
    op ∈ binaryOperators := by
  rw [precedence] at h
  by_contra hnot
  refine h ?_
  simp only [binaryOperators, List.map_cons, List.map_nil, List.mem_cons, List.not_mem_nil,
    or_false, not_or] at hnot
  simp [hnot]

@[spec] theorem binaryFrom_gives {x : Node} (hx : x.Written) (least : Nat) :
    Gives (binaryFrom r x least) Node.Written := by
  have hexpression := hr.expression
  refine repeated_gives (fun x hx => ?_) hx
  mvcgen [hexpression] <;> grind [mem_binaryOperators_of_precedence]

@[spec] theorem binary_gives (least : Nat) : Gives (binary r least) Node.Written := by
  mvcgen [binary] <;> grind

/-! ### Statements

They stand in functions that are written as expressions. These are only transported, so that nothing
is to be said about statements and declarations but that the lexemes behind them are genuine. -/

@[spec] theorem simple_keeps (place : Place) : Keeps (simple r place) := by
  have hstatement := hr.statement
  mvcgen [simple, hstatement] <;> grind

omit hr in
@[spec] theorem condition_keeps (s : Node) : Keeps (condition s) := by
  mvcgen [condition]
  grind

@[spec] theorem statements_keeps : Keeps (statements r) := by
  have hstatement := hr.statement
  mvcgen [statements, hstatement]

@[spec] theorem block_keeps : Keeps (block r) := by
  mvcgen [block] <;> grind

@[spec] theorem conditional_keeps : Keeps (conditional r) := by
  have hconditional := hr.conditional
  mvcgen [conditional, inClause_keeps, hconditional] <;> grind

@[spec] theorem loop_keeps : Keeps (loop r) := by
  mvcgen [loop, inClause_keeps] <;> grind

@[spec] theorem clause_keeps : Keeps (clause r) := by
  mvcgen [clause] <;> grind

omit hr in
@[spec] theorem isTypeGuard_keeps (s : Node) : Keeps (isTypeGuard s) := by
  mvcgen [isTypeGuard]
  grind

@[spec] theorem switch_keeps : Keeps (switch r) := by
  mvcgen [switch, inClause_keeps] <;> grind

@[spec] theorem communication_keeps : Keeps (communication r) := by
  mvcgen [communication] <;> grind

@[spec] theorem commClause_keeps : Keeps (commClause r) := by
  mvcgen [commClause] <;> grind

@[spec] theorem select_keeps : Keeps (select r) := by
  mvcgen [select] <;> grind

@[spec] theorem startedCall_keeps : Keeps (startedCall r) := by
  mvcgen [startedCall] <;> grind

/-! ### Declarations -/

@[spec] theorem valueSpec_keeps (constant : Bool) : Keeps (valueSpec r constant) := by
  have htype := hr.type?
  mvcgen [valueSpec, htype] <;> grind

@[spec] theorem arrayBehind_keeps (lbrack : Nat) (length : Option Node) :
    Keeps (arrayBehind r lbrack length) := by
  mvcgen [arrayBehind, inBrackets_keeps] <;> grind

@[spec] theorem typeBehind_keeps (n types : Node) : Keeps (typeBehind r n types) := by
  mvcgen [typeBehind] <;> grind

@[spec] theorem typeInBrackets_keeps (n : Node) : Keeps (typeInBrackets r n) := by
  mvcgen [typeInBrackets, inBrackets_keeps] <;> grind

@[spec] theorem typeSpec_keeps : Keeps (typeSpec r) := by
  mvcgen [typeSpec] <;> grind

omit hr in
@[spec] theorem group_keeps (keyword : String) {spec : Bool → Parser Node}
    (hspec : ∀ listed, Keeps (spec listed)) : Keeps (group r keyword spec) := by
  mvcgen [group, hspec] <;> grind

@[spec] theorem declaration_keeps : Keeps (declaration r) := by
  mvcgen [declaration] <;> grind

@[spec] theorem statement_keeps : Keeps (statement r) := by
  mvcgen [statement] <;> grind

@[spec] theorem statementOrNone_keeps : Keeps (statementOrNone r) := by
  mvcgen [statementOrNone] <;> grind

end

/-! ### The knot -/

/-- At depth zero all parsers fail, and above that they are those of the grammar, around the parsers
one level below. -/
theorem sound_rules (doc? trailing? : Nat → Option Nat) (n : Nat) :
    (rules doc? trailing? n).Sound := by
  induction n with
  | zero =>
    constructor <;> intros <;> mvcgen [rules] <;> grind
  | succ n ih =>
    constructor
    · exact binary_gives ih
    · exact unary_gives ih
    · exact type?_gives ih
    · intro t
      mvcgen [rules, ih] <;> grind
    · exact block_keeps ih
    · exact statementOrNone_keeps ih
    · exact conditional_keeps ih

/-- What a parser promises holds of what it gives in a run. -/
theorem Gives.of_run {α : Type} {p : Parser α} {post : α → Prop} (h : Gives p post)
    {i left : Input} {a : α} (hi : i.Genuine) (hrun : p.run i = some (a, left)) : post a := by
  have hpost : (wp⟦p.run i⟧ (PostCond.mayThrow fun r : α × Input =>
      ⌜r.2.Genuine ∧ post r.1⌝)).down := h i hi
  rw [hrun] at hpost
  exact hpost.2

theorem written_of_run {m : Material} {p : Rules → Parser Node} {x : Node}
    (hm : ∀ l ∈ m.lexemes, l.Genuine) (hp : ∀ r : Rules, r.Sound → Gives (p r) Node.Written)
    (h : run m p = some x) : x.Written := by
  rw [run] at h
  obtain ⟨⟨n, left⟩, hrun, h⟩ := Option.bind_eq_some_iff.mp h
  have hn : n.Written := (hp _ (sound_rules _ _ _)).of_run (i := ⟨m.lexemes, 0⟩) hm hrun
  dsimp only at h
  split at h
  · cases h
    exact hn
  · split at h
    · cases h
      exact hn
    · cases h

end Grammar

open Grammar in
/-- What is parsed as an expression is one as Go's parser produces it. -/
theorem written_of_parseExpression {text : Bytes} {x : Node} (h : parseExpression text = some x) :
    x.Written := by
  obtain ⟨m, hm, h⟩ := Option.bind_eq_some_iff.mp h
  refine written_of_run (fun l hl => Material.genuine_of_ofSource hm hl) (fun r hr => ?_) h
  mvcgen <;> grind

/-- **Go expressions survive the exchange with trees.** What is parsed as an expression has names
without dots, literals spelled as Go's lexical grammar has them and Go's binary operators. Each such
expression whose operators in front of operands trees know becomes a tree that becomes an expression
again, and the two are the same but for positions and for what names refer to. -/
theorem expressions_survive_exchange :
    (∀ (text : Bytes) (x : Node), parseExpression text = some x → x.Written) ∧
    ∀ x : Node, x.Written → x.prefixOperators ⊆ unaryOperators →
      ∃ y, Node.ofExpr x.toExpr = .ok y ∧ y.unplaced = x.unplaced :=
  ⟨fun _ _ => written_of_parseExpression, fun _ hx hops => hx.ofExpr_toExpr hops⟩

/-- A chain of names, a hexadecimal and an imaginary number, and a call with dots. -/
def exchangeExample : Bytes := utf8 "-a.b.c(0x.8p-2, <-d...) + (1e3i)"

theorem expressions_survive_exchange_example :
    ∃ x y, parseExpression exchangeExample = some x ∧ x.Written ∧
      x.prefixOperators = [utf8 "-", utf8 "<-"] ∧ Node.ofExpr x.toExpr = .ok y ∧
      y.unplaced = x.unplaced := by
  have hparsed : ((parseExpression exchangeExample).map Node.prefixOperators)
      = some [utf8 "-", utf8 "<-"] := by
    decide +kernel
  obtain ⟨x, hx, hops⟩ := Option.map_eq_some_iff.mp hparsed
  have hwritten := expressions_survive_exchange.1 exchangeExample x hx
  obtain ⟨y, hy, hyx⟩ := expressions_survive_exchange.2 x hwritten (by rw [hops]; decide)
  exact ⟨x, y, hx, hwritten, hops, hy, hyx⟩

end RelaxArith.Host
