/-
Flags of a command line.

Flags come first, behind one hyphen or two; the first argument that is no flag ends them, and so
do two hyphens alone.  A switch may be given a value behind an equals sign; any other flag takes
its value from there or from the next argument.
-/
import RelaxArith.Text

namespace RelaxArith.Shell

/-- What a flag takes. -/
inductive FlagKind where
  | switch
  | text
deriving DecidableEq, Repr

/-- What a flag is set to. -/
inductive Setting where
  | switch (on : Bool)
  | text (value : Bytes)
deriving DecidableEq, Repr

/-- Why flags are not accepted. -/
inductive FlagError where
  /-- Help was asked for. -/
  | help
  | usage
deriving DecidableEq, Repr

/-- The exit status of a program whose flags are not accepted. -/
def FlagError.status : FlagError → Nat
  | .help => 0
  | .usage => 2

/-- Settings in the order they were given, and the remaining arguments. -/
structure CommandLine where
  settings : List (Bytes × Setting)
  rest : List Bytes
deriving DecidableEq, Repr

namespace CommandLine

/-- The truth value that a text spells. -/
def truth? (s : Bytes) : Option Bool :=
  if ["1", "t", "T", "TRUE", "true", "True"].any fun w => s == utf8 w then some true
  else if ["0", "f", "F", "FALSE", "false", "False"].any fun w => s == utf8 w then some false
  else none

/-- The name of a flag, and its value if it stands behind an equals sign, which cannot come
first. -/
def splitFlag (s : Bytes) : Bytes × Option Bytes :=
  match s with
  | [] => ([], none)
  | c :: cs =>
    let name := cs.takeWhile (· != 0x3D)
    (c :: name, (cs.drop name.length).tail?)

/-- The text of an argument behind its hyphens, if it is a flag. -/
def flagText? (arg : Bytes) : Option Bytes :=
  match arg with
  | 0x2D :: 0x2D :: rest => some rest
  | 0x2D :: c :: rest => some (c :: rest)
  | _ => none

/-- Is this a flag without a proper name? -/
def isNameless (text : Bytes) : Bool :=
  match text with
  | [] => true
  | c :: _ => c == 0x2D || c == 0x3D

/-- Adds a setting in front. -/
def set (name : Bytes) (s : Setting) (c : CommandLine) : CommandLine :=
  { c with settings := (name, s) :: c.settings }

/-- The kind of a flag. -/
def kindOf (known : List (Bytes × FlagKind)) (name : Bytes) : Except FlagError FlagKind :=
  match known.lookup name with
  | some k => .ok k
  | none => .error (if name == utf8 "h" || name == utf8 "help" then .help else .usage)

/-- Reads a command line, given the known flags. -/
def parse (known : List (Bytes × FlagKind)) : List Bytes → Except FlagError CommandLine
  | [] => .ok ⟨[], []⟩
  | arg :: args =>
    if arg == utf8 "--" then .ok ⟨[], args⟩
    else
      match flagText? arg with
      | none => .ok ⟨[], arg :: args⟩
      | some text =>
        if isNameless text then .error .usage
        else
          let (name, value) := splitFlag text
          match kindOf known name, value with
          | .error e, _ => .error e
          | .ok .switch, none => (parse known args).map (set name (.switch true))
          | .ok .switch, some v =>
            match truth? v with
            | some b => (parse known args).map (set name (.switch b))
            | none => .error .usage
          | .ok .text, some v => (parse known args).map (set name (.text v))
          | .ok .text, none =>
            match args with
            | [] => .error .usage
            | v :: args => (parse known args).map (set name (.text v))

/-- What a flag is set to; the last setting counts. -/
def setting? (c : CommandLine) (name : String) : Option Setting :=
  c.settings.reverse.lookup (utf8 name)

/-- The text that a flag is set to, or another one. -/
def text (c : CommandLine) (name : String) (usual : Bytes) : Bytes :=
  match c.setting? name with
  | some (.text v) => v
  | _ => usual

/-- Whether a switch is on. -/
def switch (c : CommandLine) (name : String) (usual : Bool) : Bool :=
  match c.setting? name with
  | some (.switch b) => b
  | _ => usual

end CommandLine
end RelaxArith.Shell
