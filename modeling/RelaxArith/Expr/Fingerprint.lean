/-
Fingerprints of trees.

A node enters the hash as a record of its kind, its symbol, its labels and the fingerprints of
its children.  The hash function is a parameter; the fingerprint in use takes the MD5 digest of
the record's written form.
-/
import RelaxArith.Expr
import RelaxArith.Text.Digest

namespace RelaxArith

/-- What is hashed of a node, with the hashes of its children. -/
structure Shape (η : Type) where
  kind : Nat
  symbol : Bytes
  labels : List Bytes
  children : List η
deriving DecidableEq

namespace Expr

variable {π : Type} {η : Type}

mutual

/-- The fingerprint of a tree under a hash function on shapes. -/
def fingerprintWith (hash : Shape η → η) : Expr π → η
  | absent _ => hash ⟨0, [], [], []⟩
  | ident name _ => hash ⟨1, name, [], []⟩
  | literal .number raw _ => hash ⟨2, raw, [], []⟩
  | literal .text raw _ => hash ⟨2, raw, [utf8 "text"], []⟩
  | binary op l r _ => hash ⟨3, op, [], [l.fingerprintWith hash, r.fingerprintWith hash]⟩
  | prefixed op x _ => hash ⟨4, op, [], [x.fingerprintWith hash]⟩
  | group es _ => hash ⟨5, [], [], fingerprintAll hash es⟩
  | call f args _ =>
    hash ⟨6, [], args.map Prod.fst, f.fingerprintWith hash :: fingerprintArgs hash args⟩
  | assign t v _ => hash ⟨7, [], [], [t.fingerprintWith hash, v.fingerprintWith hash]⟩
  | foreign text _ _ => hash ⟨8, text, [], []⟩

/-- The fingerprints of several trees. -/
def fingerprintAll (hash : Shape η → η) : List (Expr π) → List η
  | [] => []
  | e :: es => e.fingerprintWith hash :: fingerprintAll hash es

/-- The fingerprints of the values of arguments. -/
def fingerprintArgs (hash : Shape η → η) : List (Bytes × Expr π) → List η
  | [] => []
  | (_, e) :: args => e.fingerprintWith hash :: fingerprintArgs hash args

end

end Expr

namespace Shape

/-- A list of texts between brackets, each between plain quotes. -/
def writeList (ts : List Bytes) : Bytes :=
  utf8 "[" ++ Bytes.join (utf8 ",") (ts.map fun t => utf8 "\"" ++ t ++ utf8 "\"") ++ utf8 "]"

/-- The written form of a record whose children are fingerprints. -/
def write (s : Shape Bytes) : Bytes :=
  utf8 "\x7bchildren:" ++ writeList s.children ++ utf8 ",kind:" ++ Bytes.decimal s.kind ++
    utf8 ",labels:" ++ writeList s.labels ++ utf8 ",sym:\"" ++ s.symbol ++ utf8 "\"\x7d"

/-- The hash of a record: a version tag and the digest of its written form. -/
def digest (s : Shape Bytes) : Bytes := utf8 "v1_" ++ Digest.md5 s.write

end Shape

/-- The fingerprint of a tree. -/
def Expr.fingerprint {π : Type} (e : Expr π) : Bytes := e.fingerprintWith Shape.digest

end RelaxArith
