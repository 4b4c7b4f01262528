/-
Fingerprints identify trees up to equality.

A fingerprint is the hash of a record of four fields, and the fingerprints of the children stand in
the last of them.  Eight kinds of nodes share these fields: whether a constant is a text is noted in
place of a label, a call has its labels in one list and its values in another, and a missing part is
a record of nothing.  Still the record of a node tells everything that equality compares, since the
node can be put together again from it.

Equal trees have the same records all the way down, so they have the same fingerprint under any hash
function.  If the hash function keeps records apart, the record can be read off the fingerprint, and
by induction the fingerprints of the children tell the children apart.
-/
import Mathlib.Logic.Equiv.List
import RelaxArith.Expr.Fingerprint
import RelaxArith.Proofs.Erasure

namespace RelaxArith

variable {π η : Type}

namespace Expr

/-! ### The record of a node -/

/-- The number of the kind of a node; every missing part has number zero. -/
def code (e : Expr π) : Nat := if e.isAbsent then 0 else e.kind?.elim 0 Kind.code

/-- What a node says of itself in one text. -/
def symbol : Expr π → Bytes
  | ident n _ => n
  | literal _ raw _ => raw
  | binary op _ _ _ => op
  | prefixed op _ _ => op
  | foreign t _ _ => t
  | _ => []

/-- What a node says of itself in a list of texts. -/
def labels : Expr π → List Bytes
  | literal .text _ _ => [utf8 "text"]
  | call _ args _ => args.map Prod.fst
  | _ => []

theorem fingerprintAll_eq_map (hash : Shape η → η) (es : List (Expr π)) :
    fingerprintAll hash es = es.map (fingerprintWith hash) := by
  induction es with
  | nil => rfl
  | cons e es ih => rw [fingerprintAll, ih, List.map_cons]

theorem fingerprintArgs_eq_map (hash : Shape η → η) (args : List (Bytes × Expr π)) :
    fingerprintArgs hash args = (args.map Prod.snd).map (fingerprintWith hash) := by
  induction args with
  | nil => rfl
  | cons a args ih => rw [fingerprintArgs, ih, List.map_cons, List.map_cons]

/-- A fingerprint is the hash of a record of the node and the fingerprints of its children. -/
theorem fingerprintWith_eq (hash : Shape η → η) (e : Expr π) :
    e.fingerprintWith hash =
      hash ⟨e.code, e.symbol, e.labels, e.children.map (fingerprintWith hash)⟩ := by
  cases e with
  | absent | ident | binary | prefixed | assign | foreign => rfl
  | literal t raw s => cases t <;> rfl
  | group es s => rw [fingerprintWith, fingerprintAll_eq_map]; rfl
  | call f args s => rw [fingerprintWith, fingerprintArgs_eq_map]; rfl

/-! ### The record and equality -/

theorem code_erase (e : Expr π) : e.erase.code = e.code := by
  cases e with
  | absent | ident | literal | binary | prefixed | group | call | assign | foreign => rfl

theorem symbol_erase (e : Expr π) : e.erase.symbol = e.symbol := by
  cases e with
  | absent | ident | literal | binary | prefixed | group | call | assign | foreign => rfl

theorem labels_erase (e : Expr π) : e.erase.labels = e.labels := by
  cases e with
  | absent | ident | binary | prefixed | group | assign | foreign => rfl
  | literal t raw s => cases t <;> rfl
  | call f args s =>
    rw [erase, labels, labels, eraseArgs_eq_map, List.map_map]
    rfl

theorem children_erase (e : Expr π) : e.erase.children = e.children.map erase := by
  cases e with
  | absent | ident | literal | binary | prefixed | assign | foreign => rfl
  | group es s => rw [erase, children, children, eraseAll_eq_map]
  | call f args s =>
    rw [erase, children, children, eraseArgs_eq_map, List.map_map, List.map_cons, List.map_map]
    rfl

/-- The node that a record was made of, given what is left of its children. -/
def ofRecord (code : Nat) (symbol : Bytes) (labels : List Bytes) (children : List (Expr Empty)) :
    Expr Empty :=
  match code, labels, children with
  | 1, _, _ => ident symbol .null
  | 2, [], _ => literal .number symbol .null
  | 2, _ :: _, _ => literal .text symbol .null
  | 3, _, [l, r] => binary symbol l r .null
  | 4, _, [x] => prefixed symbol x .null
  | 5, _, es => group es .null
  | 6, labels, f :: values => call f (labels.zip values) .null
  | 7, _, [t, v] => assign t v .null
  | 8, _, _ => foreign symbol none .null
  | _, _, _ => absent none

/-- Nothing that equality compares is missing from a record. -/
theorem ofRecord_eq (e : Expr π) :
    ofRecord e.code e.symbol e.labels (e.children.map erase) = e.erase := by
  cases e with
  | absent | ident | binary | prefixed | assign | foreign => rfl
  | literal t raw s => cases t <;> rfl
  | group es s => rw [erase, eraseAll_eq_map]; rfl
  | call f args s =>
    have hzip : (args.map Prod.fst).zip ((args.map Prod.snd).map erase)
        = args.map fun a => (a.1, a.2.erase) := by
      rw [List.map_map, List.zip_map']
      rfl
    rw [erase, eraseArgs_eq_map, ← hzip]
    rfl

/-! ### Fingerprints and equality -/

/-- A fingerprint does not show what erasing forgets. -/
theorem fingerprintWith_erase (hash : Shape η → η) (e : Expr π) :
    e.erase.fingerprintWith hash = e.fingerprintWith hash := by
  induction e using induct_children with
  | h e ih =>
    have hchildren : (e.children.map erase).map (fingerprintWith hash)
        = e.children.map (fingerprintWith hash) := by
      rw [List.map_map]
      exact List.map_congr_left ih
    rw [fingerprintWith_eq, fingerprintWith_eq hash e, code_erase, symbol_erase, labels_erase,
      children_erase, hchildren]

theorem map_erase_eq {hash : Shape η → η} {es fs : List (Expr π)}
    (h : ∀ e ∈ es, ∀ f : Expr π, e.fingerprintWith hash = f.fingerprintWith hash →
      e.erase = f.erase)
    (heq : es.map (fingerprintWith hash) = fs.map (fingerprintWith hash)) :
    es.map erase = fs.map erase := by
  induction es generalizing fs with
  | nil =>
    rw [List.map_eq_nil_iff.mp heq.symm]
  | cons e es ih =>
    cases fs with
    | nil => cases heq
    | cons f fs =>
      obtain ⟨he, hes⟩ := List.forall_mem_cons.mp h
      obtain ⟨hhead, htail⟩ := List.cons.inj heq
      rw [List.map_cons, List.map_cons, he f hhead, ih hes htail]

/-- A hash function that keeps records apart keeps trees apart. -/
theorem erase_eq_of_fingerprintWith {hash : Shape η → η} (hhash : Function.Injective hash)
    {e f : Expr π} (h : e.fingerprintWith hash = f.fingerprintWith hash) : e.erase = f.erase := by
  induction e using induct_children generalizing f with
  | h e ih =>
    rw [fingerprintWith_eq, fingerprintWith_eq hash f] at h
    obtain ⟨hcode, hsymbol, hlabels, hchildren⟩ := Shape.mk.inj (hhash h)
    have herased := map_erase_eq (fun c hc d => ih c hc) hchildren
    rw [← ofRecord_eq e, ← ofRecord_eq f, hcode, hsymbol, hlabels, herased]

end Expr

open RelaxArith.Expr

/-- **Fingerprints identify trees up to equality.** Equal trees have the same fingerprint, whatever
function hashes the records of their nodes, and if that function is injective, only equal trees
have. -/
theorem fingerprint_identifies (e f : Expr π) :
    (e.equal f = true →
      ∀ hash : Shape η → η, e.fingerprintWith hash = f.fingerprintWith hash) ∧
    ∀ hash : Shape η → η, Function.Injective hash →
      e.fingerprintWith hash = f.fingerprintWith hash → e.equal f = true := by
  constructor
  · intro heq hash
    rw [← fingerprintWith_erase hash e, equal_iff_erase.mp heq, fingerprintWith_erase]
  · intro hash hhash h
    exact equal_iff_erase.mpr (erase_eq_of_fingerprintWith hhash h)

/-- A hash of records as texts that keeps all records apart: zeros, in a number that encodes the
record. -/
def Shape.inZeros (s : Shape Bytes) : Bytes :=
  List.replicate (Encodable.encode (s.kind, s.symbol.map UInt8.toNat,
    s.labels.map (List.map UInt8.toNat), s.children.map (List.map UInt8.toNat))) 0

theorem Shape.inZeros_injective : Function.Injective Shape.inZeros := by
  have hbytes : Function.Injective (List.map UInt8.toNat) :=
    List.map_injective_iff.mpr fun _ _ => UInt8.toNat_inj.mp
  intro s t h
  have hlength := congrArg List.length h
  rw [inZeros, inZeros, List.length_replicate, List.length_replicate] at hlength
  have hrecord := Encodable.encode_injective hlength
  simp only [Prod.mk.injEq] at hrecord
  obtain ⟨hkind, hsymbol, hlabels, hchildren⟩ := hrecord
  cases s with
  | mk kind symbol labels children =>
    cases t with
    | mk kind' symbol' labels' children' =>
      rw [Shape.mk.injEq]
      exact ⟨hkind, hbytes hsymbol, List.map_injective_iff.mpr hbytes hlabels,
        List.map_injective_iff.mpr hbytes hchildren⟩

/-- A call with a label and a missing argument, and a foreign construct, in one grouping. -/
def fingerprintExample (s : Span) (payload : Option Nat) (kind : Option Kind) : Expr Nat :=
  .group [.call (.ident (utf8 "f") s)
    [(utf8 "by", .literal .text (utf8 "\"c\"") s), ([], .absent kind)] s,
    .foreign (utf8 "v[1]") payload s] s

theorem fingerprint_identifies_fingerprintExample :
    (fingerprintExample ⟨1, 2⟩ (some 3) none).equal
      (fingerprintExample .null none (some .call)) = true ∧
    Function.Injective Shape.inZeros ∧
    (fingerprintExample ⟨1, 2⟩ (some 3) none).fingerprintWith Shape.inZeros =
      (fingerprintExample .null none (some .call)).fingerprintWith Shape.inZeros ∧
    (fingerprintExample ⟨1, 2⟩ (some 3) none).fingerprint =
      (fingerprintExample .null none (some .call)).fingerprint ∧
    (fingerprintExample ⟨1, 2⟩ (some 3) none).equal
      (fingerprintExample .null none (some .call)) = true := by
  have hequal : (fingerprintExample ⟨1, 2⟩ (some 3) none).equal
      (fingerprintExample .null none (some .call)) = true := by decide
  have hsame : (fingerprintExample ⟨1, 2⟩ (some 3) none).fingerprintWith Shape.inZeros =
      (fingerprintExample .null none (some .call)).fingerprintWith Shape.inZeros := rfl
  have hdigest := (fingerprint_identifies (fingerprintExample ⟨1, 2⟩ (some 3) none)
    (fingerprintExample .null none (some .call))).1 hequal Shape.digest
  have hback := (fingerprint_identifies (fingerprintExample ⟨1, 2⟩ (some 3) none)
    (fingerprintExample .null none (some .call))).2 Shape.inZeros Shape.inZeros_injective hsame
  exact ⟨hequal, Shape.inZeros_injective, hsame, hdigest, hback⟩

end RelaxArith
