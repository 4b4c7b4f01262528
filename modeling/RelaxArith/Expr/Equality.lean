/-
Structural equality, and trees without stubs.

Two trees are equal if they have the same shape, symbols, labels and leaves.  Spans and payloads
do not count, and a missing part equals every other missing part.  So a tree equals the one in
which every stub has been replaced by a plain missing part.
-/
import RelaxArith.Expr

namespace RelaxArith.Expr

variable {π : Type}

mutual

/-- Structural equality of trees. -/
def equal : Expr π → Expr π → Bool
  | absent _, absent _ => true
  | ident n _, ident m _ => n == m
  | literal t r _, literal u s _ => t == u && r == s
  | binary o l r _, binary p m s _ => o == p && l.equal m && r.equal s
  | prefixed o x _, prefixed p y _ => o == p && x.equal y
  | group es _, group fs _ => equalAll es fs
  | call f as _, call g bs _ => f.equal g && equalArgs as bs
  | assign t v _, assign u w _ => t.equal u && v.equal w
  | foreign t _ _, foreign u _ _ => t == u
  | _, _ => false

/-- Equality of lists of trees, one by one. -/
def equalAll : List (Expr π) → List (Expr π) → Bool
  | [], [] => true
  | e :: es, f :: fs => e.equal f && equalAll es fs
  | _, _ => false

/-- Equality of arguments: same labels and equal values, one by one. -/
def equalArgs : List (Bytes × Expr π) → List (Bytes × Expr π) → Bool
  | [], [] => true
  | (l, e) :: as, (m, f) :: bs => l == m && e.equal f && equalArgs as bs
  | _, _ => false

end

mutual

/-- A tree in which every missing part is a plain one. -/
def withoutStubs : Expr π → Expr π
  | absent _ => absent none
  | ident n s => ident n s
  | literal t r s => literal t r s
  | binary o l r s => binary o l.withoutStubs r.withoutStubs s
  | prefixed o x s => prefixed o x.withoutStubs s
  | group es s => group (withoutStubsAll es) s
  | call f args s => call f.withoutStubs (withoutStubsArgs args) s
  | assign t v s => assign t.withoutStubs v.withoutStubs s
  | foreign t p s => foreign t p s

/-- Several trees without stubs. -/
def withoutStubsAll : List (Expr π) → List (Expr π)
  | [] => []
  | e :: es => e.withoutStubs :: withoutStubsAll es

/-- Arguments without stubs in their values. -/
def withoutStubsArgs : List (Bytes × Expr π) → List (Bytes × Expr π)
  | [] => []
  | (l, e) :: args => (l, e.withoutStubs) :: withoutStubsArgs args

end

end RelaxArith.Expr
