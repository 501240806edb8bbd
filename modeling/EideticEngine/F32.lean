/-
# Single-precision scores as a parameter

Relevance, utility, similarities and gains are `f32` values.  Nothing proved here
depends on how they round, so the arithmetic is a class: any type with the
operations the program calls, of which only `total_cmp` has to obey a law (it is
a total order that identifies equal values, as the standard library documents).
Exact rational arithmetic is one instance, and the one that concrete runs use.
-/
import Mathlib

/-- The operations of `f32` that the program uses. -/
class F32 (F : Type) where
  /-- The value of a decimal literal. -/
  lit : ℚ → F
  /-- The start value of `Iterator::sum`. -/
  negZero : F
  /-- `n as f32`. -/
  castNat : ℕ → F
  add : F → F → F
  sub : F → F → F
  mul : F → F → F
  div : F → F → F
  max : F → F → F
  min : F → F → F
  /-- `<` of the IEEE comparison. -/
  lt : F → F → Bool
  /-- `<=` of the IEEE comparison. -/
  le : F → F → Bool
  isNan : F → Bool
  isFinite : F → Bool
  totalCmp : F → F → Ordering
  transCmp : Std.TransCmp totalCmp
  lawfulEqCmp : Std.LawfulEqCmp totalCmp

namespace F32

variable {F : Type} [F32 F]

instance : Std.TransCmp (totalCmp : F → F → Ordering) := transCmp

instance : Std.LawfulEqCmp (totalCmp : F → F → Ordering) := lawfulEqCmp

/-- `Iterator::sum` over `f32`. -/
def sum (l : List F) : F := l.foldl add negZero

/-- `f32::clamp`. -/
def clamp (x lo hi : F) : F :=
  if lt x lo then lo else if lt hi x then hi else x

/-- Exact rational arithmetic in place of `f32`. -/
instance : F32 ℚ where
  lit q := q
  negZero := 0
  castNat n := n
  add := (· + ·)
  sub := (· - ·)
  mul := (· * ·)
  div := (· / ·)
  max a b := if a ≤ b then b else a
  min a b := if a ≤ b then a else b
  lt a b := decide (a < b)
  le a b := decide (a ≤ b)
  isNan _ := false
  isFinite _ := true
  totalCmp := compare
  transCmp := inferInstance
  lawfulEqCmp := inferInstance

end F32
