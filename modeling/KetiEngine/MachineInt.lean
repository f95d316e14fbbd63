import Mathlib.Algebra.Ring.Int.Defs
import Mathlib.Algebra.Ring.Nat

/-!
# MachineInt — `int` and `int64_t`

Sums and products are taken over the integers and brought back into the
range of the type, as two's complement does. A sum can be brought back once
at its end or after every addition.
-/

namespace KetiEngine

/-- The value an `int` holds for an integer. -/
def toInt32 (n : Int) : Int := n.bmod (2 ^ 32)

/-- The value an `int64_t` holds for an integer. -/
def toInt64 (n : Int) : Int := n.bmod (2 ^ 64)

/-- The integer is an `int`. -/
def FitsInt32 (n : Int) : Prop := -2 ^ 31 ≤ n ∧ n < 2 ^ 31

/-- The integer is an `int64_t`. -/
def FitsInt64 (n : Int) : Prop := -2 ^ 63 ≤ n ∧ n < 2 ^ 63

instance (n : Int) : Decidable (FitsInt32 n) := inferInstanceAs (Decidable (_ ∧ _))

instance (n : Int) : Decidable (FitsInt64 n) := inferInstanceAs (Decidable (_ ∧ _))

theorem toInt32_eq_self_iff (n : Int) : toInt32 n = n ↔ -2 ^ 31 ≤ n ∧ n < 2 ^ 31 := by
  rw [toInt32, Int.bmod_eq_iff (by decide)]
  omega

theorem toInt64_eq_self_iff (n : Int) : toInt64 n = n ↔ FitsInt64 n := by
  rw [toInt64, Int.bmod_eq_iff (by decide), FitsInt64]
  omega

theorem FitsInt32.toInt32_eq {n : Int} (h : FitsInt32 n) : toInt32 n = n :=
  (toInt32_eq_self_iff n).mpr h

theorem FitsInt64.toInt64_eq {n : Int} (h : FitsInt64 n) : toInt64 n = n :=
  (toInt64_eq_self_iff n).mpr h

theorem fitsInt64_toInt64 (n : Int) : FitsInt64 (toInt64 n) :=
  (toInt64_eq_self_iff _).mp Int.bmod_bmod

@[simp] theorem toInt32_zero : toInt32 0 = 0 := by decide

@[simp] theorem toInt64_zero : toInt64 0 = 0 := by decide

@[simp] theorem toInt32_toInt32_add (m n : Int) : toInt32 (toInt32 m + n) = toInt32 (m + n) :=
  Int.bmod_add_bmod

@[simp] theorem toInt64_toInt64_add (m n : Int) : toInt64 (toInt64 m + n) = toInt64 (m + n) :=
  Int.bmod_add_bmod

@[simp] theorem toInt64_toInt64 (n : Int) : toInt64 (toInt64 n) = toInt64 n :=
  Int.bmod_bmod

/-- A sum of sums can be brought back once at its end. -/
theorem toInt64_sum_map (l : List Int) : toInt64 (l.map toInt64).sum = toInt64 l.sum := by
  induction l with
  | nil => rfl
  | cons n l ih =>
    rw [List.map_cons, List.sum_cons, List.sum_cons, toInt64_toInt64_add, Int.add_comm n,
      ← toInt64_toInt64_add _ n, ih, toInt64_toInt64_add, Int.add_comm]

end KetiEngine
