import Mathlib.Algebra.Order.Monoid.Defs
import Mathlib.Algebra.BigOperators.Group.List.Basic
import Mathlib.Data.List.Basic

/-!
# RunningMax — the sum of the maxima so far

Adding up, along a list, the largest element seen so far. The sum is least in
ascending order, where it is the sum of the list, and it is large when a large
element comes first.
-/

namespace RunningMax

variable {M : Type*} [AddCommMonoid M] [LinearOrder M]

/-- The sum of the maxima, where `m` is the maximum before the list. -/
def total (m : M) : List M → M
  | [] => 0
  | a :: l => max m a + total (max m a) l

/-- In ascending order every element is the maximum so far. -/
theorem total_eq_sum {m : M} {l : List M} (hm : ∀ a ∈ l, m ≤ a) (hl : l.Pairwise (· ≤ ·)) :
    total m l = l.sum := by
  induction l generalizing m with
  | nil => rfl
  | cons a l ih =>
    obtain ⟨hhead, hrest⟩ := List.pairwise_cons.mp hl
    rw [total, List.sum_cons, max_eq_right (hm a (by simp)), ih hhead hrest]

variable [IsOrderedAddMonoid M]

theorem sum_le_total (m : M) (l : List M) : l.sum ≤ total m l := by
  induction l generalizing m with
  | nil => exact le_refl _
  | cons a l ih =>
    rw [List.sum_cons, total]
    exact add_le_add (le_max_right m a) (ih _)

theorem nsmul_le_total {m b : M} (hm : b ≤ m) (l : List M) : l.length • b ≤ total m l := by
  induction l generalizing m with
  | nil => simp [total]
  | cons a l ih =>
    have hmax : b ≤ max m a := hm.trans (le_max_left m a)
    rw [List.length_cons, succ_nsmul', total]
    exact add_le_add hmax (ih hmax)

theorem total_le_nsmul {m b : M} {l : List M} (hm : m ≤ b) (hl : ∀ a ∈ l, a ≤ b) :
    total m l ≤ l.length • b := by
  induction l generalizing m with
  | nil => simp [total]
  | cons a l ih =>
    have hmax : max m a ≤ b := max_le hm (hl a (by simp))
    rw [List.length_cons, succ_nsmul', total]
    exact add_le_add hmax (ih hmax fun c hc => hl c (by simp [hc]))

end RunningMax
