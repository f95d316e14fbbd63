import KetiEngine.Double
import Mathlib.Algebra.Order.Field.Basic
import Mathlib.Algebra.Order.Field.Power
import Mathlib.Tactic.Linarith
import Mathlib.Tactic.Positivity
import Mathlib.Tactic.NormNum
import Mathlib.Tactic.Ring

/-!
# Rounding — how far a `float` is from what is converted to it

A positive number that is neither huge nor tiny becomes a positive `float`
within a factor of two.
-/

namespace KetiEngine.Double

theorem roundEven_bounds (q : ℚ) : q - 1 ≤ roundEven q ∧ (roundEven q : ℚ) ≤ q + 1 := by
  have hlo : (q.floor : ℚ) ≤ q := Int.floor_le q
  have hhi : q < q.floor + 1 := Int.lt_floor_add_one q
  have hround : roundEven q = q.floor ∨ roundEven q = q.floor + 1 := by
    unfold roundEven
    simp only
    split_ifs <;> simp
  rcases hround with h | h
  · rw [h]
    constructor <;> linarith
  · rw [h]
    push_cast
    constructor <;> linarith

/-- Conversion of a positive number of moderate size. -/
theorem toFloat_fin {q : ℚ} (hlo : (2 : ℚ) ^ (-100 : Int) ≤ q) (hhi : q < 2 ^ (100 : Int)) :
    ∃ r : ℚ, toFloat (.fin q) = .fin r ∧ q / 2 ≤ r ∧ r ≤ 2 * q := by
  have hpos : 0 < q := lt_of_lt_of_le (by positivity) hlo
  have hlog : -100 ≤ Int.log 2 q :=
    (Int.zpow_le_iff_le_log Nat.one_lt_two hpos).mp (by exact_mod_cast hlo)
  have hexpo : max (Int.log 2 |q| - 23) (-149) = Int.log 2 q - 23 := by
    rw [abs_of_pos hpos, max_eq_left (by omega)]
  -- the significand has 24 bits
  set u : ℚ := 2 ^ (Int.log 2 q - 23) with hu
  have hupos : 0 < u := by positivity
  have hsignificand : 2 ≤ q / u := by
    have hle := Int.zpow_log_le_self (R := ℚ) Nat.one_lt_two hpos
    rw [le_div_iff₀ hupos, hu, zpow_sub₀ (by norm_num)]
    push_cast at hle
    have hpow : (0 : ℚ) < 2 ^ Int.log 2 q := by positivity
    rw [mul_div_assoc', div_le_iff₀ (by norm_num)]
    norm_num
    linarith
  obtain ⟨hdown, hup⟩ := roundEven_bounds (q / u)
  have hq : q = q / u * u := (div_mul_cancel₀ q hupos.ne').symm
  have hlow : q / 2 ≤ roundEven (q / u) * u := by
    have hhalf : q / u / 2 ≤ roundEven (q / u) := by linarith
    calc q / 2 = q / u / 2 * u := by field_simp
      _ ≤ roundEven (q / u) * u := mul_le_mul_of_nonneg_right hhalf hupos.le
  have hhigh : roundEven (q / u) * u ≤ 2 * q := by
    have htwice : (roundEven (q / u) : ℚ) ≤ 2 * (q / u) := by linarith
    calc (roundEven (q / u) : ℚ) * u ≤ 2 * (q / u) * u :=
          mul_le_mul_of_nonneg_right htwice hupos.le
      _ = 2 * q := by field_simp
  refine ⟨roundEven (q / u) * u, ?_, hlow, hhigh⟩
  have hsmall : ¬ (2 : ℚ) ^ 128 ≤ |(roundEven (q / u) : ℚ) * u| := by
    rw [abs_of_nonneg (by linarith), not_le]
    have hbound : (2 : ℚ) * 2 ^ (100 : Int) < 2 ^ 128 := by norm_num
    linarith
  unfold toFloat nearest
  simp only [hexpo, ← hu]
  rw [if_neg hsmall]

end KetiEngine.Double
