import Mathlib.Data.Finset.Card

/-!
# Distinct — the number of different elements of a list

What a function, and copies of one more element, do to the number of
different elements.
-/

namespace Distinct

variable {α β : Type*} [DecidableEq α] [DecidableEq β]

/-- A function keeps the number when it is injective on the elements. -/
theorem length_dedup_map_iff {f : α → β} {l : List α} :
    (l.map f).dedup.length = l.dedup.length ↔ ∀ a ∈ l, ∀ b ∈ l, f a = f b → a = b := by
  have himage : (l.map f).toFinset = l.toFinset.image f := by
    ext b
    simp
  rw [← List.card_toFinset, ← List.card_toFinset, himage, Finset.card_image_iff]
  simp [Set.InjOn]

/-- Copies of an element keep the number when the element is there, or there
are none. -/
theorem length_dedup_append_replicate_iff {l : List α} {k : Nat} {a : α} :
    (l ++ List.replicate k a).dedup.length = l.dedup.length ↔ k = 0 ∨ a ∈ l := by
  cases k with
  | zero => simp
  | succ k =>
    have hset : (l ++ List.replicate (k + 1) a).toFinset = insert a l.toFinset := by
      ext b
      simp [or_comm]
    rw [← List.card_toFinset, ← List.card_toFinset, hset]
    by_cases ha : a ∈ l
    · simp [ha]
    · simp [ha]

end Distinct
