import Mathlib.Order.Defs.Unbundled

/-!
# Lexicographic — comparison by the first that decides

A list of comparisons, asked one after another until one of them tells the two
elements apart. If each is transitive so is the whole, and it gives a strict
weak order in which the incomparable elements are those that no comparison
tells apart.
-/

namespace Lexicographic

open Std

variable {α : Type*}

/-- The answer of the first comparison that has one. -/
def lexicographic (cmps : List (α → α → Ordering)) : α → α → Ordering :=
  cmps.foldr compareLex fun _ _ => .eq

@[simp] theorem lexicographic_nil (a b : α) : lexicographic [] a b = .eq := rfl

@[simp] theorem lexicographic_cons (cmp : α → α → Ordering) (cmps : List (α → α → Ordering))
    (a b : α) : lexicographic (cmp :: cmps) a b = (cmp a b).then (lexicographic cmps a b) := rfl

theorem lexicographic_eq_iff {cmps : List (α → α → Ordering)} {a b : α} :
    lexicographic cmps a b = .eq ↔ ∀ cmp ∈ cmps, cmp a b = .eq := by
  induction cmps with
  | nil => simp
  | cons cmp cmps ih => rw [lexicographic_cons, Ordering.then_eq_eq, ih, List.forall_mem_cons]

/-- Comparisons that answer alike on one pair and on another. -/
theorem lexicographic_congr {β γ : Type*} {l : List γ} {f : γ → α → α → Ordering}
    {g : γ → β → β → Ordering} {a b : α} {c d : β} (h : ∀ x ∈ l, f x a b = g x c d) :
    lexicographic (l.map f) a b = lexicographic (l.map g) c d := by
  induction l with
  | nil => rfl
  | cons x l ih =>
    rw [List.map_cons, List.map_cons, lexicographic_cons, lexicographic_cons, h x (by simp),
      ih fun y hy => h y (by simp [hy])]

theorem transCmp_lexicographic (cmps : List (α → α → Ordering)) (h : ∀ cmp ∈ cmps, TransCmp cmp) :
    TransCmp (lexicographic cmps) := by
  induction cmps with
  | nil => exact { eq_swap := rfl, isLE_trans := fun _ _ => rfl }
  | cons cmp cmps ih =>
    have hfirst := h cmp (by simp)
    have hrest := ih fun c hc => h c (by simp [hc])
    exact inferInstanceAs (TransCmp (compareLex cmp (lexicographic cmps)))

section
variable {cmp : α → α → Ordering} [TransCmp cmp]

theorem incomparable_iff {a b : α} : (cmp a b ≠ .lt ∧ cmp b a ≠ .lt) ↔ cmp a b = .eq := by
  have hswap : cmp b a = (cmp a b).swap := OrientedCmp.eq_swap
  rw [hswap]
  cases cmp a b <;> simp

/-- **A transitive comparison** gives a strict weak order. -/
theorem isStrictWeakOrder : IsStrictWeakOrder α fun a b => cmp a b = .lt where
  irrefl a hlt := by
    have hself : cmp a a = .eq := ReflCmp.compare_self
    rw [hself] at hlt
    cases hlt
  trans _ _ _ := TransCmp.lt_trans
  incomp_trans a b c hab hbc := by
    have hab := incomparable_iff.mp hab
    have hbc := incomparable_iff.mp hbc
    exact incomparable_iff.mpr (TransCmp.eq_trans hab hbc)

end

end Lexicographic
