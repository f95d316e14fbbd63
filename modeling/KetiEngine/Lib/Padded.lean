import Mathlib.Data.List.Lex
import Mathlib.Order.PiLex

/-!
# Padded — lists compared as if blanks followed them

A list stands for the sequence that goes on with blanks without end. Two
lists are compared by the first place where their sequences differ. A
comparison that only looks at whether the longer list goes on with something
else than blanks agrees with that, unless it goes on below the blank.
-/

namespace Padded

variable {α : Type*} (blank : α)

/-- The list with blanks behind it. -/
def padded (l : List α) : Lex (ℕ → α) := toLex fun i => l.getD i blank

theorem toLex_lt_iff [LinearOrder α] (f g : ℕ → α) :
    toLex f < toLex g ↔
      f 0 < g 0 ∨ f 0 = g 0 ∧ toLex (fun i => f (i + 1)) < toLex fun i => g (i + 1) := by
  constructor
  · rintro ⟨k, hbefore, hk⟩
    cases k with
    | zero => exact .inl hk
    | succ k =>
      exact .inr ⟨hbefore 0 (Nat.succ_pos k), k, fun j hj => hbefore (j + 1) (by omega), hk⟩
  · rintro (h | ⟨h, k, hbefore, hk⟩)
    · exact ⟨0, fun j hj => absurd hj (Nat.not_lt_zero j), h⟩
    · refine ⟨k + 1, fun j hj => ?_, hk⟩
      cases j with
      | zero => exact h
      | succ j => exact hbefore j (Nat.lt_of_succ_lt_succ hj)

theorem padded_nil : padded blank [] = padded blank [blank] := by
  unfold padded
  congr 1
  funext i
  cases i <;> rfl

theorem padded_cons_eq_cons {a c : α} {l r : List α} :
    padded blank (a :: l) = padded blank (c :: r) ↔ a = c ∧ padded blank l = padded blank r := by
  unfold padded
  simp only [toLex_inj, funext_iff]
  constructor
  · intro h
    exact ⟨by simpa using h 0, fun i => by simpa using h (i + 1)⟩
  · rintro ⟨rfl, h⟩ i
    cases i with
    | zero => rfl
    | succ i => simpa using h i

section Comparison

variable [LinearOrder α]

theorem padded_cons_lt_cons {a c : α} {l r : List α} :
    padded blank (a :: l) < padded blank (c :: r) ↔
      a < c ∨ a = c ∧ padded blank l < padded blank r := by
  unfold padded
  rw [toLex_lt_iff]
  simp only [List.getD_cons_zero, List.getD_cons_succ]

/-! ## The comparison -/

/-- The list goes on with something else than blanks. -/
def goesOn (l : List α) : Bool := l.any (· ≠ blank)

/-- The first item of the list that is not a blank is below it. -/
def Dips (l : List α) : Prop := ∃ c ∈ (l.dropWhile (· = blank)).head?, c < blank

/-- The place by place comparison. Where one list ends, only whether the other
one goes on counts. -/
def scan : List α → List α → Ordering
  | [], r => if goesOn blank r then .lt else .eq
  | l, [] => if goesOn blank l then .gt else .eq
  | a :: l, c :: r => if a = c then scan l r else if a < c then .lt else .gt

/-- One of the lists is the other one and an item below the blank behind
it. -/
def Misordered (l r : List α) : Prop := ∃ s, (r = l ++ s ∨ l = r ++ s) ∧ Dips blank s

@[simp] theorem goesOn_cons (a : α) (l : List α) :
    goesOn blank (a :: l) = (decide (a ≠ blank) || goesOn blank l) := rfl

theorem dips_cons {a : α} {l : List α} :
    Dips blank (a :: l) ↔ if a = blank then Dips blank l else a < blank := by
  unfold Dips
  by_cases h : a = blank <;> simp [h]

theorem not_dips_nil : ¬ Dips blank [] := by simp [Dips]

theorem goesOn_of_dips {l : List α} (h : Dips blank l) : goesOn blank l = true := by
  induction l with
  | nil => exact absurd h (not_dips_nil blank)
  | cons a l ih =>
    rw [dips_cons] at h
    by_cases ha : a = blank
    · rw [if_pos ha] at h
      simp [ih h]
    · simp [ha]

/-- What follows blanks decides how a list compares with the empty one. -/
theorem padded_nil_compare (l : List α) :
    (goesOn blank l = false ↔ padded blank l = padded blank []) ∧
      (Dips blank l ↔ padded blank l < padded blank []) := by
  induction l with
  | nil => exact ⟨⟨fun _ => rfl, fun _ => rfl⟩, iff_of_false (not_dips_nil blank) (lt_irrefl _)⟩
  | cons a l ih =>
    rw [padded_nil, padded_cons_eq_cons, padded_cons_lt_cons, dips_cons, ← ih.1, ← ih.2]
    by_cases ha : a = blank <;> simp [ha]

theorem misordered_cons_cons {a c : α} {l r : List α} :
    Misordered blank (a :: l) (c :: r) ↔ a = c ∧ Misordered blank l r := by
  constructor
  · rintro ⟨s, h | h, hs⟩
    · obtain ⟨rfl, rfl⟩ := List.cons.inj h
      exact ⟨rfl, s, .inl rfl, hs⟩
    · obtain ⟨rfl, rfl⟩ := List.cons.inj h
      exact ⟨rfl, s, .inr rfl, hs⟩
  · rintro ⟨rfl, s, h | h, hs⟩
    · exact ⟨s, .inl (congrArg _ h), hs⟩
    · exact ⟨s, .inr (congrArg _ h), hs⟩

theorem misordered_nil_left {r : List α} : Misordered blank [] r ↔ Dips blank r := by
  constructor
  · rintro ⟨s, rfl | h, hs⟩
    · exact hs
    · rw [(List.append_eq_nil_iff.mp h.symm).2] at hs
      exact absurd hs (not_dips_nil blank)
  · exact fun h => ⟨r, .inl rfl, h⟩

theorem misordered_comm {l r : List α} : Misordered blank l r ↔ Misordered blank r l :=
  exists_congr fun _ => and_congr_left' or_comm

theorem scan_cons_cons (a c : α) (l r : List α) :
    scan blank (a :: l) (c :: r) =
      if a = c then scan blank l r else if a < c then .lt else .gt := rfl

theorem scan_nil_left (r : List α) :
    scan blank [] r = if goesOn blank r then .lt else .eq := rfl

theorem scan_nil_right (l : List α) :
    scan blank l [] = if goesOn blank l then .gt else .eq := by
  cases l <;> rfl

/-- Exchanging the lists exchanges the answers. -/
theorem scan_swap (l r : List α) : scan blank r l = (scan blank l r).swap := by
  induction l generalizing r with
  | nil =>
    rw [scan_nil_left, scan_nil_right]
    cases goesOn blank r <;> rfl
  | cons a l ih =>
    cases r with
    | nil =>
      rw [scan_nil_left, scan_nil_right]
      cases goesOn blank (a :: l) <;> rfl
    | cons c r =>
      rw [scan_cons_cons, scan_cons_cons, ih]
      rcases lt_trichotomy a c with h | rfl | h
      · rw [if_neg h.ne', if_neg h.not_gt, if_neg h.ne, if_pos h]
        rfl
      · rw [if_pos rfl, if_pos rfl]
      · rw [if_neg h.ne, if_pos h, if_neg h.ne', if_neg h.not_gt]
        rfl

/-- **Equality**: the comparison finds the lists equal that are equal up to
blanks behind them. -/
theorem scan_eq_iff (l r : List α) : scan blank l r = .eq ↔ padded blank l = padded blank r := by
  have hnil : ∀ r : List α, scan blank [] r = .eq ↔ padded blank [] = padded blank r := by
    intro r
    rw [scan_nil_left, eq_comm (a := padded blank []), ← (padded_nil_compare blank r).1]
    cases goesOn blank r <;> simp
  induction l generalizing r with
  | nil => exact hnil r
  | cons a l ih =>
    cases r with
    | nil =>
      rw [scan_swap, eq_comm (a := padded blank (a :: l)), ← hnil]
      cases scan blank [] (a :: l) <;> simp
    | cons c r =>
      rw [scan_cons_cons, padded_cons_eq_cons]
      by_cases h : a = c
      · simpa [h] using ih r
      · by_cases hlt : a < c <;> simp [h, hlt]

/-- **Order**: the comparison sorts the lists as the blanks behind them do,
and the other way round exactly where one goes on below the blank. -/
theorem scan_lt_iff (l r : List α) :
    scan blank l r = .lt ↔ ¬ Misordered blank l r ∧ padded blank l < padded blank r ∨
      Misordered blank l r ∧ padded blank r < padded blank l := by
  induction l generalizing r with
  | nil =>
    obtain ⟨heq, hlt⟩ := padded_nil_compare blank r
    rw [misordered_nil_left, hlt, scan_nil_left]
    rcases lt_trichotomy (padded blank r) (padded blank []) with h | h | h
    · have hgo : goesOn blank r = true := by simpa [h.ne] using heq
      exact iff_of_true (if_pos hgo) (.inr ⟨h, h⟩)
    · refine iff_of_false (by simp [heq.mpr h]) ?_
      rw [h]
      rintro (⟨-, hlt⟩ | ⟨hlt, -⟩) <;> exact lt_irrefl _ hlt
    · have hgo : goesOn blank r = true := by simpa [h.ne'] using heq
      exact iff_of_true (if_pos hgo) (.inl ⟨h.not_gt, h⟩)
  | cons a l ih =>
    cases r with
    | nil =>
      obtain ⟨-, hlt⟩ := padded_nil_compare blank (a :: l)
      rw [misordered_comm, misordered_nil_left, hlt, scan_nil_right]
      refine iff_of_false (by split <;> simp) ?_
      rintro (⟨hnot, h⟩ | ⟨h, h'⟩)
      · exact hnot h
      · exact lt_asymm h h'
    | cons c r =>
      rw [scan_cons_cons, misordered_cons_cons, padded_cons_lt_cons, padded_cons_lt_cons]
      rcases lt_trichotomy a c with h | rfl | h
      · simp [h, h.ne]
      · simp [ih]
      · simp [h.ne', h.not_gt]

theorem scan_append (l s : List α) : scan blank l (l ++ s) = scan blank [] s := by
  induction l with
  | nil => rfl
  | cons a l ih => rw [List.cons_append, scan_cons_cons, if_pos rfl, ih]

theorem Misordered.ne {l r : List α} (h : Misordered blank l r) :
    padded blank l ≠ padded blank r := by
  obtain ⟨s, hsplit, hs⟩ := h
  have hscan : scan blank [] s = .lt := if_pos (goesOn_of_dips blank hs)
  rcases hsplit with rfl | rfl
  · rw [Ne, ← scan_eq_iff, scan_append, hscan]
    decide
  · rw [ne_comm, Ne, ← scan_eq_iff, scan_append, hscan]
    decide

end Comparison

end Padded
