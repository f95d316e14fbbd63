import Mathlib.Data.List.Basic

/-!
# Segments of a concatenation

Lists written one after another, and the positions they start at: a reader
who knows the starts and the end of the whole gets every segment back.
-/

namespace Segments

variable {α : Type*}

/-- The positions the segments start at, the first one at `base`. -/
def starts (base : Nat) : List (List α) → List Nat
  | [] => []
  | s :: segs => base :: starts (base + s.length) segs

@[simp] theorem starts_length (base : Nat) (segs : List (List α)) :
    (starts base segs).length = segs.length := by
  induction segs generalizing base with
  | nil => rfl
  | cons s segs ih => simp [starts, ih]

/-- Every start is where the segments before it end; the end of the last
segment closes the list. -/
theorem starts_getElem? (base : Nat) (segs : List (List α)) {j : Nat}
    (h : j ≤ segs.length) :
    (starts base segs ++ [base + segs.flatten.length])[j]? =
      some (base + (segs.take j).flatten.length) := by
  induction segs generalizing base j with
  | nil =>
    have hj : j = 0 := by simpa using h
    simp [hj, starts]
  | cons s segs ih =>
    cases j with
    | zero => simp [starts]
    | succ j =>
      have hj : j ≤ segs.length := by simpa using h
      have := ih (base + s.length) hj
      simpa [starts, Nat.add_assoc] using this

theorem starts_getElem?_of_lt (base : Nat) (segs : List (List α)) {j : Nat}
    (h : j < segs.length) :
    (starts base segs)[j]? = some (base + (segs.take j).flatten.length) := by
  have := starts_getElem? base segs (Nat.le_of_lt h)
  rwa [List.getElem?_append_left (by simpa using h)] at this

theorem flatten_split (segs : List (List α)) {j : Nat} (h : j < segs.length) :
    segs.flatten =
      (segs.take j).flatten ++ (segs[j] ++ (segs.drop (j + 1)).flatten) := by
  have hcut : segs = segs.take j ++ segs[j] :: segs.drop (j + 1) := by
    rw [← List.drop_eq_getElem_cons h, List.take_append_drop]
  calc segs.flatten = (segs.take j ++ segs[j] :: segs.drop (j + 1)).flatten :=
        congrArg List.flatten hcut
    _ = _ := by rw [List.flatten_append, List.flatten_cons]

theorem flatten_take_succ_length (segs : List (List α)) {j : Nat}
    (h : j < segs.length) :
    (segs.take (j + 1)).flatten.length =
      (segs.take j).flatten.length + segs[j].length := by
  rw [List.take_add_one, List.getElem?_eq_getElem h, List.flatten_append,
    List.length_append]
  simp

end Segments
