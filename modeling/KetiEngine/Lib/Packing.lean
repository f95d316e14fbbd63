import Mathlib.Algebra.Order.BigOperators.Group.List
import Mathlib.Algebra.Order.Ring.Nat
import Mathlib.Data.List.Chain

/-!
# Packing — items put into bins in their order

An item goes into the last bin if it has room there, and opens a new bin
otherwise. No item is split or moved, so the bins are the list cut into
pieces, and two bins next to each other do not fit into one.
-/

namespace Packing

variable {α : Type*} (cap : ℕ) (size : α → ℕ)

def load (bin : List α) : ℕ := (bin.map size).sum

/-- Into the last bin, or into a new one. -/
def place (bins : List (List α)) (a : α) : List (List α) :=
  match bins.getLast? with
  | none => [[a]]
  | some b => if load size b + size a ≤ cap then bins.dropLast ++ [b ++ [a]] else bins ++ [[a]]

def pack (l : List α) : List (List α) := l.foldl (place cap size) []

@[simp] theorem load_nil : load size ([] : List α) = 0 := rfl

@[simp] theorem load_cons (a : α) (l : List α) : load size (a :: l) = size a + load size l := rfl

@[simp] theorem load_append (l m : List α) : load size (l ++ m) = load size l + load size m := by
  simp [load]

theorem place_nil (a : α) : place cap size [] a = [[a]] := rfl

theorem place_concat (bins : List (List α)) (b : List α) (a : α) :
    place cap size (bins ++ [b]) a =
      if load size b + size a ≤ cap then bins ++ [b ++ [a]] else bins ++ [b] ++ [[a]] := by
  simp [place]

/-- Placing an item as a case analysis. -/
theorem place_cases {bins bins' : List (List α)} {a : α} (h : place cap size bins a = bins') :
    (∃ before b, bins = before ++ [b] ∧ load size b + size a ≤ cap ∧
      bins' = before ++ [b ++ [a]]) ∨
    ((∀ b ∈ bins.getLast?, cap < load size b + size a) ∧ bins' = bins ++ [[a]]) := by
  rcases List.eq_nil_or_concat bins with rfl | ⟨before, b, rfl⟩
  · exact .inr ⟨by simp, h.symm⟩
  · rw [List.concat_eq_append] at h ⊢
    rw [place_concat] at h
    split at h
    · exact .inl ⟨before, b, rfl, ‹_›, h.symm⟩
    · exact .inr ⟨by simpa using Nat.lt_of_not_le ‹_›, h.symm⟩

/-! ## The bins -/

/-- What packing keeps: the bins are full enough and hold what came. -/
structure Packed (l : List α) (bins : List (List α)) : Prop where
  flatten : bins.flatten = l
  ne_nil : ∀ b ∈ bins, b ≠ []
  adjacent : bins.IsChain fun b c => cap < load size b + load size c
  load_le : (∀ a ∈ l, size a ≤ cap) → ∀ b ∈ bins, load size b ≤ cap

variable {cap size}

theorem Packed.nil : Packed cap size [] [] := ⟨rfl, by simp, .nil, by simp⟩

theorem Packed.place {l : List α} {bins : List (List α)} (h : Packed cap size l bins) (a : α) :
    Packed cap size (l ++ [a]) (place cap size bins a) := by
  obtain ⟨hflat, hne, hadj, hload⟩ := h
  obtain ⟨before, b, rfl, hroom, hplace⟩ | ⟨hfull, hplace⟩ :=
    place_cases cap size (rfl : Packing.place cap size bins a = _)
  · rw [hplace]
    refine ⟨by simp [← hflat], fun c hc => ?_, ?_, fun hl c hc => ?_⟩
    · rcases List.mem_append.mp hc with hc | hc
      · exact hne c (List.mem_append_left _ hc)
      · rw [List.mem_singleton.mp hc]
        simp
    · rw [List.isChain_append] at hadj ⊢
      refine ⟨hadj.1, List.isChain_singleton _, fun c hc d hd => ?_⟩
      have hcb := hadj.2.2 c hc b (by simp)
      obtain rfl : b ++ [a] = d := by simpa using hd
      rw [load_append]
      omega
    · rcases List.mem_append.mp hc with hc | hc
      · exact hload (fun x hx => hl x (by simp [hx])) c (List.mem_append_left _ hc)
      · rw [List.mem_singleton.mp hc, load_append]
        simpa using hroom
  · rw [hplace]
    refine ⟨by simp [← hflat], fun c hc => ?_, ?_, fun hl c hc => ?_⟩
    · rcases List.mem_append.mp hc with hc | hc
      · exact hne c hc
      · rw [List.mem_singleton.mp hc]
        simp
    · rw [List.isChain_append]
      refine ⟨hadj, List.isChain_singleton _, fun c hc d hd => ?_⟩
      obtain rfl : [a] = d := by simpa using hd
      simpa using hfull c hc
    · rcases List.mem_append.mp hc with hc | hc
      · exact hload (fun x hx => hl x (by simp [hx])) c hc
      · rw [List.mem_singleton.mp hc]
        simpa using hl a (by simp)

theorem packed_foldl {l m : List α} {bins : List (List α)} (h : Packed cap size l bins) :
    Packed cap size (l ++ m) (m.foldl (Packing.place cap size) bins) := by
  induction m generalizing l bins with
  | nil => simpa using h
  | cons a m ih => simpa using ih (h.place a)

/-- **Packing** cuts the list into bins. -/
theorem packed_pack (l : List α) : Packed cap size l (pack cap size l) := by
  have h := packed_foldl (m := l) (Packed.nil : Packed cap size [] [])
  simpa [pack] using h

theorem length_mul_le_cons {b : List α} {bins : List (List α)}
    (h : (b :: bins).IsChain fun b c => cap < load size b + load size c) :
    bins.length * (cap + 1) ≤ load size b + 2 * load size bins.flatten := by
  induction bins generalizing b with
  | nil => simp
  | cons c bins ih =>
    rw [List.isChain_cons_cons] at h
    have := ih h.2
    rw [List.length_cons, List.flatten_cons, load_append, Nat.succ_mul]
    omega

/-- **The number of bins**: on average the bins are more than half full. -/
theorem Packed.length_mul_le {l : List α} {bins : List (List α)} (h : Packed cap size l bins) :
    (bins.length - 1) * (cap + 1) ≤ 2 * load size l := by
  cases bins with
  | nil => simp
  | cons b bins =>
    have := length_mul_le_cons h.adjacent
    rw [← h.flatten, List.flatten_cons, load_append]
    simp only [List.length_cons, Nat.add_sub_cancel]
    omega

/-- Writing the items of each bin is writing the items. -/
theorem flatten_map_flatMap {β : Type*} (f : α → List β) (bins : List (List α)) :
    (bins.map (·.flatMap f)).flatten = bins.flatten.flatMap f := by
  induction bins with
  | nil => rfl
  | cons b bins ih => simp [ih]

/-! ## Filling one bin at a time -/

variable (cap size)

/-- The items that fit into the room, and those behind them. -/
def fill (room : ℕ) : List α → List α × List α
  | [] => ([], [])
  | a :: l =>
    if size a ≤ room then ((a :: (fill (room - size a) l).1), (fill (room - size a) l).2)
    else ([], a :: l)

theorem fill_append (room : ℕ) (l : List α) : (fill size room l).1 ++ (fill size room l).2 = l := by
  induction l generalizing room with
  | nil => rfl
  | cons a l ih =>
    rw [fill]
    split
    · simp [ih]
    · rfl

theorem size_le_of_mem_fill {room : ℕ} {l : List α} {a : α} (h : a ∈ (fill size room l).1) :
    size a ≤ room := by
  induction l generalizing room with
  | nil => cases h
  | cons c l ih =>
    rw [fill] at h
    split at h
    · rcases List.mem_cons.mp h with rfl | h
      · assumption
      · exact (ih h).trans (Nat.sub_le ..)
    · cases h

theorem foldl_place_append (before : List (List α)) (b : List α) (l : List α) :
    l.foldl (place cap size) (before ++ [b]) = before ++ l.foldl (place cap size) [b] := by
  induction l generalizing before b with
  | nil => rfl
  | cons a l ih =>
    have hsingle := place_concat cap size [] b a
    rw [List.nil_append, List.nil_append] at hsingle
    rw [List.foldl_cons, List.foldl_cons, place_concat, hsingle]
    split
    · exact ih before _
    · rw [ih (before ++ [b]), List.append_assoc]
      exact congrArg _ (ih [b] [a]).symm

/-- The items that fit stay in the bin, and the others are packed behind it. -/
theorem foldl_place_fill {b : List α} (hb : load size b ≤ cap) (l : List α) :
    l.foldl (place cap size) [b] =
      (b ++ (fill size (cap - load size b) l).1) ::
        pack cap size (fill size (cap - load size b) l).2 := by
  induction l generalizing b with
  | nil => simp [fill, pack]
  | cons a l ih =>
    have hsingle := place_concat cap size [] b a
    rw [List.nil_append, List.nil_append] at hsingle
    rw [List.foldl_cons, hsingle, fill]
    by_cases h : load size b + size a ≤ cap
    · have hload : load size (b ++ [a]) = load size b + size a := by simp
      rw [if_pos h, if_pos (by omega), ih (by omega), hload, Nat.sub_add_eq]
      simp
    · rw [if_neg h, if_neg (by omega), List.append_nil]
      exact foldl_place_append cap size [b] [a] l

/-- **Filling**: the first bin is what fits into an empty one, when the first
item does. -/
theorem pack_cons {a : α} (ha : size a ≤ cap) (l : List α) :
    pack cap size (a :: l) =
      (fill size cap (a :: l)).1 :: pack cap size (fill size cap (a :: l)).2 := by
  have h := foldl_place_fill cap size (b := [a]) (by simpa using ha) l
  rw [fill, if_pos ha]
  simpa [pack, place_nil] using h

end Packing
