import Mathlib.Data.List.Basic

/-!
# Separated — lists joined by a separator

`joined sep xs` writes every list of `xs` behind a separator. The joined list
determines the pieces between separators and nothing more: which separators
were written and which belong to an element is lost.
-/

namespace Separated

variable {α : Type*}

def joined (sep : α) (xs : List (List α)) : List α := xs.flatMap (sep :: ·)

@[simp] theorem joined_nil (sep : α) : joined sep [] = [] := rfl

@[simp] theorem joined_cons (sep : α) (x : List α) (xs : List (List α)) :
    joined sep (x :: xs) = sep :: x ++ joined sep xs := rfl

variable [BEq α] [LawfulBEq α]

/-- Splitting a joined list splits the lists it was joined from. -/
theorem splitOn_append_joined (sep : α) (pre : List α) (xs : List (List α)) :
    (pre ++ joined sep xs).splitOn sep = pre.splitOn sep ++ xs.flatMap (·.splitOn sep) := by
  induction xs generalizing pre with
  | nil => simp
  | cons x xs ih =>
    rw [joined_cons, List.cons_append, List.splitOn_append_cons_self, ih, List.flatMap_cons]

omit [LawfulBEq α] in
theorem length_splitOn (sep : α) (l : List α) : (l.splitOn sep).length = l.count sep + 1 := by
  induction l with
  | nil => rfl
  | cons a l ih =>
    rw [List.splitOn_cons_eq_if_modifyHead, List.count_cons]
    by_cases h : (a == sep) = true
    · rw [if_pos h, if_pos h, List.length_cons, ih]
    · rw [if_neg h, if_neg h, List.length_modifyHead, ih, Nat.add_zero]

theorem splitOn_injective (sep : α) {l l' : List α} (h : l.splitOn sep = l'.splitOn sep) :
    l = l' := by
  have hback := congrArg (List.intercalate [sep]) h
  rwa [List.intercalate_splitOn, List.intercalate_splitOn] at hback

/-- **What a joined list determines**: the pieces of its elements. -/
theorem joined_eq_iff {sep : α} {xs ys : List (List α)} :
    joined sep xs = joined sep ys ↔
      xs.flatMap (·.splitOn sep) = ys.flatMap (·.splitOn sep) := by
  have hsplit : ∀ zs, (joined sep zs).splitOn sep = [[]] ++ zs.flatMap (·.splitOn sep) := by
    intro zs
    simpa using splitOn_append_joined sep [] zs
  constructor
  · intro h
    have heq := congrArg (List.splitOn sep) h
    rw [hsplit, hsplit] at heq
    exact List.append_cancel_left heq
  · intro h
    have heq : (joined sep xs).splitOn sep = (joined sep ys).splitOn sep := by
      rw [hsplit, hsplit, h]
    exact splitOn_injective sep heq

/-- Lists without the separator are their own pieces. -/
theorem flatMap_splitOn {β : Type*} {sep : α} {f : β → List α} {l : List β}
    (h : ∀ b ∈ l, sep ∉ f b) : (l.flatMap fun b => (f b).splitOn sep) = l.map f := by
  induction l with
  | nil => rfl
  | cons b l ih =>
    rw [List.flatMap_cons, List.splitOn_eq_singleton (h b (by simp)),
      ih fun b' hb' => h b' (by simp [hb'])]
    rfl

section
variable {β : Type*} {sep : α} {f g : β → List α} {l : List β}

/-- Lists with equally many separators are told apart. -/
theorem flatMap_splitOn_eq_iff (h : ∀ b ∈ l, (f b).count sep = (g b).count sep) :
    (l.flatMap fun b => (f b).splitOn sep) = (l.flatMap fun b => (g b).splitOn sep) ↔
      ∀ b ∈ l, f b = g b := by
  constructor
  · intro hcut
    induction l with
    | nil => nofun
    | cons b l ih =>
      rw [List.flatMap_cons, List.flatMap_cons] at hcut
      have hlength : ((f b).splitOn sep).length = ((g b).splitOn sep).length := by
        rw [length_splitOn, length_splitOn, h b (by simp)]
      obtain ⟨hfirst, hrest⟩ := List.append_inj hcut hlength
      intro b' hb'
      rcases List.mem_cons.mp hb' with rfl | hb'
      · exact splitOn_injective sep hfirst
      · exact ih (fun b hb => h b (by simp [hb])) hrest b' hb'
  · exact fun hall => List.flatMap_congr fun b hb => by rw [hall b hb]

/-- **The pieces tell the lists** if and only if equal pieces come with
equally many separators in each list. -/
theorem flatMap_splitOn_tells_iff :
    (((l.flatMap fun b => (f b).splitOn sep) = l.flatMap fun b => (g b).splitOn sep) ↔
      ∀ b ∈ l, f b = g b) ↔
    ((l.flatMap fun b => (f b).splitOn sep) = (l.flatMap fun b => (g b).splitOn sep) →
      ∀ b ∈ l, (f b).count sep = (g b).count sep) := by
  constructor
  · exact fun htells hcut b hb => by rw [htells.mp hcut b hb]
  · intro hcount
    constructor
    · exact fun hcut => (flatMap_splitOn_eq_iff (hcount hcut)).mp hcut
    · exact fun hall => List.flatMap_congr fun b hb => by rw [hall b hb]

end

end Separated
