import Mathlib.Data.List.Induction
import Mathlib.Data.List.Perm.Basic
import Mathlib.Data.List.ReduceOption
import Mathlib.Data.List.TakeWhile

/-!
# Reorder — lists in another order

A list read through a permutation of its positions, a list read in order with
copies of one element in between, and the loop that starts from the first
element and keeps the smaller of two. The order is an
arbitrary Boolean relation that is a strict total order on the values that
occur. The loop's result is the least element, so it does not depend on the
order of the list.
-/

namespace Reorder

variable {α : Type*}

theorem map_getElem?_range {l : List α} {n : Nat} (hlength : l.length = n) :
    (List.range n).map (l[·]?) = l.map some := by
  apply List.ext_getElem
  · simp [hlength]
  · intro i hi hi'
    have hi : i < l.length := by simpa [hlength] using hi
    simp [hi]

/-- A list that reads another through an order of its positions has the same
elements. -/
theorem perm_of_getElem? {l l' : List α} {order : List Nat} {n : Nat} (hlength : l.length = n)
    (horder : order.Perm (List.range n)) (h : ∀ k : Nat, l'[k]? = order[k]?.bind (l[·]?)) :
    l.Perm l' := by
  have hl := map_getElem?_range hlength
  have hl' : order.map (l[·]?) = l'.map some := by
    apply List.ext_getElem?
    intro k
    rw [List.getElem?_map, List.getElem?_map, h]
    cases hk : order[k]? with
    | none => rfl
    | some i =>
      have hi : i < l.length := by
        rw [hlength, ← List.mem_range, ← horder.mem_iff]
        exact List.mem_of_getElem? hk
      simp [hi]
  have hperm := (horder.map (l[·]?)).filterMap id
  rw [hl, hl'] at hperm
  simpa [List.filterMap_map] using hperm.symm

/-- The kept positions first, then those without one. -/
theorem map_perm_reduceOption {β : Type*} (f : Option α → β) (l : List (Option α)) :
    (l.map f).Perm (l.reduceOption.map (fun a => f (some a)) ++
      List.replicate (l.countP Option.isNone) (f none)) := by
  induction l with
  | nil => simp
  | cons a l ih =>
    cases a with
    | some a =>
      rw [List.map_cons, List.reduceOption_cons_of_some]
      simpa using ih
    | none =>
      rw [List.map_cons, List.reduceOption_cons_of_none]
      have hcount : (none :: l).countP Option.isNone = l.countP Option.isNone + 1 := by simp
      rw [hcount, List.replicate_succ]
      exact (ih.cons (f none)).trans List.perm_middle.symm

/-- A list that reads all positions of another in order, with `a` in between,
has the same elements and copies of `a`. -/
theorem perm_append_replicate {l l' : List α} {rows : List (Option Nat)} {n : Nat} {a : α}
    (hlength : l.length = n) (hkept : rows.reduceOption = List.range n)
    (h : ∀ k : Nat, l'[k]? = rows[k]?.bind fun row => row.elim (some a) (l[·]?)) :
    l'.Perm (l ++ List.replicate (rows.countP Option.isNone) a) := by
  have hl' : rows.map (fun row => row.elim (some a) (l[·]?)) = l'.map some := by
    apply List.ext_getElem?
    intro k
    rw [List.getElem?_map, List.getElem?_map, h]
    cases hk : rows[k]? with
    | none => rfl
    | some row =>
      cases row with
      | none => rfl
      | some r =>
        have hr : r < l.length := by
          rw [hlength, ← List.mem_range, ← hkept, List.reduceOption_mem_iff]
          exact List.mem_of_getElem? hk
        simp [hr]
  have hperm := (map_perm_reduceOption (fun row => row.elim (some a) (l[·]?)) rows).filterMap id
  rw [hl', hkept] at hperm
  simp only [Option.elim_some, map_getElem?_range hlength] at hperm
  simpa [List.filterMap_map, List.filterMap_append] using hperm

/-- The smaller of two. -/
def pick (lt : α → α → Bool) (a b : α) : α := if lt a b then a else b

/-- `lt` is a strict total order on the values with `P`. -/
structure TotalOn (lt : α → α → Bool) (P : α → Prop) : Prop where
  irrefl : ∀ a, lt a a = false
  trans : ∀ a b c, P a → P b → P c → lt a b → lt b c → lt a c
  total : ∀ a b, P a → P b → lt a b = false → lt b a = false → a = b

variable {lt : α → α → Bool} {P : α → Prop}

/-- An element of the list below which there is none. -/
def Least (lt : α → α → Bool) (l : List α) (r : α) : Prop := r ∈ l ∧ ∀ x ∈ l, lt x r = false

theorem Least.unique (h : TotalOn lt P) {l : List α} (hP : ∀ x ∈ l, P x) {r s : α}
    (hr : Least lt l r) (hs : Least lt l s) : r = s :=
  h.total r s (hP r hr.1) (hP s hs.1) (hs.2 r hr.1) (hr.2 s hs.1)

theorem least_singleton (h : TotalOn lt P) (a : α) : Least lt [a] a :=
  ⟨by simp, fun x hx => by rw [List.mem_singleton.mp hx, h.irrefl]⟩

/-- One round of the loop. -/
theorem Least.pick (h : TotalOn lt P) {l : List α} {r b : α} (hP : ∀ x ∈ l, P x) (hb : P b)
    (hr : Least lt l r) : Least lt (l ++ [b]) (pick lt r b) := by
  obtain ⟨hmem, hleast⟩ := hr
  by_cases hrb : lt r b = true
  · -- `r` stays: `b` is not below it
    have hpick : Reorder.pick lt r b = r := if_pos hrb
    rw [hpick]
    refine ⟨by simp [hmem], fun x hx => ?_⟩
    rcases List.mem_append.mp hx with hx | hx
    · exact hleast x hx
    · obtain rfl := List.mem_singleton.mp hx
      by_contra hbr
      have hrr := h.trans r x r (hP r hmem) hb (hP r hmem) hrb (by simpa using hbr)
      simp [h.irrefl] at hrr
  · -- `b` replaces `r`, which is not below it
    have hpick : Reorder.pick lt r b = b := if_neg hrb
    rw [hpick]
    refine ⟨by simp, fun x hx => ?_⟩
    rcases List.mem_append.mp hx with hx | hx
    · by_contra hxb
      by_cases hrx : lt r x = true
      · exact hrb (h.trans r x b (hP r hmem) (hP x hx) hb hrx (by simpa using hxb))
      · have heq := h.total r x (hP r hmem) (hP x hx) (by simpa using hrx) (hleast x hx)
        exact hrb (heq ▸ by simpa using hxb)
    · rw [List.mem_singleton.mp hx, h.irrefl]

/-- **The loop ends in a least element.** -/
theorem foldl_pick (h : TotalOn lt P) {a : α} {l : List α} (hP : ∀ x ∈ a :: l, P x) :
    Least lt (a :: l) (l.foldl (pick lt) a) := by
  induction l using List.reverseRecOn with
  | nil => exact least_singleton h a
  | append_singleton l b ih =>
    have hold : ∀ x ∈ a :: l, P x := fun x hx => hP x (by
      rcases List.mem_cons.mp hx with rfl | hx <;> simp [*])
    rw [List.foldl_append]
    exact (ih hold).pick h hold (hP b (by simp))

/-- **The extremum of a list does not depend on its order.** -/
theorem foldl_pick_perm (h : TotalOn lt P) {a b : α} {l m : List α}
    (hperm : (a :: l).Perm (b :: m)) (hP : ∀ x ∈ a :: l, P x) :
    l.foldl (pick lt) a = m.foldl (pick lt) b := by
  obtain ⟨hmem, hleast⟩ := foldl_pick h hP
  obtain ⟨hmem', hleast'⟩ := foldl_pick h fun x hx => hP x (hperm.mem_iff.mpr hx)
  apply h.total
  · exact hP _ hmem
  · exact hP _ (hperm.mem_iff.mpr hmem')
  · exact hleast' _ (hperm.mem_iff.mp hmem)
  · exact hleast _ (hperm.mem_iff.mpr hmem')

/-! ## Elements that are compared with none -/

section
variable [DecidablePred P]

/-- The elements behind the last one without `P`. -/
def behind (P : α → Prop) [DecidablePred P] (l : List α) : List α :=
  (l.reverse.takeWhile fun x => P x).reverse

theorem behind_concat (l : List α) (b : α) :
    behind P (l ++ [b]) = if P b then behind P l ++ [b] else [] := by
  by_cases hb : P b <;> simp [behind, hb]

theorem of_mem_behind {l : List α} {x : α} (hx : x ∈ behind P l) : P x := by
  simpa using List.mem_takeWhile_imp (List.mem_reverse.mp hx)

theorem behind_eq_self {l : List α} (hP : ∀ x ∈ l, P x) : behind P l = l := by
  have hall : l.reverse.takeWhile (fun x => P x) = l.reverse :=
    List.takeWhile_eq_self_iff.mpr fun x hx => by simpa using hP x (List.mem_reverse.mp hx)
  rw [behind, hall, List.reverse_reverse]

/-- **The loop starts anew** behind an element that is compared with none: it
ends in a least element of those behind the last, or in the last itself. -/
theorem foldl_pick_behind (h : TotalOn lt P) (hout : ∀ a b, ¬ P a ∨ ¬ P b → lt a b = false)
    (a : α) (l : List α) :
    behind P (a :: l) = [] ∧ ¬ P (l.foldl (pick lt) a) ∨
      Least lt (behind P (a :: l)) (l.foldl (pick lt) a) := by
  induction l using List.reverseRecOn with
  | nil =>
    have hone : behind P [a] = if P a then [a] else [] := behind_concat [] a
    rw [hone]
    by_cases ha : P a
    · rw [if_pos ha]
      exact .inr (least_singleton h a)
    · rw [if_neg ha]
      exact .inl ⟨rfl, ha⟩
  | append_singleton l b ih =>
    have hnext : ∀ {r}, ¬ P r ∨ ¬ P b → pick lt r b = b := fun hr =>
      if_neg (by simp [hout _ _ hr])
    rw [← List.cons_append, behind_concat, List.foldl_append, List.foldl_cons, List.foldl_nil]
    by_cases hb : P b
    · rw [if_pos hb]
      right
      rcases ih with ⟨hnil, hr⟩ | hleast
      · rw [hnil, hnext (.inl hr)]
        exact least_singleton h b
      · exact hleast.pick h (fun x hx => of_mem_behind hx) hb
    · rw [if_neg hb, hnext (.inr hb)]
      exact .inl ⟨rfl, hb⟩

end

end Reorder
