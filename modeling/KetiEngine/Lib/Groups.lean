import Mathlib.Algebra.BigOperators.Group.List.Basic
import Mathlib.Algebra.Order.BigOperators.Group.List
import Mathlib.Algebra.Order.Ring.Nat
import Mathlib.Data.List.Induction
import Mathlib.Data.List.Perm.Basic
import Mathlib.Data.Finset.Card
import Mathlib.Data.Multiset.Bind

/-!
# Groups — a list split by a key

The elements of a list with one key, for each key in the order in which the
keys first appear. Together the groups hold every element once, so a sum over
the list is the sum of the sums over the groups. A loop that goes through the
whole group of each element visits an element as often as its key occurs.
-/

namespace Groups

variable {α β κ : Type*} [DecidableEq κ] (key : α → κ)

/-- The keys in the order of their first appearance. -/
def keysOf (l : List α) : List κ :=
  l.foldl (fun ks a => if key a ∈ ks then ks else ks ++ [key a]) []

/-- The elements with the key `k`. -/
def group (l : List α) (k : κ) : List α := l.filter fun a => key a = k

theorem keysOf_concat (l : List α) (a : α) : keysOf key (l ++ [a]) =
    if key a ∈ keysOf key l then keysOf key l else keysOf key l ++ [key a] := by
  unfold keysOf
  rw [List.foldl_append]
  rfl

theorem group_concat (l : List α) (a : α) (k : κ) :
    group key (l ++ [a]) k = if key a = k then group key l k ++ [a] else group key l k := by
  unfold group
  by_cases h : key a = k <;> simp [h]

theorem mem_keysOf {l : List α} {k : κ} : k ∈ keysOf key l ↔ ∃ a ∈ l, key a = k := by
  induction l using List.reverseRecOn with
  | nil => simp [keysOf]
  | append_singleton l a ih =>
    have hstep : k ∈ keysOf key (l ++ [a]) ↔ k ∈ keysOf key l ∨ key a = k := by
      rw [keysOf_concat]
      by_cases h : key a ∈ keysOf key l
      · rw [if_pos h]
        exact ⟨.inl, fun hk => hk.elim id fun he => he ▸ h⟩
      · rw [if_neg h, List.mem_append, List.mem_singleton, eq_comm (a := k)]
    rw [hstep, ih]
    simp [or_and_right, exists_or]

theorem nodup_keysOf (l : List α) : (keysOf key l).Nodup := by
  induction l using List.reverseRecOn with
  | nil => exact List.nodup_nil
  | append_singleton l a ih =>
    rw [keysOf_concat]
    by_cases h : key a ∈ keysOf key l
    · rwa [if_pos h]
    · rw [if_neg h]
      exact List.nodup_append.mpr ⟨ih, by simp, by
        intro x hx y hy
        obtain rfl := List.mem_singleton.mp hy
        exact fun he => h (he ▸ hx)⟩

theorem group_ne_nil {l : List α} {k : κ} (h : k ∈ keysOf key l) : group key l k ≠ [] := by
  obtain ⟨a, ha, hk⟩ := (mem_keysOf key).mp h
  exact List.ne_nil_of_mem (List.mem_filter.mpr ⟨ha, decide_eq_true hk⟩)

/-! ## Coarser keys -/

section
variable {κ' : Type*} [DecidableEq κ'] {key} {key' : α → κ'} {f : κ → κ'} {l : List α}

/-- A key that can be told from another, and the other from it, splits the list
in the same way. -/
theorem keysOf_eq_map (h : ∀ a ∈ l, key' a = f (key a))
    (hinj : ∀ a ∈ l, ∀ b ∈ l, key' a = key' b → key a = key b) :
    keysOf key' l = (keysOf key l).map f := by
  induction l using List.reverseRecOn with
  | nil => rfl
  | append_singleton l a ih =>
    have hold := ih (fun b hb => h b (by simp [hb])) fun b hb c hc =>
      hinj b (by simp [hb]) c (by simp [hc])
    have hmem : key' a ∈ keysOf key' l ↔ key a ∈ keysOf key l := by
      rw [mem_keysOf, mem_keysOf]
      refine exists_congr fun b => and_congr_right fun hb => ⟨fun he => ?_, fun he => ?_⟩
      · exact hinj b (by simp [hb]) a (by simp) he
      · rw [h b (by simp [hb]), h a (by simp), he]
    rw [keysOf_concat, keysOf_concat]
    by_cases ha : key a ∈ keysOf key l
    · rw [if_pos ha, if_pos (hmem.mpr ha), hold]
    · rw [if_neg ha, if_neg fun hin => ha (hmem.mp hin), hold, List.map_append, h a (by simp)]
      rfl

theorem group_eq_of_map (h : ∀ a ∈ l, key' a = f (key a))
    (hinj : ∀ a ∈ l, ∀ b ∈ l, key' a = key' b → key a = key b) {k : κ} (hk : k ∈ keysOf key l) :
    group key' l (f k) = group key l k := by
  obtain ⟨b, hb, rfl⟩ := (mem_keysOf key).mp hk
  refine List.filter_congr fun a ha => decide_eq_decide.mpr ?_
  rw [← h b hb]
  exact ⟨hinj a ha b hb, fun he => by rw [h a ha, h b hb, he]⟩

/-- **The same split**: the groups of such keys are the same, in one order. -/
theorem map_group_eq (h : ∀ a ∈ l, key' a = f (key a))
    (hinj : ∀ a ∈ l, ∀ b ∈ l, key' a = key' b → key a = key b) :
    (keysOf key' l).map (group key' l) = (keysOf key l).map (group key l) := by
  rw [keysOf_eq_map h hinj, List.map_map]
  exact List.map_congr_left fun k hk => group_eq_of_map h hinj hk

/-- **As many keys, the same split**: a key that can be told from another tells
as much when there are as many of it. -/
theorem key_eq_of_length_eq (h : ∀ a ∈ l, key' a = f (key a))
    (hlength : (keysOf key' l).length = (keysOf key l).length) {a b : α} (ha : a ∈ l) (hb : b ∈ l)
    (he : key' a = key' b) : key a = key b := by
  have himage : (keysOf key l).toFinset.image f = (keysOf key' l).toFinset := by
    ext k'
    simp only [Finset.mem_image, List.mem_toFinset, mem_keysOf]
    constructor
    · rintro ⟨-, ⟨c, hc, rfl⟩, rfl⟩
      exact ⟨c, hc, h c hc⟩
    · rintro ⟨c, hc, rfl⟩
      exact ⟨key c, ⟨c, hc, rfl⟩, (h c hc).symm⟩
  have hcard : ((keysOf key l).toFinset.image f).card = (keysOf key l).toFinset.card := by
    rw [himage, List.toFinset_card_of_nodup (nodup_keysOf key' l),
      List.toFinset_card_of_nodup (nodup_keysOf key l), hlength]
  have hinj := Finset.card_image_iff.mp hcard
  refine hinj ?_ ?_ (by rw [← h a ha, ← h b hb, he])
  · simpa using (mem_keysOf key).mpr ⟨a, ha, rfl⟩
  · simpa using (mem_keysOf key).mpr ⟨b, hb, rfl⟩

end

/-! ## The order -/

/-- **The order of first appearance**: the first elements of the groups are in
the order of the list. -/
theorem pairwise_head_group {R : α → α → Prop} {l : List α} (h : l.Pairwise R) :
    (keysOf key l).Pairwise fun k k' =>
      ∀ a b, (group key l k).head? = some a → (group key l k').head? = some b → R a b := by
  induction l using List.reverseRecOn with
  | nil => exact List.Pairwise.nil
  | append_singleton l c ih =>
    obtain ⟨hl, -, hlast⟩ := List.pairwise_append.mp h
    -- the groups that are there keep their first elements
    have hhead : ∀ k ∈ keysOf key l, (group key (l ++ [c]) k).head? = (group key l k).head? := by
      intro k hk
      obtain ⟨a, as, hcons⟩ := List.exists_cons_of_ne_nil (group_ne_nil key hk)
      rw [group_concat, hcons]
      split <;> rfl
    have hold : (keysOf key l).Pairwise fun k k' => ∀ a b,
        (group key (l ++ [c]) k).head? = some a → (group key (l ++ [c]) k').head? = some b →
          R a b := by
      refine (ih hl).imp_of_mem fun {k k'} hk hk' hR => ?_
      rwa [hhead k hk, hhead k' hk']
    rw [keysOf_concat]
    split
    · exact hold
    · refine List.pairwise_append.mpr ⟨hold, List.pairwise_singleton _ _, ?_⟩
      intro k hk k' hk' a b ha hb
      obtain rfl := List.mem_singleton.mp hk'
      rw [hhead k hk] at ha
      have hmem : a ∈ l := (List.mem_filter.mp (List.mem_of_mem_head? ha)).1
      have hnone : group key l (key c) = [] := by
        refine List.filter_eq_nil_iff.mpr fun d hd hk => ?_
        have hin : key c ∈ keysOf key l := (mem_keysOf key).mpr ⟨d, hd, of_decide_eq_true hk⟩
        contradiction
      rw [group_concat, if_pos rfl, hnone] at hb
      obtain rfl : c = b := by simpa using hb
      exact hlast a hmem c (by simp)

theorem getElem?_concat_eq_some {l : List β} {a b : β} {i : Nat} :
    (l ++ [a])[i]? = some b ↔ l[i]? = some b ∨ i = l.length ∧ a = b := by
  rw [List.getElem?_append]
  by_cases hi : i < l.length
  · rw [if_pos hi]
    exact ⟨.inl, fun h => h.elim id fun he => absurd he.1 (by omega)⟩
  · have hnone : l[i]? = none := List.getElem?_eq_none (by omega)
    rw [if_neg hi, hnone, List.getElem?_singleton]
    by_cases he : i = l.length
    · simp [he]
    · have hne : i - l.length ≠ 0 := by omega
      simp [he, hne]

/-- The groups of keys that are different and among which every key is. -/
theorem flatMap_group_perm_of_cover {ks : List κ} (hnodup : ks.Nodup) {l : List α}
    (h : ∀ a ∈ l, key a ∈ ks) : (ks.flatMap (group key l)).Perm l := by
  induction ks generalizing l with
  | nil =>
    have hnil : l = [] := List.eq_nil_iff_forall_not_mem.mpr fun a ha => by simpa using h a ha
    simp [hnil]
  | cons k ks ih =>
    obtain ⟨hk, hks⟩ := List.nodup_cons.mp hnodup
    -- the other groups are groups of the elements without the key `k`
    let others := l.filter fun a => ¬ key a = k
    have hothers : ks.flatMap (group key l) = ks.flatMap (group key others) := by
      refine List.flatMap_congr fun k' hk' => ?_
      have hne : k' ≠ k := fun he => hk (he ▸ hk')
      unfold group others
      rw [List.filter_filter]
      refine List.filter_congr fun a _ => ?_
      by_cases ha : key a = k' <;> simp [ha, hne]
    have hrest : (ks.flatMap (group key others)).Perm others := ih hks fun a ha => by
      obtain ⟨hmem, hne⟩ := List.mem_filter.mp ha
      exact (List.mem_cons.mp (h a hmem)).resolve_left (by simpa using hne)
    rw [List.flatMap_cons, hothers]
    refine (hrest.append_left _).trans ?_
    simpa [group, others] using List.filter_append_perm (fun a => decide (key a = k)) l

/-- **Every element lies in one group, once.** -/
theorem flatMap_group_perm (l : List α) : ((keysOf key l).flatMap (group key l)).Perm l :=
  flatMap_group_perm_of_cover key (nodup_keysOf key l) fun a ha => (mem_keysOf key).mpr ⟨a, ha, rfl⟩

/-- **The sum over a list is the sum over its groups.** -/
theorem sum_group {M : Type*} [AddCommMonoid M] (f : α → M) (l : List α) :
    ((keysOf key l).map fun k => ((group key l k).map f).sum).sum = (l.map f).sum := by
  rw [← ((flatMap_group_perm key l).map f).sum_eq, List.map_flatMap, List.flatMap_def,
    List.sum_flatten, List.map_map]
  rfl

/-! ## Visiting groups -/

/-- What a loop over a list collects that takes, at each element, the contents
of all elements with its key. -/
def visited (contents : α → List β) (l : List α) : List β :=
  l.flatMap fun a => (group key l (key a)).flatMap contents

theorem group_flatMap (contents : α → List β) (l : List α) (k : κ) :
    (group key l k).flatMap contents = l.flatMap fun a => if key a = k then contents a else [] := by
  unfold group
  induction l with
  | nil => rfl
  | cons a l ih =>
    by_cases hk : key a = k <;> simp [hk, ih]

/-- **A visit for each element**: the contents of an element are collected once
for every element with its key. -/
theorem visited_perm (contents : α → List β) (l : List α) :
    (visited key contents l).Perm
      (l.flatMap fun b => (group key l (key b)).flatMap fun _ => contents b) := by
  simp only [visited, group_flatMap]
  refine Multiset.coe_eq_coe.mp ?_
  have hswap := Multiset.bind_bind (l : Multiset α) l
    (f := fun a b => ((if key b = key a then contents b else [] : List β) : Multiset β))
  simp only [Multiset.coe_bind] at hswap
  simpa only [eq_comm] using hswap

theorem length_group_pos {l : List α} {a : α} (ha : a ∈ l) : 0 < (group key l (key a)).length :=
  List.length_pos_of_mem (List.mem_filter.mpr ⟨ha, decide_eq_true rfl⟩)

/-- **Exactly once**: the loop collects the contents of the list if and only if
no element with contents shares its key. -/
theorem visited_perm_flatMap_iff {contents : α → List β} {l : List α} :
    (visited key contents l).Perm (l.flatMap contents) ↔
      ∀ a ∈ l, contents a ≠ [] → (group key l (key a)).length = 1 := by
  have hvisits := visited_perm key contents l
  constructor
  · intro h a ha hne
    by_contra hmany
    have hpos := length_group_pos key ha
    have hcontents := List.length_pos_iff.mpr hne
    -- an element collected twice makes it longer
    have hlonger : (l.map fun b => (contents b).length).sum <
        (l.map fun b => (group key l (key b)).length * (contents b).length).sum := by
      refine List.sum_lt_sum _ _ (fun b hb => ?_) ⟨a, ha, ?_⟩
      · exact Nat.le_mul_of_pos_left _ (length_group_pos key hb)
      · exact (Nat.lt_mul_iff_one_lt_left hcontents).mpr (by omega)
    have hlength := (hvisits.symm.trans h).length_eq
    simp only [List.length_flatMap, List.map_const', List.sum_replicate,
      Nat.nsmul_eq_mul] at hlength
    omega
  · intro h
    refine hvisits.trans (List.Perm.of_eq (List.flatMap_congr fun b hb => ?_))
    by_cases hne : contents b = []
    · simp [hne]
    · obtain ⟨c, hc⟩ := List.length_eq_one_iff.mp (h b hb hne)
      simp [hc]

end Groups
