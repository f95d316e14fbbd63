import Mathlib.Algebra.BigOperators.Group.List.Basic
import Mathlib.Data.List.Sort
import Mathlib.Data.List.Perm.Basic

/-!
# SortedMap — a map in key order

The container of `std::map`: entries in the order of their keys, no key
twice. Collecting the entries of a list by key loses none and repeats none.
-/

structure SortedMap (κ α : Type*) [LinearOrder κ] where
  entries : List (κ × α)
  sorted : (entries.map Prod.fst).Pairwise (· < ·)

namespace SortedMap

variable {κ α β : Type*} [LinearOrder κ]

instance : EmptyCollection (SortedMap κ α) := ⟨⟨[], .nil⟩⟩

def keys (m : SortedMap κ α) : List κ := m.entries.map Prod.fst

def find? (m : SortedMap κ α) (k : κ) : Option α :=
  (m.entries.find? (·.1 = k)).map Prod.snd

theorem keys_nodup (m : SortedMap κ α) : m.keys.Nodup :=
  m.sorted.imp fun h => h.ne

theorem mem_of_find? {m : SortedMap κ α} {k : κ} {a : α} (h : m.find? k = some a) :
    (k, a) ∈ m.entries := by
  obtain ⟨⟨k', a'⟩, he, rfl⟩ := Option.map_eq_some_iff.mp h
  have hk : k' = k := by simpa using List.find?_some he
  exact hk ▸ List.mem_of_find?_eq_some he

/-- An entry is the only one of its key. -/
theorem find?_eq_some_iff {m : SortedMap κ α} {k : κ} {a : α} :
    m.find? k = some a ↔ (k, a) ∈ m.entries := by
  refine ⟨mem_of_find?, fun h => ?_⟩
  obtain ⟨b, hb⟩ : ∃ b, m.find? k = some b := by
    cases hf : m.find? k with
    | some b => exact ⟨b, rfl⟩
    | none =>
      have := List.find?_eq_none.mp (Option.map_eq_none_iff.mp hf) (k, a) h
      simp at this
  have hinj := List.inj_on_of_nodup_map m.keys_nodup (mem_of_find? hb) h rfl
  rw [hb, (Prod.mk.inj hinj).2]

/-! ## `m[k] = f(m[k])` -/

/-- The entries after the one of key `k` has been created or changed. -/
def alterEntries (k : κ) (f : Option α → α) : List (κ × α) → List (κ × α)
  | [] => [(k, f none)]
  | (k', a) :: rest =>
      if k < k' then (k, f none) :: (k', a) :: rest
      else if k = k' then (k', f (some a)) :: rest
      else (k', a) :: alterEntries k f rest

theorem mem_keys_alterEntries {k x : κ} {f : Option α → α} {l : List (κ × α)}
    (h : x ∈ (alterEntries k f l).map Prod.fst) : x = k ∨ x ∈ l.map Prod.fst := by
  induction l with
  | nil => simpa [alterEntries] using h
  | cons e rest ih =>
    unfold alterEntries at h
    split at h
    · simpa using h
    · split at h
      · exact .inr (by simpa using h)
      · rw [List.map_cons, List.mem_cons] at h
        rcases h with rfl | h
        · exact .inr (by simp)
        · exact (ih h).imp_right (by simp [·])

theorem sorted_alterEntries (k : κ) (f : Option α → α) {l : List (κ × α)}
    (h : (l.map Prod.fst).Pairwise (· < ·)) :
    ((alterEntries k f l).map Prod.fst).Pairwise (· < ·) := by
  induction l with
  | nil => simp [alterEntries]
  | cons e rest ih =>
    obtain ⟨hhead, hrest⟩ := List.pairwise_cons.mp h
    unfold alterEntries
    split
    case isTrue hlt =>
      refine List.pairwise_cons.mpr ⟨fun x hx => ?_, h⟩
      rcases List.mem_cons.mp hx with rfl | hx
      · exact hlt
      · exact hlt.trans (hhead x hx)
    case isFalse hge =>
      split
      case isTrue => exact h
      case isFalse hne =>
        refine List.pairwise_cons.mpr ⟨fun x hx => ?_, ih hrest⟩
        rcases mem_keys_alterEntries hx with rfl | hx
        · exact lt_of_le_of_ne (not_lt.mp hge) (Ne.symm hne)
        · exact hhead x hx

/-- Every entry is an old one or the one of key `k`. -/
theorem mem_alterEntries {k : κ} {f : Option α → α} {l : List (κ × α)} {e : κ × α}
    (h : e ∈ alterEntries k f l) : e ∈ l ∨ ∃ old, e = (k, f old) := by
  induction l with
  | nil => exact .inr ⟨none, by simpa [alterEntries] using h⟩
  | cons e' rest ih =>
    unfold alterEntries at h
    split at h
    · rcases List.mem_cons.mp h with rfl | h
      · exact .inr ⟨none, rfl⟩
      · exact .inl h
    · split at h
      case isTrue heq =>
        rcases List.mem_cons.mp h with rfl | h
        · exact .inr ⟨_, by rw [heq]⟩
        · exact .inl (by simp [h])
      case isFalse =>
        rcases List.mem_cons.mp h with rfl | h
        · exact .inl (by simp)
        · exact (ih h).imp_left (by simp [·])

/-- `m[k] = f(m[k])`, where `f none` starts from a value just created. -/
def alter (m : SortedMap κ α) (k : κ) (f : Option α → α) : SortedMap κ α :=
  ⟨alterEntries k f m.entries, sorted_alterEntries k f m.sorted⟩

theorem find?_eq_none_of_lt {k : κ} {l : List (κ × α)} (h : ∀ x ∈ l.map Prod.fst, k < x) :
    l.find? (·.1 = k) = none := by
  rw [List.find?_eq_none]
  intro e he
  have hlt := h e.1 (List.mem_map_of_mem he)
  simpa using hlt.ne'

/-- The key that is altered is found with its new value, every other key as
before. -/
theorem find?_alter (m : SortedMap κ α) (k k' : κ) (f : Option α → α) :
    (m.alter k f).find? k' = if k' = k then some (f (m.find? k)) else m.find? k' := by
  obtain ⟨l, hl⟩ := m
  simp only [find?, alter]
  induction l with
  | nil =>
    by_cases hk : k' = k
    · simp [alterEntries, hk]
    · simp [alterEntries, hk, Ne.symm hk]
  | cons e rest ih =>
    obtain ⟨hhead, hrest⟩ := List.pairwise_cons.mp hl
    unfold alterEntries
    split
    case isTrue hlt =>
      have habsent : (e :: rest).find? (·.1 = k) = none :=
        find?_eq_none_of_lt fun x hx => by
          rcases List.mem_cons.mp hx with rfl | hx
          · exact hlt
          · exact hlt.trans (hhead x hx)
      by_cases hk : k' = k
      · rw [habsent]
        simp [hk]
      · simp [hk, Ne.symm hk]
    case isFalse =>
      split
      case isTrue heq =>
        by_cases hk : k' = k
        · simp [hk, heq]
        · simp [hk, heq ▸ Ne.symm hk]
      case isFalse hne =>
        rw [List.find?_cons, List.find?_cons, List.find?_cons]
        by_cases he : e.1 = k'
        · have hk : ¬ k' = k := fun hk => hne (hk ▸ he.symm)
          simp [he, hk]
        · simpa [he, Ne.symm hne] using ih hrest

/-- `m[k] = a`. -/
def insert (m : SortedMap κ α) (k : κ) (a : α) : SortedMap κ α := m.alter k fun _ => a

/-- `m.insert({k, a})`: an entry that is there stays. -/
def insertNew (m : SortedMap κ α) (k : κ) (a : α) : SortedMap κ α :=
  m.alter k fun old => old.getD a

theorem find?_insert (m : SortedMap κ α) (k k' : κ) (a : α) :
    (m.insert k a).find? k' = if k' = k then some a else m.find? k' :=
  m.find?_alter k k' _

theorem find?_insertNew (m : SortedMap κ α) (k k' : κ) (a : α) :
    (m.insertNew k a).find? k' = if k' = k then some ((m.find? k).getD a) else m.find? k' :=
  m.find?_alter k k' _

@[simp] theorem find?_empty (k : κ) : (∅ : SortedMap κ α).find? k = none := rfl

/-! ## Collecting by key -/

/-- `m[k].push_back(a)`. -/
def pushBack (m : SortedMap κ (List α)) (k : κ) (a : α) : SortedMap κ (List α) :=
  m.alter k fun old => old.getD [] ++ [a]

/-- The (element, key) pairs a map of lists holds. -/
def pairs (m : SortedMap κ (List α)) : List (α × κ) :=
  m.entries.flatMap fun e => e.2.map fun a => (a, e.1)

/-- What `pushBack` adds is the one pair. -/
theorem pairs_pushBack (m : SortedMap κ (List α)) (k : κ) (a : α) :
    (m.pushBack k a).pairs.Perm ((a, k) :: m.pairs) := by
  unfold pairs pushBack alter
  simp only
  induction m.entries with
  | nil => simp [alterEntries]
  | cons e rest ih =>
    unfold alterEntries
    split
    case isTrue => simp
    case isFalse =>
      split
      case isTrue heq =>
        subst heq
        simp only [List.flatMap_cons, Option.getD_some, List.map_append, List.map_cons,
          List.map_nil, List.append_assoc, List.singleton_append]
        exact List.perm_middle
      case isFalse =>
        rw [List.flatMap_cons, List.flatMap_cons]
        exact (ih.append_left _).trans List.perm_middle

/-- The elements of a list of pairs, collected by the second component. -/
def collect (l : List (α × κ)) : SortedMap κ (List α) :=
  l.foldl (fun m p => m.pushBack p.2 p.1) ∅

/-- **Collecting loses no pair and repeats none.** -/
theorem pairs_collect (l : List (α × κ)) : (collect l).pairs.Perm l := by
  suffices h : ∀ m : SortedMap κ (List α),
      (l.foldl (fun m p => m.pushBack p.2 p.1) m).pairs.Perm (m.pairs ++ l) from
    h ∅
  induction l with
  | nil => intro m; simp
  | cons p l ih =>
    intro m
    rw [List.foldl_cons]
    refine (ih _).trans (((m.pairs_pushBack p.2 p.1).append_right l).trans ?_)
    exact List.perm_middle.symm

theorem ne_nil_of_mem_collect {l : List (α × κ)} {e : κ × List α}
    (h : e ∈ (collect l).entries) : e.2 ≠ [] := by
  suffices hinv : ∀ m : SortedMap κ (List α), (∀ e ∈ m.entries, e.2 ≠ []) →
      ∀ e ∈ (l.foldl (fun m p => m.pushBack p.2 p.1) m).entries, e.2 ≠ [] from
    hinv ∅ (by simp [EmptyCollection.emptyCollection]) e h
  clear h
  induction l with
  | nil => exact fun _ hm => hm
  | cons p l ih =>
    intro m hm
    refine ih _ fun e he => ?_
    rcases mem_alterEntries he with he | ⟨old, rfl⟩
    · exact hm e he
    · simp

theorem nodup_of_mem_collect {l : List (α × κ)} (hl : (l.map Prod.fst).Nodup)
    {e : κ × List α} (h : e ∈ (collect l).entries) : e.2.Nodup := by
  have hflat : (collect l).pairs.map Prod.fst = (collect l).entries.flatMap Prod.snd := by
    simp [pairs, List.map_flatMap, Function.comp_def]
  have hnodup : ((collect l).entries.flatMap Prod.snd).Nodup :=
    hflat ▸ ((pairs_collect l).map Prod.fst).nodup_iff.mpr hl
  exact (List.nodup_flatMap.mp hnodup).1 e h

/-- A sum over a list of pairs, taken collection by collection. -/
theorem sum_collect {M : Type*} [AddCommMonoid M] (f : κ → α → M) (l : List (α × κ)) :
    ((collect l).entries.map fun e => (e.2.map (f e.1)).sum).sum =
      (l.map fun p => f p.2 p.1).sum := by
  rw [← ((pairs_collect l).map fun p => f p.2 p.1).sum_eq]
  unfold pairs
  induction (collect l).entries with
  | nil => rfl
  | cons e rest ih =>
    rw [List.map_cons, List.sum_cons, ih, List.flatMap_cons, List.map_append, List.sum_append,
      List.map_map]
    rfl

/-- What a map of lists holds under one of its keys. -/
theorem filter_pairs {m : SortedMap κ (List α)} {e : κ × List α} (h : e ∈ m.entries) :
    (m.pairs.filter fun p => p.2 = e.1).map Prod.fst = e.2 := by
  have hkeys := m.keys_nodup
  obtain ⟨before, after, hsplit⟩ := List.append_of_mem h
  have hother : ∀ l : List (κ × List α), (∀ d ∈ l, d.1 ≠ e.1) →
      (l.flatMap fun d => d.2.map fun a => (a, d.1)).filter (fun p => p.2 = e.1) = [] := by
    intro l hl
    rw [List.filter_eq_nil_iff]
    intro p hp
    obtain ⟨d, hd, hmem⟩ := List.mem_flatMap.mp hp
    obtain ⟨a, -, rfl⟩ := List.mem_map.mp hmem
    simpa using hl d hd
  rw [keys, hsplit, List.map_append, List.map_cons, List.nodup_append] at hkeys
  obtain ⟨-, htail, hdisjoint⟩ := hkeys
  have hbefore := hother before fun d hd heq =>
    hdisjoint d.1 (List.mem_map_of_mem hd) e.1 List.mem_cons_self heq
  have hafter := hother after fun d hd heq =>
    (List.nodup_cons.mp htail).1 (heq ▸ List.mem_map_of_mem hd)
  rw [pairs, hsplit, List.flatMap_append, List.flatMap_cons, List.filter_append,
    List.filter_append, hbefore, hafter, List.filter_map]
  simp [Function.comp_def]

/-- A collection is what the list holds under its key. -/
theorem perm_of_mem_collect {l : List (α × κ)} {e : κ × List α}
    (h : e ∈ (collect l).entries) : e.2.Perm ((l.filter fun p => p.2 = e.1).map Prod.fst) := by
  rw [← filter_pairs h]
  exact ((pairs_collect l).filter _).map _

/-- The keys of the collection are those that occur in the list. -/
theorem mem_keys_collect {l : List (α × κ)} {k : κ} :
    k ∈ (collect l).keys ↔ ∃ a, (a, k) ∈ l := by
  constructor
  · intro h
    obtain ⟨⟨k', as⟩, he, rfl⟩ := List.mem_map.mp h
    obtain ⟨a, ha⟩ := List.exists_mem_of_ne_nil _ (ne_nil_of_mem_collect he)
    refine ⟨a, (pairs_collect l).mem_iff.mp (List.mem_flatMap.mpr ⟨_, he, ?_⟩)⟩
    exact List.mem_map.mpr ⟨a, ha, rfl⟩
  · rintro ⟨a, ha⟩
    obtain ⟨e, he, hp⟩ := List.mem_flatMap.mp ((pairs_collect l).mem_iff.mpr ha)
    obtain ⟨b, -, hb⟩ := List.mem_map.mp hp
    exact List.mem_map.mpr ⟨e, he, (Prod.mk.inj hb).2⟩

end SortedMap
