import KetiEngine.Merging.JoinExact

/-!
# NestedJoin — the inner join without EQ filters

The branch of `InnerJoin_hash` for a filter list without EQ: a nested loop
over the left table and all rows of the right table that have been delivered,
those of the earlier parts included. A pair is emitted once for each part with
new rows that its right row is in.
-/

namespace KetiEngine.Merging

open KetiEngine Loops

/-- The pairs of the nested loop over `n` left and `k` right rows. -/
def nestedPairs (filtering : List Filter) (left right : ColMap) (n k : Nat) : List (Nat × Nat) :=
  (List.range n).flatMap fun l =>
    ((List.range k).filter fun r => filtering.all (satisfies left right l r)).map (l, ·)

theorem mem_nestedPairs {filtering : List Filter} {left right : ColMap} {n k l r : Nat} :
    (l, r) ∈ nestedPairs filtering left right n k ↔
      l < n ∧ r < k ∧ ∀ f ∈ filtering, satisfies left right l r f = true := by
  simp only [nestedPairs, List.mem_flatMap, List.mem_map, List.mem_filter, List.mem_range,
    List.all_eq_true, Prod.mk.injEq]
  constructor
  · rintro ⟨l', hl, r', ⟨hr, hall⟩, rfl, rfl⟩
    exact ⟨hl, hr, hall⟩
  · rintro ⟨hl, hr, hall⟩
    exact ⟨l, hl, r, ⟨hr, hall⟩, rfl, rfl⟩

/-- A nested loop comes to every pair once. -/
theorem nodup_pairs (passed : Nat → Nat → Bool) (n k : Nat) :
    ((List.range n).flatMap fun i => ((List.range k).filter (passed i)).map (i, ·)).Nodup := by
  rw [List.nodup_flatMap]
  refine ⟨fun i _ => ?_, ?_⟩
  · exact (List.nodup_range.filter _).map fun a b h => (Prod.mk.inj h).2
  · refine List.nodup_range.imp fun {i i'} hne => ?_
    simp only [Function.onFun, List.disjoint_left, List.mem_map]
    rintro p ⟨j, -, rfl⟩ ⟨j', -, he⟩
    exact hne (Prod.mk.inj he).1.symm

theorem nodup_joinPairs (filtering : List Filter) (left right : ColMap) (n m : Nat) :
    (joinPairs filtering left right n m).Nodup := by
  have hswap : joinPairs filtering left right n m = ((List.range m).flatMap fun r =>
      ((List.range n).filter fun l => filtering.all (satisfies left right l r)).map
        (r, ·)).map Prod.swap := by
    simp only [joinPairs, List.map_flatMap, List.map_map]
    rfl
  rw [hswap]
  exact (nodup_pairs _ m n).map Prod.swap_injective

/-- The nested loop over all rows finds the pairs of the join in another
order. -/
theorem nestedPairs_perm (filtering : List Filter) (left right : ColMap) (n m : Nat) :
    (nestedPairs filtering left right n m).Perm (joinPairs filtering left right n m) := by
  have hnested : (nestedPairs filtering left right n m).Nodup := nodup_pairs _ n m
  rw [List.perm_ext_iff_of_nodup hnested (nodup_joinPairs ..)]
  rintro ⟨l, r⟩
  rw [mem_nestedPairs, mem_joinPairs]

/-! ## The loop -/

section
variable {left : TableData} {right part : ColMap} {filtering : List Filter}
  {pairs : List (Nat × Nat)} {target : TableData} {n m l r : Nat}

theorem nestedRow_spec (hleft : left.WellFormed n) (hpart : PartOf part right m)
    (hdisjoint : ∀ name ∈ left.tableData, name ∉ right) (hl : l < n) (hr : r < m)
    (h : JoinState left.tableData right false pairs target) :
    ∃ target', nestedRow left.tableData part l r target = some target' ∧
      JoinState left.tableData right false (pairs ++ [(l, r)]) target' := by
  obtain ⟨td₁, td₂, hrun₁, hrun₂, hnames, htypes, hcopies₁, hcopies₂⟩ :=
    copyRows_spec ((PartOf.self hleft).sameRow hl) (hpart.sameRow hr) hdisjoint target.tableData
  refine ⟨{ target with tableData := td₂, rowCount := target.rowCount + 1 }, ?_, ?_⟩
  · rw [nestedRow, hrun₁]
    simp only [Option.bind_eq_bind, Option.bind_some, hrun₂]
    rfl
  · refine h.append (fun name => ?_) htypes (hcopies₁ _ h.leftCells) (hcopies₂ _ h.rightCells)
    rw [hnames]
    tauto

/-- Without EQ filters the filter loop checks every filter. -/
theorem residualPassed_all (hleft : left.WellFormed n) (hpart : PartOf part right m) (hl : l < n)
    (hr : r < m) (hfilters : ∀ f ∈ filtering, JoinFilter left.tableData right f)
    (hne : ∀ f ∈ filtering, f.operator ≠ .eq) :
    residualPassed left.tableData part l r filtering =
      some (filtering.all (satisfies left.tableData right l r)) := by
  have hparts : ∀ f ∈ filtering, JoinFilter left.tableData part f :=
    fun f hf => (hfilters f hf).part hpart
  rw [residualPassed_spec hleft.column hpart.length hl hr hparts]
  have heach : ∀ f ∈ filtering, (!isResidual f.operator ||
      satisfies left.tableData part l r f) = satisfies left.tableData right l r f := by
    intro f hf
    rw [satisfies_part (hfilters f hf) hpart hr]
    rcases hfilters f hf with hand | ⟨a, b, -, -, -, -, -, ⟨hop, -⟩ | ⟨hres, -⟩⟩
    · simp [satisfies, hand]
    · exact absurd hop (hne f hf)
    · simp [hres]
  rw [Option.some.injEq]
  exact all_congr_mem heach

/-- **The nested loop** adds all pairs of the rows delivered so far. -/
theorem nestedLoopJoin_spec (hleft : left.WellFormed n) {table : TableData}
    (hpart : PartOf table.tableData right m) (hcount : table.rowCount = m)
    (hdisjoint : ∀ name ∈ left.tableData, name ∉ right)
    (hfilters : ∀ f ∈ filtering, JoinFilter left.tableData right f)
    (hne : ∀ f ∈ filtering, f.operator ≠ .eq)
    (h : JoinState left.tableData right false pairs target) :
    ∃ target', nestedLoopJoin filtering left table target = some target' ∧
      JoinState left.tableData right false
        (pairs ++ nestedPairs filtering left.tableData right n m) target' := by
  let passed : Nat → Nat → Bool := fun l r =>
    filtering.all (satisfies left.tableData right l r)
  -- one left row against the right rows
  have hinner : ∀ l < n, ∀ pairs t, JoinState left.tableData right false pairs t →
      ∃ t', (List.range m).foldlM (fun target r2 => do
        let ok ← residualPassed left.tableData table.tableData l r2 filtering
        if ok then nestedRow left.tableData table.tableData l r2 target else pure target) t =
          some t' ∧
        JoinState left.tableData right false
          (pairs ++ ((List.range m).filter (passed l)).map (l, ·)) t' := by
    intro l hl pairs t ht
    refine foldlM_total (P := fun done t => JoinState left.tableData right false
      (pairs ++ (done.filter (passed l)).map (l, ·)) t) (by simpa using ht) ?_
    intro done r rest t hsplit ht
    obtain ⟨-, hr⟩ := range_eq_append_cons hsplit
    rw [residualPassed_all hleft hpart hl hr hfilters hne, List.filter_append, List.map_append,
      ← List.append_assoc]
    cases hp : passed l r with
    | true =>
      obtain ⟨t', hrun, ht'⟩ := nestedRow_spec hleft hpart hdisjoint hl hr ht
      exact ⟨t', by simpa [passed, hp] using hrun, by simpa [hp] using ht'⟩
    | false => exact ⟨t, by simp [passed, hp], by simpa [hp] using ht⟩
  obtain ⟨target', hrun, htarget⟩ := foldlM_total (l := List.range n) (s := target)
    (P := fun done t => JoinState left.tableData right false (pairs ++ done.flatMap fun l =>
      ((List.range m).filter (passed l)).map (l, ·)) t) (by simpa using h)
    (fun done l rest t hsplit ht => by
      obtain ⟨-, hl⟩ := range_eq_append_cons hsplit
      obtain ⟨t', hrun, ht'⟩ := hinner l hl _ t ht
      exact ⟨t', hrun, by simpa using ht'⟩)
  have hn : left.rowCount.toNat = n := by simp [hleft.count]
  have hm : table.rowCount.toNat = m := by simp [hcount]
  refine ⟨target', ?_, htarget⟩
  unfold nestedLoopJoin
  rw [hn, hm]
  exact hrun

end

theorem equalityColumns_eq_nil {filtering : List Filter}
    (hne : ∀ f ∈ filtering, f.operator ≠ .eq) : equalityColumns filtering = [] := by
  rw [equalityColumns, List.map_eq_nil_iff, List.filter_eq_nil_iff]
  exact fun f hf => by simpa using hne f hf

/-- The run of `InnerJoin_hash` without EQ filters: its table holds the pairs
of every part that had new rows. -/
theorem innerJoinHash_nested {left final : TableData} {filtering : List Filter} {n m : Nat}
    (hleft : left.WellFormed n) (hdisjoint : ∀ name ∈ left.tableData, name ∉ final.tableData)
    (hfilters : ∀ f ∈ filtering, JoinFilter left.tableData final.tableData f)
    (hne : ∀ f ∈ filtering, f.operator ≠ .eq) {delivered : List TableData}
    (hsnapshots : Snapshots delivered final m) :
    ∃ target first, innerJoinHash filtering left delivered = some target ∧
      (first = true → m = 0) ∧ JoinState left.tableData final.tableData first
        ((partCounts 0 delivered).flatMap
          (nestedPairs filtering left.tableData final.tableData n)) target := by
  have hcolumns : equalJoinColumns Filter.lv filtering = some [] := by
    rw [(equalJoinColumns_spec hfilters).1, equalityColumns_eq_nil hne]
    rfl
  obtain ⟨hash, hhash, -⟩ := createHashTable_hashOf hleft hfilters
  rw [equalityColumns_eq_nil hne] at hhash
  have hround : ∀ (t : TableData) (done : List Nat) (k' : Nat) (first : Bool) (target : TableData),
      PartOf t.tableData final.tableData k' → t.rowCount = k' → done.getLastD 0 < k' → k' ≤ m →
      JoinState left.tableData final.tableData first
        (done.flatMap (nestedPairs filtering left.tableData final.tableData n)) target →
      ∃ target', joinDelivered filtering left hash [] (done.getLastD 0) first t target =
          some target' ∧
        JoinState left.tableData final.tableData false
          ((done ++ [k']).flatMap (nestedPairs filtering left.tableData final.tableData n))
          target' := by
    intro t done k' first target hpart hcount _ _ h
    obtain ⟨target', hrun, htarget⟩ := nestedLoopJoin_spec hleft hpart hcount hdisjoint hfilters
      hne (setTypes_joinState hpart hdisjoint h)
    exact ⟨target', by simpa [joinDelivered] using hrun, by simpa using htarget⟩
  obtain ⟨target, first, hrun, hfirst, hstate⟩ := deliveredLoop_history
    (P := fun done first target => JoinState left.tableData final.tableData first
      (done.flatMap (nestedPairs filtering left.tableData final.tableData n)) target)
    hround hsnapshots [] true hsnapshots.nonneg (fun _ => rfl) (joinState_init hdisjoint)
  refine ⟨target, first, ?_, hfirst, by simpa using hstate⟩
  rw [innerJoinHash, hcolumns]
  simp only [Option.bind_eq_bind, Option.bind_some, innerJoinLoop_eq]
  rw [show createHashTable left [] ∅ = some hash from hhash]
  exact hrun

/-! ## Every pair once -/

/-- The rows of `target` are these pairs of a left and a right row. -/
structure HoldsPairs (left right : ColMap) (pairs : List (Nat × Nat)) (target : TableData) :
    Prop where
  count : target.rowCount = pairs.length
  columns : ∀ name ∈ target.tableData, (name ∈ left ∨ name ∈ right) ∧
    (target.tableData.get name).HasLength pairs.length
  cells : ∀ k l r, pairs[k]? = some (l, r) →
    (∀ name ∈ left, name ∈ target.tableData ∧
      (target.tableData.get name).type = (left.get name).type ∧
      (target.tableData.get name).cell? k = (left.get name).cell? l) ∧
    (∀ name ∈ right, name ∈ target.tableData ∧
      (target.tableData.get name).type = (right.get name).type ∧
      (target.tableData.get name).cell? k = (right.get name).cell? r)

/-- Each pair of rows that satisfies all filters is emitted once, in whatever
order. -/
def EmitsOnce (filtering : List Filter) (left right : ColMap) (n m : Nat) (target : TableData) :
    Prop :=
  ∃ pairs, pairs.Perm (joinPairs filtering left right n m) ∧ HoldsPairs left right pairs target

/-- No pair that satisfies all filters has its right row in a delivered table
that has only some of the rows. -/
def NoEarlyPair (filtering : List Filter) (left right : ColMap) (n m : Nat)
    (delivered : List TableData) : Prop :=
  ∀ t ∈ delivered, t.rowCount < m → ∀ l r : Nat, l < n → (r : Int) < t.rowCount →
    ¬ ∀ f ∈ filtering, satisfies left right l r f = true

section
variable {filtering : List Filter} {left right : ColMap} {n m : Nat}
  {delivered : List TableData} {final : TableData}

/-- The right rows of the pairs emitted are rows of the right table. -/
theorem lt_of_mem_partPairs (hsnapshots : Snapshots delivered final m) {p : Nat × Nat}
    (hp : p ∈ (partCounts 0 delivered).flatMap (nestedPairs filtering left right n)) :
    p.1 < n ∧ p.2 < m := by
  obtain ⟨k, hk, hp⟩ := List.mem_flatMap.mp hp
  obtain ⟨hl, hr, -⟩ := mem_nestedPairs.mp hp
  refine ⟨hl, Nat.lt_of_lt_of_le hr ?_⟩
  obtain ⟨hnone, hsome⟩ := hsnapshots.partCounts_eq hsnapshots.nonneg
  by_cases hm : 0 = m
  · rw [hnone hm] at hk
    cases hk
  · obtain ⟨earlier, heq, hmem⟩ := hsome hm
    rw [heq, List.mem_append, List.mem_singleton] at hk
    rcases hk with hk | rfl
    · exact Nat.le_of_lt ((hmem k).mp hk).2.1
    · exact Nat.le_refl _

/-- The pairs of all parts are the pairs of the join when the earlier parts
have none, and more of them otherwise. -/
theorem partPairs_perm_iff (hsnapshots : Snapshots delivered final m) :
    let pairs := (partCounts 0 delivered).flatMap (nestedPairs filtering left right n)
    (NoEarlyPair filtering left right n m delivered →
      pairs.Perm (joinPairs filtering left right n m)) ∧
    (pairs.length = (joinPairs filtering left right n m).length →
      NoEarlyPair filtering left right n m delivered) := by
  intro pairs
  obtain ⟨hnone, hsome⟩ := hsnapshots.partCounts_eq hsnapshots.nonneg
  by_cases hm : 0 = m
  · subst hm
    have hpairs : pairs = [] := by simp [pairs, hnone rfl]
    refine ⟨fun _ => by simp [hpairs, joinPairs], fun _ t ht hlt => ?_⟩
    have := hsnapshots.nonneg t ht
    omega
  · obtain ⟨earlier, heq, hmem⟩ := hsome hm
    have hpairs : pairs = earlier.flatMap (nestedPairs filtering left right n) ++
        nestedPairs filtering left right n m := by simp [pairs, heq]
    have hperm := nestedPairs_perm filtering left right n m
    rw [hpairs]
    constructor
    · intro hearly
      have hnil : earlier.flatMap (nestedPairs filtering left right n) = [] := by
        rw [List.flatMap_eq_nil_iff]
        intro k hk
        obtain ⟨-, hkm, t, ht, hcount⟩ := (hmem k).mp hk
        refine List.eq_nil_iff_forall_not_mem.mpr fun p hp => ?_
        obtain ⟨hl, hr, hall⟩ := mem_nestedPairs.mp hp
        exact hearly t ht (by omega) p.1 p.2 hl (by omega) hall
      rw [hnil]
      exact hperm
    · intro hlength t ht hlt l r hl hr hall
      obtain ⟨k, hwf⟩ := hsnapshots.parts t ht
      have hcount := hwf.count
      -- the pair is among those of an earlier part
      have hk : k ∈ earlier := (hmem k).mpr ⟨by omega, by omega, t, ht, hcount⟩
      have hpair : (l, r) ∈ earlier.flatMap (nestedPairs filtering left right n) :=
        List.mem_flatMap.mpr ⟨k, hk, mem_nestedPairs.mpr ⟨hl, by omega, hall⟩⟩
      have hpos := List.length_pos_of_mem hpair
      rw [List.length_append, hperm.length_eq] at hlength
      omega

end

theorem Snapshots.single {final : TableData} {m : Nat} (hwf : final.WellFormed m)
    (hfinished : final.status = .workDone) : Snapshots [final] final m := by
  refine ⟨hwf, hfinished, ⟨[], rfl⟩, nofun, List.pairwise_singleton _ _, fun t ht => ?_,
    fun t ht _ name hname => ?_⟩
  · exact ⟨m, List.mem_singleton.mp ht ▸ hwf⟩
  · exact List.mem_singleton.mp ht ▸ hname

/-- **A join without EQ filters** emits every pair once when the right table
arrives whole. When it arrives in parts it does so exactly where no pair has
its right row in a part that has only some of the rows. -/
theorem innerJoinHash_emitsOnce_iff {left final : TableData} {filtering : List Filter} {n m : Nat}
    (hleft : left.WellFormed n) (hdisjoint : ∀ name ∈ left.tableData, name ∉ final.tableData)
    (hfilters : ∀ f ∈ filtering, JoinFilter left.tableData final.tableData f)
    (hne : ∀ f ∈ filtering, f.operator ≠ .eq) {delivered : List TableData}
    (hsnapshots : Snapshots delivered final m) :
    (∃ whole, innerJoinHash filtering left [final] = some whole ∧
      EmitsOnce filtering left.tableData final.tableData n m whole) ∧
    ((∃ target, innerJoinHash filtering left delivered = some target ∧
      EmitsOnce filtering left.tableData final.tableData n m target) ↔
      NoEarlyPair filtering left.tableData final.tableData n m delivered) := by
  -- what every run leaves
  have hholds : ∀ {parts}, Snapshots parts final m → ∃ target,
      innerJoinHash filtering left parts = some target ∧
      HoldsPairs left.tableData final.tableData ((partCounts 0 parts).flatMap
        (nestedPairs filtering left.tableData final.tableData n)) target := by
    intro parts hparts
    obtain ⟨target, first, hrun, hfirst, hstate⟩ :=
      innerJoinHash_nested hleft hdisjoint hfilters hne hparts
    obtain ⟨hcolumns, hcells⟩ := hstate.cells hleft.column hparts.wellFormed.column
      (fun p hp => lt_of_mem_partPairs hparts hp) hfirst
    exact ⟨target, hrun, hstate.count, hcolumns, hcells⟩
  constructor
  · have hwhole := Snapshots.single hsnapshots.wellFormed hsnapshots.finished
    obtain ⟨whole, hrun, hpairs⟩ := hholds hwhole
    refine ⟨whole, hrun, _, (partPairs_perm_iff hwhole).1 ?_, hpairs⟩
    intro t ht hlt
    obtain rfl := List.mem_singleton.mp ht
    have := hwhole.wellFormed.count
    omega
  · obtain ⟨target, hrun, hpairs⟩ := hholds hsnapshots
    constructor
    · rintro ⟨target', hrun', pairs, hperm, hholds'⟩
      obtain rfl := Option.some.inj (hrun.symm.trans hrun')
      refine (partPairs_perm_iff hsnapshots).2 ?_
      have hcount := hpairs.count.symm.trans hholds'.count
      rw [← hperm.length_eq]
      exact_mod_cast hcount
    · intro hearly
      exact ⟨target, hrun, _, (partPairs_perm_iff hsnapshots).1 hearly, hpairs⟩

/-- `id > key`. -/
def greaterFilter : List Filter :=
  [{ lv := ⟨[.column], ["id"]⟩, operator := .gt, rv := ⟨[.column], ["key"]⟩ }]

theorem greaterFilter_joinFilter (ns ms : List Int) (status status' : WorkStatus) :
    ∀ f ∈ greaterFilter, JoinFilter (numberTable "id" ns status).tableData
      (numberTable "key" ms status').tableData f := by
  intro f hf
  obtain rfl := List.mem_singleton.mp hf
  exact numberTable_joinFilter _ _ _ _ (.inr rfl)

/-- The first part has no smaller key. -/
theorem innerJoinHash_emitsOnce_late :
    (∃ whole, innerJoinHash greaterFilter (numberTable "id" [3] .workDone)
        [numberTable "key" [7, 1] .workDone] = some whole ∧
      EmitsOnce greaterFilter (numberTable "id" [3] .workDone).tableData
        (numberTable "key" [7, 1] .workDone).tableData 1 2 whole) ∧
    ((∃ target, innerJoinHash greaterFilter (numberTable "id" [3] .workDone)
        [numberTable "key" [7] .notFinished, numberTable "key" [7, 1] .workDone] = some target ∧
      EmitsOnce greaterFilter (numberTable "id" [3] .workDone).tableData
        (numberTable "key" [7, 1] .workDone).tableData 1 2 target) ↔
      NoEarlyPair greaterFilter (numberTable "id" [3] .workDone).tableData
        (numberTable "key" [7, 1] .workDone).tableData 1 2
        [numberTable "key" [7] .notFinished, numberTable "key" [7, 1] .workDone]) :=
  innerJoinHash_emitsOnce_iff (numberTable_wellFormed "id" [3] .workDone)
    (numberTable_disjoint (by decide) _ _ _ _) (greaterFilter_joinFilter _ _ _ _)
    (by simp [greaterFilter]) (numberTable_snapshots "key" [7] [1])

/-- The pair (3, 1) is in the first part, and is emitted again with the
second. -/
theorem innerJoinHash_emits_twice :
    joinPairs greaterFilter (numberTable "id" [3] .workDone).tableData
      (numberTable "key" [1, 2] .workDone).tableData 1 2 = [(0, 0), (0, 1)] ∧
    (innerJoinHash greaterFilter (numberTable "id" [3] .workDone)
      [numberTable "key" [1] .notFinished, numberTable "key" [1, 2] .workDone]).map
        TableData.rowCount = some 3 ∧
    ¬ ∃ target, innerJoinHash greaterFilter (numberTable "id" [3] .workDone)
        [numberTable "key" [1] .notFinished, numberTable "key" [1, 2] .workDone] = some target ∧
      EmitsOnce greaterFilter (numberTable "id" [3] .workDone).tableData
        (numberTable "key" [1, 2] .workDone).tableData 1 2 target := by
  have hpairs : joinPairs greaterFilter (numberTable "id" [3] .workDone).tableData
      (numberTable "key" [1, 2] .workDone).tableData 1 2 = [(0, 0), (0, 1)] := by decide
  have hrows : (innerJoinHash greaterFilter (numberTable "id" [3] .workDone)
      [numberTable "key" [1] .notFinished, numberTable "key" [1, 2] .workDone]).map
        TableData.rowCount = some 3 := by rfl
  refine ⟨hpairs, hrows, ?_⟩
  rintro ⟨target, hrun, pairs, hperm, hholds⟩
  rw [hrun, Option.map_some, Option.some.injEq, hholds.count, hperm.length_eq, hpairs] at hrows
  exact absurd hrows (by decide)

end KetiEngine.Merging
