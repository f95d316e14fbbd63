import KetiEngine.Merging.Delivery
import KetiEngine.Merging.Save
import KetiEngine.Snippet

/-!
# Union — UNION ALL

`Union` copies the columns of the finished left table and appends to each the
new rows of the right table as they are delivered. The row count of a column
grows by the row count of the whole delivered column, so it counts rows of an
earlier part again.
-/

namespace KetiEngine.Merging

open KetiEngine Loops

/-! ## The source functions -/

/-- `vec.insert(vec.end(), begin() + row_index, begin() + end)`, by the type
of the column. -/
def unionValues (c : ColData) (rowIndex stop : Int) (d : ColData) : Option ColData :=
  match c.type with
  | .int | .date => (WorkBuffer.slice c.intvec rowIndex stop).map fun ns =>
      { d with intvec := d.intvec ++ ns }
  | .string => (WorkBuffer.slice c.strvec rowIndex stop).map fun ss =>
      { d with strvec := d.strvec ++ ss }
  | .float => (WorkBuffer.slice c.floatvec rowIndex stop).map fun xs =>
      { d with floatvec := d.floatvec ++ xs, realSize := c.realSize }
  | .empty | .boolean => some d

/-- One column; its row count grows by the row count of `c`. -/
def unionColumn (rowIndex stop : Int) (c d : ColData) : Option ColData := do
  let d ← unionValues c rowIndex stop d
  let isnull ← WorkBuffer.slice c.isnull rowIndex stop
  pure { d with
    rowCount := d.rowCount + c.rowCount
    isnull := d.isnull ++ isnull
    type := c.type }

/-- What the loop does with a delivered table that has new rows. -/
def unionDelivered (rowIndex : Int) (right target : TableData) : Option TableData := do
  let tableData ← right.tableData.entries.foldlM
    (fun t e => (unionColumn rowIndex right.rowCount e.2 (t.get e.1)).map (t.insert e.1 ·))
    target.tableData
  pure { target with tableData }

/-- The loop over what `GetTableData` delivers: `target_table_` and
`right_table_` at its end. -/
def unionLoop : Int → TableData → List TableData → Option (TableData × TableData)
  | _, _, [] => none
  | rowIndex, target, right :: delivered =>
      if rowIndex = right.rowCount ∧ right.status = .workDone then some (target, right)
      else if rowIndex = right.rowCount ∧ right.status ≠ .workDone then
        unionLoop rowIndex target delivered
      else do
        let target ← unionDelivered rowIndex right target
        if right.status = .workDone then pure (target, right)
        else unionLoop right.rowCount target delivered

/-- `Union`: `target_table_` at its end. Without filters it is UNION, which
does nothing. -/
def union (filtering : List Filter) (left : TableData) (delivered : List TableData) :
    Option TableData :=
  if filtering.length = 0 then some {}
  else do
    let (target, right) ← unionLoop 0 { tableData := left.tableData } delivered
    pure { target with rowCount := left.rowCount + right.rowCount }

/-! ## One column -/

theorem getElem?_append_old {α : Type} {u s : List α} {p i : Nat} (hu : u.length = p)
    (hi : i < p) : (u ++ s)[i]? = u[i]? :=
  List.getElem?_append_left (hu.symm ▸ hi)

theorem getElem?_append_slice {α : Type} {u v : List α} {p k k' j : Nat} (hu : u.length = p)
    (hkj : k ≤ j) (hj : j < k') : (u ++ (v.take k').drop k)[p + (j - k)]? = v[j]? := by
  have hsub : p + (j - k) - u.length = j - k := by omega
  have hpos : k + (j - k) = j := by omega
  rw [List.getElem?_append_right (by omega), hsub, getElem?_slice v (by omega), hpos]

/-- `d'` is `d` with the rows `k`, …, `k' - 1` of `c` behind its `p` rows; the
row count has grown by `k'`. -/
structure Appended (c d d' : ColData) (p k k' : Nat) : Prop where
  type : d'.type = c.type
  vec : d'.vecLength = p + (k' - k)
  null : d'.isnull.length = p + (k' - k)
  count : d'.rowCount = d.rowCount + k'
  old : ∀ i < p, d'.cell? i = d.cell? i
  new : ∀ j, k ≤ j → j < k' → d'.cell? (p + (j - k)) = c.cell? j

/-- **One column** gets the new rows. -/
theorem unionColumn_spec {c d : ColData} {p k k' : Nat} (hc : c.HasLength k') (hs : c.Stored)
    (htype : d.type = c.type) (hvec : d.vecLength = p) (hnull : d.isnull.length = p)
    (hk : k ≤ k') :
    ∃ d', unionColumn k k' c d = some d' ∧ Appended c d d' p k k' := by
  have hlen := hc.vec
  have hslice := slice_of_le hk (Nat.le_of_eq hc.null.symm)
  have hflags : ((c.isnull.take k').drop k).length = k' - k := by simp [hc.null]
  unfold ColData.vecLength at hlen hvec
  rw [htype] at hvec
  unfold unionColumn unionValues
  rcases hs with ht | ht | ht | ht
  all_goals
    simp only [ht] at hlen hvec htype ⊢
    rw [slice_of_le hk (Nat.le_of_eq hlen.symm), hslice]
    refine ⟨_, rfl, ?_⟩
    constructor
    case type => simp only [ht]
    case vec =>
      simp only [ColData.vecLength, List.length_append, List.length_drop, List.length_take]
      omega
    case null =>
      simp only [List.length_append, hflags]
      omega
    case count => simp only [hc.count]
    case old =>
      intro i hi
      simp only [ColData.cell?, ColData.value?, htype, getElem?_append_old hvec hi,
        getElem?_append_old hnull hi]
    case new =>
      intro j hkj hj
      simp only [ColData.cell?, ColData.value?, ht, getElem?_append_slice hvec hkj hj,
        getElem?_append_slice hnull hkj hj]

/-! ## The loop -/

/-- The columns of `target` hold the `n` left rows and the first `k` right
rows; their row counts have grown by `total`. -/
structure UnionState (left right : ColMap) (n k total : Nat) (target : TableData) : Prop where
  names : ∀ name, name ∈ target.tableData ↔ name ∈ left
  type : ∀ name ∈ left, (target.tableData.get name).type = (right.get name).type
  vec : ∀ name ∈ left, (target.tableData.get name).vecLength = n + k
  null : ∀ name ∈ left, (target.tableData.get name).isnull.length = n + k
  count : ∀ name ∈ left, (target.tableData.get name).rowCount = n + total
  leftCells : ∀ name ∈ left, ∀ i < n,
    (target.tableData.get name).cell? i = (left.get name).cell? i
  rightCells : ∀ name ∈ left, ∀ j < k,
    (target.tableData.get name).cell? (n + j) = (right.get name).cell? j

/-- The two tables have the same columns, of the same types. -/
structure SameColumns (left right : ColMap) : Prop where
  names : ∀ name, name ∈ left ↔ name ∈ right
  type : ∀ name ∈ left, (left.get name).type = (right.get name).type

section
variable {left : TableData} {right : ColMap} {n m k total : Nat} {target : TableData}

theorem unionState_init (hleft : left.WellFormed n) (hsame : SameColumns left.tableData right) :
    UnionState left.tableData right n 0 0 { tableData := left.tableData } := by
  constructor
  case names => exact fun _ => Iff.rfl
  case type => exact hsame.type
  case vec => exact fun name hname => (hleft.column name hname).vec
  case null => exact fun name hname => (hleft.column name hname).null
  case count => exact fun name hname => (hleft.column name hname).count
  case leftCells => exact fun _ _ _ _ => rfl
  case rightCells => exact nofun

/-- **A delivered part** adds its new rows, and its row count. -/
theorem unionDelivered_spec (hsame : SameColumns left.tableData right) {table : TableData}
    (hpart : PartOf table.tableData right m) (hcount : table.rowCount = m) (hk : k ≤ m)
    (h : UnionState left.tableData right n k total target) :
    ∃ target', unionDelivered k table target = some target' ∧
      UnionState left.tableData right n m (total + m) target' := by
  have hpartNames : ∀ name, name ∈ table.tableData ↔ name ∈ left.tableData := fun name =>
    (hpart.names name).trans (hsame.names name).symm
  have hcolumn : ∀ name ∈ table.tableData, ∃ d', unionColumn k table.rowCount
      (table.tableData.get name) (target.tableData.get name) = some d' ∧
      Appended (table.tableData.get name) (target.tableData.get name) d' (n + k) k m := by
    intro name hname
    have hl := (hpartNames name).mp hname
    rw [hcount]
    exact unionColumn_spec (hpart.length name hname) (hpart.stored name hname)
      ((h.type name hl).trans (hpart.grown name hname).type.symm) (h.vec name hl) (h.null name hl)
      hk
  obtain ⟨td, hrun, hnames, -, hget⟩ := ColMap.foldlM_entries
    (f := unionColumn k table.rowCount)
    (g := fun name => (unionColumn k table.rowCount (table.tableData.get name)
      (target.tableData.get name)).getD {}) fun name hname => by
      obtain ⟨d', hd', -⟩ := hcolumn name hname
      rw [hd', Option.getD_some]
  have happended : ∀ name ∈ left.tableData, Appended (table.tableData.get name)
      (target.tableData.get name) (td.get name) (n + k) k m := by
    intro name hname
    have hp := (hpartNames name).mpr hname
    obtain ⟨d', hd', hcol⟩ := hcolumn name hp
    rw [hget name hp, hd', Option.getD_some]
    exact hcol
  refine ⟨{ target with tableData := td }, by simp [unionDelivered, hrun], ?_⟩
  have hgrown : n + k + (m - k) = n + m := by omega
  constructor
  case names =>
    intro name
    rw [hnames, h.names, hpartNames, or_self]
  case type =>
    intro name hname
    rw [(happended name hname).type, (hpart.grown name ((hpartNames name).mpr hname)).type]
  case vec => exact fun name hname => hgrown ▸ (happended name hname).vec
  case null => exact fun name hname => hgrown ▸ (happended name hname).null
  case count =>
    intro name hname
    rw [(happended name hname).count, h.count name hname]
    push_cast
    omega
  case leftCells =>
    intro name hname i hi
    rw [(happended name hname).old i (by omega), h.leftCells name hname i hi]
  case rightCells =>
    intro name hname j hj
    by_cases hjk : j < k
    · rw [(happended name hname).old (n + j) (by omega), h.rightCells name hname j hjk]
    · -- a new row, which the part and the whole have alike
      have hp := (hpartNames name).mpr hname
      have hnew := (happended name hname).new j (by omega) hj
      have hpos : n + k + (j - k) = n + j := by omega
      rw [hpos] at hnew
      rw [hnew]
      obtain ⟨x, hx⟩ := ColData.cell?_isSome (hpart.length name hp) hj
      rw [hx, (hpart.grown name hp).cell? hx]

end

/-- The loop of `Union` is the loop over a delivered table, which ends with
the first table that is finished. -/
theorem unionLoop_eq (rowIndex : Int) (first : Bool) (target : TableData)
    (delivered : List TableData) :
    unionLoop rowIndex target delivered =
      (deliveredLoop (fun rowIndex _ => unionDelivered rowIndex) rowIndex first target
        delivered).bind fun target =>
          (delivered.find? (·.status = .workDone)).map fun right => (target, right) := by
  induction delivered generalizing rowIndex first target with
  | nil => rfl
  | cons t delivered ih =>
    rw [unionLoop, deliveredLoop]
    by_cases hdone : t.status = .workDone
    · rw [List.find?_cons_of_pos (by simp [hdone])]
      by_cases hrow : rowIndex = t.rowCount
      · simp [hdone, hrow]
      · simp only [hrow, hdone, false_and, if_false, if_true]
        cases unionDelivered rowIndex t target <;> rfl
    · rw [List.find?_cons_of_neg (by simp [hdone])]
      by_cases hrow : rowIndex = t.rowCount
      · simp [hdone, hrow, ih t.rowCount first]
      · simp only [hrow, hdone, false_and, if_false]
        cases unionDelivered rowIndex t target with
        | none => rfl
        | some target' => exact ih t.rowCount false target'

theorem Snapshots.find?_finished {delivered : List TableData} {final : TableData} {m : Nat}
    (h : Snapshots delivered final m) :
    delivered.find? (·.status = .workDone) = some final := by
  obtain ⟨before, rfl⟩ := h.last
  have hbefore : before.find? (·.status = .workDone) = none := by
    rw [List.find?_eq_none]
    intro t ht
    simpa using h.unfinished t (by simpa using ht)
  simp [List.find?_append, hbefore, h.finished]

/-- The run of `Union`: the row counts of the columns are the left rows and
the row counts of all parts. -/
theorem union_state {left final : TableData} {n m : Nat} (hleft : left.WellFormed n)
    (hsame : SameColumns left.tableData final.tableData) {filtering : List Filter}
    (hfiltering : filtering ≠ []) {delivered : List TableData}
    (hsnapshots : Snapshots delivered final m) :
    ∃ target, union filtering left delivered = some target ∧ target.rowCount = n + m ∧
      UnionState left.tableData final.tableData n m (partCounts 0 delivered).sum target := by
  have hround : ∀ (t : TableData) (done : List Nat) (k' : Nat) (_ : Bool) (target : TableData),
      PartOf t.tableData final.tableData k' → t.rowCount = k' → done.getLastD 0 < k' → k' ≤ m →
      UnionState left.tableData final.tableData n (done.getLastD 0) done.sum target →
      ∃ target', unionDelivered (done.getLastD 0) t target = some target' ∧
        UnionState left.tableData final.tableData n ((done ++ [k']).getLastD 0)
          (done ++ [k']).sum target' := by
    intro t done k' _ target hpart hcount hk _ h
    obtain ⟨target', hrun, htarget⟩ := unionDelivered_spec hsame hpart hcount (Nat.le_of_lt hk) h
    refine ⟨target', hrun, ?_⟩
    rw [List.getLastD_concat, List.sum_append, List.sum_singleton]
    exact htarget
  obtain ⟨target, first, hrun, -, hstate⟩ := @deliveredLoop_history TableData
    (fun rowIndex _ => unionDelivered rowIndex) final m (fun done _ target =>
      UnionState left.tableData final.tableData n (done.getLastD 0) done.sum target)
    hround delivered hsnapshots [] false _ hsnapshots.nonneg nofun (unionState_init hleft hsame)
  have hlast : (partCounts 0 delivered).getLastD 0 = m :=
    hsnapshots.getLastD_partCounts hsnapshots.nonneg
  have hstate : UnionState left.tableData final.tableData n m (partCounts 0 delivered).sum target :=
    hlast ▸ hstate
  refine ⟨{ target with rowCount := left.rowCount + final.rowCount }, ?_, ?_, hstate.names,
    hstate.type, hstate.vec, hstate.null, hstate.count, hstate.leftCells, hstate.rightCells⟩
  · have hlength : ¬ filtering.length = 0 := by simpa using hfiltering
    have hloop : deliveredLoop (fun rowIndex _ => unionDelivered rowIndex) 0 false
        { tableData := left.tableData } delivered = some target := hrun
    rw [union, if_neg hlength, unionLoop_eq 0 false, hloop, Option.bind_some,
      hsnapshots.find?_finished]
    rfl
  · rw [hleft.count, hsnapshots.wellFormed.count]

/-! ## The rows of both tables -/

/-- `target` is the `n` left rows followed by the `m` right rows. -/
structure Concatenates (left right : ColMap) (n m : Nat) (target : TableData) : Prop where
  count : target.rowCount = n + m
  names : ∀ name, name ∈ target.tableData ↔ name ∈ left
  length : ∀ name ∈ left, (target.tableData.get name).HasLength (n + m)
  type : ∀ name ∈ left, (target.tableData.get name).type = (left.get name).type
  leftCells : ∀ name ∈ left, ∀ i < n,
    (target.tableData.get name).cell? i = (left.get name).cell? i
  rightCells : ∀ name ∈ left, ∀ j < m,
    (target.tableData.get name).cell? (n + j) = (right.get name).cell? j

/-- The row counts of the parts add up to the rows of the table when no
delivered table has only some of the rows. -/
theorem Snapshots.sum_partCounts {delivered : List TableData} {final : TableData} {m : Nat}
    (h : Snapshots delivered final m) :
    (partCounts 0 delivered).sum = m ↔ ∀ t ∈ delivered, t.rowCount = 0 ∨ t.rowCount = m := by
  obtain ⟨hnone, hsome⟩ := h.partCounts_eq h.nonneg
  have hle : ∀ t ∈ delivered, 0 ≤ t.rowCount ∧ t.rowCount ≤ m := fun t ht =>
    ⟨h.nonneg t ht, h.wellFormed.count ▸ (h.extends_final ht).count⟩
  by_cases hm : 0 = m
  · subst hm
    rw [hnone rfl]
    refine ⟨fun _ t ht => ?_, fun _ => rfl⟩
    obtain ⟨hpos, hmax⟩ := hle t ht
    exact .inl (Int.le_antisymm hmax hpos)
  · obtain ⟨earlier, heq, hmem⟩ := hsome hm
    rw [heq, List.sum_append, List.sum_singleton, Nat.add_eq_right]
    constructor
    · intro hsum t ht
      by_contra hmid
      obtain ⟨hpos, hmax⟩ := hle t ht
      obtain ⟨k, hk⟩ := Int.eq_ofNat_of_zero_le hpos
      have hearlier : k ∈ earlier := (hmem k).mpr ⟨by omega, by omega, t, ht, hk⟩
      have hzero := List.sum_eq_zero_iff_forall_eq_nat.mp hsum k hearlier
      omega
    · intro hall
      have hnil : earlier = [] := by
        refine List.eq_nil_iff_forall_not_mem.mpr fun k hk => ?_
        obtain ⟨hpos, hlt, t, ht, hcount⟩ := (hmem k).mp hk
        have := hall t ht
        omega
      rw [hnil]
      rfl

/-- **UNION ALL** concatenates the tables exactly where they have no columns
or no delivered table has only some of the right rows. -/
theorem union_concatenates_iff {left final : TableData} {n m : Nat} (hleft : left.WellFormed n)
    (hsame : SameColumns left.tableData final.tableData) {filtering : List Filter}
    (hfiltering : filtering ≠ []) {delivered : List TableData}
    (hsnapshots : Snapshots delivered final m) :
    (∃ target, union filtering left delivered = some target ∧
      Concatenates left.tableData final.tableData n m target) ↔
      ((∃ name, name ∈ left.tableData) →
        ∀ t ∈ delivered, t.rowCount = 0 ∨ t.rowCount = m) := by
  obtain ⟨target, hrun, hcount, hstate⟩ := union_state hleft hsame hfiltering hsnapshots
  rw [← hsnapshots.sum_partCounts]
  constructor
  · rintro ⟨target', hrun', hconcat⟩ ⟨name, hname⟩
    obtain rfl := Option.some.inj (hrun.symm.trans hrun')
    have hone := (hconcat.length name hname).count
    rw [hstate.count name hname] at hone
    omega
  · intro hsum
    refine ⟨target, hrun, hcount, hstate.names, fun name hname => ?_, fun name hname => ?_,
      hstate.leftCells, hstate.rightCells⟩
    · refine ⟨hstate.vec name hname, hstate.null name hname, ?_⟩
      rw [hstate.count name hname, hsum ⟨name, hname⟩]
      push_cast
      rfl
    · rw [hstate.type name hname, hsame.type name hname]

theorem numberTable_sameColumns (name : String) (ns ms : List Int)
    (status status' : WorkStatus) :
    SameColumns (numberTable name ns status).tableData (numberTable name ms status').tableData := by
  refine ⟨fun other => mem_numberTable.trans mem_numberTable.symm, fun other hother => ?_⟩
  obtain rfl := mem_numberTable.mp hother
  rw [get_numberTable, get_numberTable]

/-- The filter that says `ALL`. -/
def allFilter : List Filter := [{ operator := .and }]

/-- The right table arrives after a part without rows. -/
theorem union_concatenates_whole :
    (∃ target, union allFilter (numberTable "n" [1] .workDone)
        [numberTable "n" [] .notFinished, numberTable "n" [2, 3] .workDone] = some target ∧
      Concatenates (numberTable "n" [1] .workDone).tableData
        (numberTable "n" [2, 3] .workDone).tableData 1 2 target) ↔
      ((∃ name, name ∈ (numberTable "n" [1] .workDone).tableData) →
        ∀ t ∈ [numberTable "n" [] .notFinished, numberTable "n" [2, 3] .workDone],
          t.rowCount = 0 ∨ t.rowCount = (2 : Nat)) :=
  union_concatenates_iff (numberTable_wellFormed "n" [1] .workDone)
    (numberTable_sameColumns "n" [1] [2, 3] _ _) (by simp [allFilter])
    (numberTable_snapshots "n" [] [2, 3])

/-- One left row and two right rows in two parts: the column holds three
values and counts four. -/
theorem union_counts_twice :
    (union allFilter (numberTable "n" [1] .workDone)
      [numberTable "n" [2] .notFinished, numberTable "n" [2, 3] .workDone]).map (fun target =>
        (target.rowCount, (target.tableData.get "n").intvec,
          (target.tableData.get "n").rowCount)) = some (3, [1, 2, 3], 4) ∧
    ¬ ∃ target, union allFilter (numberTable "n" [1] .workDone)
        [numberTable "n" [2] .notFinished, numberTable "n" [2, 3] .workDone] = some target ∧
      Concatenates (numberTable "n" [1] .workDone).tableData
        (numberTable "n" [2, 3] .workDone).tableData 1 2 target := by
  have hrun : (union allFilter (numberTable "n" [1] .workDone)
      [numberTable "n" [2] .notFinished, numberTable "n" [2, 3] .workDone]).map (fun target =>
        (target.rowCount, (target.tableData.get "n").intvec,
          (target.tableData.get "n").rowCount)) = some (3, [1, 2, 3], 4) := by rfl
  refine ⟨hrun, ?_⟩
  rintro ⟨target, htarget, hconcat⟩
  rw [htarget, Option.map_some, Option.some.injEq, Prod.mk.injEq, Prod.mk.injEq] at hrun
  have hcount := (hconcat.length "n" (mem_numberTable.mpr rfl)).count
  rw [hrun.2.2] at hcount
  exact absurd hcount (by decide)

end KetiEngine.Merging
