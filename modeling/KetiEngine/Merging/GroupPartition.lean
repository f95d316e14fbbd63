import KetiEngine.Merging.GroupBy
import KetiEngine.Merging.Selection

/-!
# GroupPartition — groups as a partition, and what a key tells

`GroupBy` splits the rows of a table by their keys: every row in one group, the
groups in the order of first appearance. A key is the trimmed texts of the
group columns behind separators, so it tells the rows apart as far as the
separators can be told from the texts.
-/

namespace KetiEngine.Merging

open KetiEngine Separated

section
variable {t : TableData} {n : Nat} {groups : List String}

/-! ## The key of a row -/

/-- One group column, of which some strings have been trimmed. -/
theorem groupbyKeyStep_trimOf {m table : ColMap}
    (htrim : ∀ name, TrimOf (table.get name) (m.get name)) {name : String}
    (hstored : (m.get name).Stored) {r : Nat} {v : Value} (hv : (m.get name).value? r = some v)
    (key : String) :
    ∃ table', groupbyKeyStep r (key, table) name =
        some (key ++ ("|" ++ (trimValue v).text), table') ∧
      ∀ other, TrimOf (table'.get other) (m.get other) := by
  have hcolumn := htrim name
  unfold ColData.value? at hv
  rcases hstored with h | h | h | h <;> simp only [h, Option.map_eq_some_iff] at hv
  case inl =>
    obtain ⟨str, hstr, rfl⟩ := hv
    obtain ⟨s, hs, hstrip⟩ := hcolumn.getElem? hstr
    refine ⟨_, ?_, trimOf_insert htrim hs⟩
    simp [groupbyKeyStep, hcolumn.type, h, hs, hstrip, trimValue, Value.text]
  all_goals
    obtain ⟨a, ha, rfl⟩ := hv
    refine ⟨table, ?_, htrim⟩
    rw [groupbyKeyStep, hcolumn.rest]
    simp only [h, ha]
    rfl

/-- **The key of a row** is the same however many cells of the table have been
trimmed before. -/
theorem makeGroupbyKey_key (hw : t.WellFormed n) (hgroups : ∀ name ∈ groups, name ∈ t.tableData)
    {table : ColMap} (htable : ∀ name, TrimOf (table.get name) (t.tableData.get name)) {r : Nat}
    (hr : r < n) :
    ∃ table', makeGroupbyKey table groups r = some (groupKey t groups r, table') ∧
      ∀ name, TrimOf (table'.get name) (t.tableData.get name) := by
  obtain ⟨⟨key, table'⟩, hrun, hkey, htrim⟩ := Loops.foldlM_total
    (f := groupbyKeyStep r) (l := groups) (s := ("", table))
    (P := fun done s => s.1 = String.ofList (joined '|' (done.map (textAt (trimmed t groups) r))) ∧
      ∀ name, TrimOf (s.2.get name) (t.tableData.get name))
    ⟨rfl, htable⟩
    (by
      intro done name rest ⟨key, table⟩ hsplit ⟨hkey, htrim⟩
      simp only at hkey htrim
      have hname : name ∈ groups := by simp [hsplit]
      have hin := hgroups name hname
      obtain ⟨v, hv⟩ := ColData.value?_isSome (hw.column name hin) hr
      obtain ⟨table', hstep, htrim'⟩ := groupbyKeyStep_trimOf htrim (hw.stored name hin) hv key
      refine ⟨_, hstep, ?_, htrim'⟩
      apply String.toList_inj.mp
      simp [hkey, textAt_trimmed hw hname hin hr hv, joined])
  have hkey : key = groupKey t groups r := hkey
  exact ⟨table', by rw [makeGroupbyKey, hrun, hkey], htrim⟩

/-- The key `makeGroupbyKey` gives a row of the table. -/
def keyOfRow (t : TableData) (groups : List String) (r : Nat) : Option String :=
  (makeGroupbyKey t.tableData groups r).map Prod.fst

theorem keyOfRow_eq (hw : t.WellFormed n) (hgroups : ∀ name ∈ groups, name ∈ t.tableData) {r : Nat}
    (hr : r < n) : keyOfRow t groups r = some (groupKey t groups r) := by
  obtain ⟨table', hkey, -⟩ := makeGroupbyKey_key hw hgroups (fun name => .refl _) hr
  rw [keyOfRow, hkey]
  rfl

/-! ## The partition -/

/-- `parts` are the rows below `n` split by `key`: each row once, in order,
with the rows of its key, and the parts numbered in order of first
appearance. -/
structure PartitionBy (key : Nat → Option String) (n : Nat) (parts : List (List Nat)) : Prop where
  once : parts.flatten.Perm (List.range n)
  nonempty : ∀ rows ∈ parts, rows ≠ []
  ordered : ∀ rows ∈ parts, rows.Pairwise (· < ·)
  sameKey : ∀ (i j : Nat) rows rows', parts[i]? = some rows → parts[j]? = some rows' →
    ∀ r ∈ rows, ∀ r' ∈ rows', i = j ↔ key r = key r'
  firsts : parts.Pairwise fun rows rows' =>
    ∀ a b, rows.head? = some a → rows'.head? = some b → a < b

/-- The rows of the keys are a partition. -/
theorem groupRows_partition (hw : t.WellFormed n)
    (hgroups : ∀ name ∈ groups, name ∈ t.tableData) :
    PartitionBy (keyOfRow t groups) n ((groupKeys t groups n).map (groupRows t groups n)) := by
  have hpart : ∀ (i : Nat) rows,
      ((groupKeys t groups n).map (groupRows t groups n))[i]? = some rows →
      ∃ key, (groupKeys t groups n)[i]? = some key ∧ rows = groupRows t groups n key := by
    intro i rows hi
    rw [List.getElem?_map] at hi
    obtain ⟨key, hkey, rfl⟩ := Option.map_eq_some_iff.mp hi
    exact ⟨key, hkey, rfl⟩
  constructor
  case once =>
    rw [← List.flatMap_def]
    exact Groups.flatMap_group_perm (groupKey t groups) (List.range n)
  case nonempty =>
    intro rows hrows
    obtain ⟨key, hkey, rfl⟩ := List.mem_map.mp hrows
    exact Groups.group_ne_nil _ hkey
  case ordered =>
    intro rows hrows
    obtain ⟨key, -, rfl⟩ := List.mem_map.mp hrows
    exact List.pairwise_lt_range.filter _
  case sameKey =>
    intro i j rows rows' hi hj r hr r' hr'
    obtain ⟨key, hkey, rfl⟩ := hpart i rows hi
    obtain ⟨key', hkey', rfl⟩ := hpart j rows' hj
    obtain ⟨hn, hrkey⟩ := List.mem_filter.mp hr
    obtain ⟨hn', hrkey'⟩ := List.mem_filter.mp hr'
    rw [keyOfRow_eq hw hgroups (List.mem_range.mp hn),
      keyOfRow_eq hw hgroups (List.mem_range.mp hn'), of_decide_eq_true hrkey,
      of_decide_eq_true hrkey', Option.some.injEq]
    constructor
    · rintro rfl
      exact Option.some.inj (hkey.symm.trans hkey')
    · rintro rfl
      have hlt : i < (groupKeys t groups n).length := (List.getElem?_eq_some_iff.mp hkey).1
      exact (List.getElem?_inj hlt (Groups.nodup_keysOf _ _)).mp (hkey.trans hkey'.symm)
  case firsts =>
    rw [List.pairwise_map]
    exact Groups.pairwise_head_group (groupKey t groups) List.pairwise_lt_range

theorem GroupTable.holdsSelection (hw : t.WellFormed n)
    (hgroups : ∀ name ∈ groups, name ∈ t.tableData) {rows : List Nat} {g : TableData}
    (h : GroupTable (trimmed t groups) rows g) (hne : rows ≠ []) (hrows : ∀ r ∈ rows, r < n) :
    HoldsSelection (trimmed t groups) rows g := by
  have hkept : Kept (trimmed t groups) false rows g :=
    ⟨h.count, h.copies, fun _ => h.typed, fun name => by simp [h.names, hne]⟩
  exact hkept.holdsSelection (trimmed_wellFormed hw hgroups).column hrows nofun

/-- **`GroupBy` partitions the table** by the keys of its rows, and every group
has all columns of the trimmed table. -/
theorem groupBy_partition (hw : t.WellFormed n) (hn : 0 < n)
    (hgroups : ∀ name ∈ groups, name ∈ t.tableData) :
    ∃ dest parts, groupBy t groups = some dest ∧ PartitionBy (keyOfRow t groups) n parts ∧
      List.Forall₂ (HoldsSelection (trimmed t groups)) parts dest := by
  obtain ⟨dest, hrun, htables⟩ := groupBy_spec hw hn hgroups
  refine ⟨dest, _, hrun, groupRows_partition hw hgroups, ?_⟩
  rw [List.forall₂_map_left_iff, List.forall₂_iff_get]
  obtain ⟨hlength, htable⟩ := List.forall₂_iff_get.mp htables
  refine ⟨hlength, fun i hi hi' => ?_⟩
  obtain ⟨hne, hrows⟩ := groupRows_of_mem (List.get_mem (groupKeys t groups n) ⟨i, hi⟩)
  exact (htable i hi hi').holdsSelection hw hgroups hne hrows

/-- Three numbers, of which two are equal. -/
theorem groupBy_partition_numbers :
    ∃ dest parts, groupBy (numberTable "n" [7, 5, 7] .workDone) ["n"] = some dest ∧
      PartitionBy (keyOfRow (numberTable "n" [7, 5, 7] .workDone) ["n"]) 3 parts ∧
      List.Forall₂ (HoldsSelection (trimmed (numberTable "n" [7, 5, 7] .workDone) ["n"]))
        parts dest :=
  groupBy_partition (numberTable_wellFormed "n" [7, 5, 7] .workDone) (by decide)
    fun _ hname => mem_numberTable.mpr (List.mem_singleton.mp hname)

/-! ## What a key tells -/

/-- Two rows have equal values in the group columns, strings without their
padding. -/
def EqualTrimmed (t : ColMap) (groups : List String) (r r' : Nat) : Prop :=
  ∀ name ∈ groups, ((t.get name).value? r).map trimValue = ((t.get name).value? r').map trimValue

/-- The trimmed texts of the two rows contain equally many `|`, column by
column. -/
def EqualBars (t : TableData) (groups : List String) (r r' : Nat) : Prop :=
  ∀ name ∈ groups, (textAt (trimmed t groups) r name).count '|' =
    (textAt (trimmed t groups) r' name).count '|'

/-- The group columns are STRING, INT and DATE columns of the table. -/
def GroupColumns (t : ColMap) (groups : List String) : Prop :=
  ∀ name ∈ groups, name ∈ t ∧
    ((t.get name).type = .int ∨ (t.get name).type = .date ∨ (t.get name).type = .string)

/-- Equal trimmed texts are equal trimmed values. -/
theorem equalTrimmed_iff (hw : t.WellFormed n) (hgroups : GroupColumns t.tableData groups)
    {r r' : Nat} (hr : r < n) (hr' : r' < n) :
    EqualTrimmed t.tableData groups r r' ↔
      ∀ name ∈ groups, textAt (trimmed t groups) r name = textAt (trimmed t groups) r' name := by
  refine forall₂_congr fun name hname => ?_
  obtain ⟨hin, hkind⟩ := hgroups name hname
  obtain ⟨v, hv⟩ := ColData.value?_isSome (hw.column name hin) hr
  obtain ⟨v', hv'⟩ := ColData.value?_isSome (hw.column name hin) hr'
  rw [textAt_trimmed hw hname hin hr hv, textAt_trimmed hw hname hin hr' hv', hv, hv',
    Option.map_some, Option.map_some, Option.some.injEq]
  refine ⟨fun h => by rw [h], fun htext => ?_⟩
  -- the trimmed values stand in the trimmed column
  have hcolumn : ∀ i < n, ∀ w, (t.tableData.get name).value? i = some w →
      (trimColumn n (t.tableData.get name)).value? i = some (trimValue w) := by
    intro i hi w hw'
    rw [value?_trimColumn hi (hw.stored name hin), hw']
    rfl
  have hkind : (trimColumn n (t.tableData.get name)).type = .int ∨
      (trimColumn n (t.tableData.get name)).type = .date ∨
      (trimColumn n (t.tableData.get name)).type = .string := by rwa [type_trimColumn]
  exact text_injective rfl hkind (hcolumn r hr v hv) (hcolumn r' hr' v' hv')
    (String.toList_inj.mp htext)

/-- **Group keys are faithful** to the values of two rows if and only if the
rows, when their pieces between `|` are equal, have equally many `|` in each
column. -/
theorem groupKeys_faithful_iff (hw : t.WellFormed n) (hgroups : GroupColumns t.tableData groups)
    {r r' : Nat} (hr : r < n) (hr' : r' < n) :
    ∃ key key' table table', makeGroupbyKey t.tableData groups r = some (key, table) ∧
      makeGroupbyKey table groups r' = some (key', table') ∧
      ((key = key' ↔ EqualTrimmed t.tableData groups r r') ↔
        (cutTexts (trimmed t groups) groups r = cutTexts (trimmed t groups) groups r' →
          EqualBars t groups r r')) := by
  have hmem : ∀ name ∈ groups, name ∈ t.tableData := fun name hname => (hgroups name hname).1
  obtain ⟨table, hkey, htable⟩ := makeGroupbyKey_key hw hmem (fun name => .refl _) hr
  obtain ⟨table', hkey', -⟩ := makeGroupbyKey_key hw hmem htable hr'
  refine ⟨_, _, table, table', hkey, hkey', ?_⟩
  rw [groupKey_eq_iff, equalTrimmed_iff hw hgroups hr hr']
  exact flatMap_splitOn_tells_iff

end

/-- Two rows of two STRING columns. -/
def pairTable (first second : String × String) : TableData where
  tableData := ((∅ : ColMap).insert "a"
    { type := .string, strvec := [first.1, second.1], isnull := [false, false],
      rowCount := 2 }).insert "b"
    { type := .string, strvec := [first.2, second.2], isnull := [false, false], rowCount := 2 }
  rowCount := 2
  status := .workDone

theorem mem_pairTable {first second : String × String} {name : String} :
    name ∈ (pairTable first second).tableData ↔ name = "b" ∨ name = "a" := by
  simp [pairTable, -AList.insert_empty]

theorem pairTable_wellFormed (first second : String × String) :
    (pairTable first second).WellFormed 2 := by
  constructor
  case count => rfl
  case column =>
    intro name hname
    rcases mem_pairTable.mp hname with rfl | rfl <;> exact ⟨rfl, rfl, rfl⟩
  case stored =>
    intro name hname
    rcases mem_pairTable.mp hname with rfl | rfl <;> exact .inl rfl

theorem pairTable_groupColumns (first second : String × String) :
    GroupColumns (pairTable first second).tableData ["a", "b"] := by
  intro name hname
  have hmem : name = "b" ∨ name = "a" := by simpa [or_comm] using hname
  refine ⟨mem_pairTable.mpr hmem, ?_⟩
  rcases hmem with rfl | rfl <;> exact .inr (.inr rfl)

/-- Two rows that are equal up to their padding. -/
theorem groupKeys_faithful_padded :
    ∃ key key' table table',
      makeGroupbyKey (pairTable ("x ", "z") ("x", "z")).tableData ["a", "b"] 0 = some (key, table) ∧
      makeGroupbyKey table ["a", "b"] 1 = some (key', table') ∧
      ((key = key' ↔ EqualTrimmed (pairTable ("x ", "z") ("x", "z")).tableData ["a", "b"] 0 1) ↔
        (cutTexts (trimmed (pairTable ("x ", "z") ("x", "z")) ["a", "b"]) ["a", "b"] 0 =
            cutTexts (trimmed (pairTable ("x ", "z") ("x", "z")) ["a", "b"]) ["a", "b"] 1 →
          EqualBars (pairTable ("x ", "z") ("x", "z")) ["a", "b"] 0 1)) :=
  groupKeys_faithful_iff (pairTable_wellFormed ("x ", "z") ("x", "z"))
    (pairTable_groupColumns ("x ", "z") ("x", "z")) (by decide) (by decide)

/-- The rows `x|y`, `z` and `x`, `y|z` have one key. -/
theorem groupKeys_collide :
    ¬ EqualTrimmed (pairTable ("x|y", "z") ("x", "y|z")).tableData ["a", "b"] 0 1 ∧
    keyOfRow (pairTable ("x|y", "z") ("x", "y|z")) ["a", "b"] 0 = some "|x|y|z" ∧
    keyOfRow (pairTable ("x|y", "z") ("x", "y|z")) ["a", "b"] 1 = some "|x|y|z" := by
  unfold EqualTrimmed
  decide

end KetiEngine.Merging
