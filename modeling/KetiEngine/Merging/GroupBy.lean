import KetiEngine.Lib.Groups
import KetiEngine.Merging.Aggregation
import KetiEngine.Merging.CopyRow
import KetiEngine.Merging.HashKey

/-!
# GroupBy — one table for each group

`makeGroupbyKey` and `GroupBy`, and what they leave: a table for each key in
the order of first appearance, with the rows of that key. Making a key trims
the STRING cells of the group columns in the table itself, so the rows that
are copied are those of the trimmed table.
-/

namespace KetiEngine.Merging

open KetiEngine Separated

/-! ## The source loops -/

/-- One group column of `makeGroupbyKey`: the key and the table, in which
`trim` works in place and a missing column is created. -/
def groupbyKeyStep (rowIndex : Nat) (s : String × ColMap) (name : String) :
    Option (String × ColMap) :=
  let c := s.2.get name
  match c.type with
  | .string => c.strvec[rowIndex]?.map fun str =>
      (s.1 ++ ("|" ++ trim str),
        s.2.insert name { c with strvec := c.strvec.set rowIndex (trim str) })
  | .int | .date => c.intvec[rowIndex]?.map fun n => (s.1 ++ ("|" ++ toString n), s.2)
  | .float => c.floatvec[rowIndex]?.map fun x => (s.1 ++ ("|" ++ x.toText), s.2)
  | .empty | .boolean => some (s.1, s.2.insertNew name {})

def makeGroupbyKey (t : ColMap) (groups : List String) (rowIndex : Nat) :
    Option (String × ColMap) :=
  groups.foldlM (groupbyKeyStep rowIndex) ("", t)

/-- The state of the loop over the rows: the table, `group_by_key_` and the
group tables, whose number is `increase_index`. -/
structure GroupState where
  table : ColMap
  groupByKey : AList (fun _ : String => Nat)
  dest : List TableData

/-- The group of a key, created at its first row. -/
def groupIndex (s : GroupState) (key : String) : GroupState × Nat :=
  match s.groupByKey.lookup key with
  | none => ({ s with
      groupByKey := s.groupByKey.insert key s.dest.length
      dest := s.dest ++ [{}] }, s.dest.length)
  | some groupByIndex => (s, groupByIndex)

/-- One row of `GroupBy`. -/
def groupRow (groups : List String) (s : GroupState) (r : Nat) : Option GroupState := do
  let (key, table) ← makeGroupbyKey s.table groups r
  let (s, groupByIndex) := groupIndex s key
  let group ← s.dest[groupByIndex]?
  let tableData ← copyRow table r group.tableData
  let group := { group with tableData, rowCount := group.rowCount + 1 }
  pure { s with table, dest := s.dest.set groupByIndex group }

/-- `GroupBy` into an empty `group_by_table_`. -/
def groupBy (t : TableData) (groups : List String) : Option (List TableData) :=
  if t.rowCount = 0 then some [t]
  else do
    let s ← (List.range t.rowCount.toNat).foldlM (groupRow groups) ⟨t.tableData, ∅, []⟩
    pure (s.dest.map fun g => { g with tableData := setTypes s.table g.tableData })

/-- The projection part of `RunSnippetWork`: from `target_table_` to
`result_table_`. -/
def columnProjection (t : TableData) (groups : List String) (projections : List Projection)
    (columnAlias : List String) : Option TableData :=
  if groups = [] then aggregation false t projections columnAlias {}
  else do
    let groupByTable ← groupBy t groups
    groupByTable.foldlM (fun result g => aggregation true g projections columnAlias result) {}

/-! ## The trimmed table -/

/-- The first `k` strings trimmed. -/
def trimRows (k : Nat) (l : List String) : List String :=
  l.mapIdx fun i s => if i < k then trim s else s

/-- A column with its first `k` cells trimmed. -/
def trimColumn (k : Nat) (c : ColData) : ColData :=
  if c.type = .string then { c with strvec := trimRows k c.strvec } else c

/-- A table with the first `k` cells of its group columns trimmed. -/
def trimColumns (k : Nat) (t : ColMap) (groups : List String) : ColMap :=
  groups.foldl (fun m name => m.modify name (trimColumn k)) t

/-- The value a query groups by. -/
def trimValue : Value → Value
  | .string s => .string (trim s)
  | v => v

theorem getElem?_trimRows (k : Nat) (l : List String) (i : Nat) :
    (trimRows k l)[i]? = l[i]?.map fun s => if i < k then trim s else s :=
  List.getElem?_mapIdx

theorem trimRows_zero (l : List String) : trimRows 0 l = l := by
  apply List.ext_getElem?
  intro i
  simp [getElem?_trimRows]

theorem trimRows_trimRows (k : Nat) (l : List String) :
    trimRows k (trimRows k l) = trimRows k l := by
  apply List.ext_getElem?
  intro i
  simp only [getElem?_trimRows, Option.map_map]
  congr 1
  funext s
  by_cases hi : i < k <;> simp [hi, trim_trim]

/-- Trimming cell `k` as well; it may be trimmed already. -/
theorem set_trimRows {j k : Nat} (hj : j = k ∨ j = k + 1) {l : List String} {s : String}
    (hs : (trimRows j l)[k]? = some s) :
    (trimRows j l).set k (trim s) = trimRows (k + 1) l := by
  have hk : k < (trimRows j l).length := (List.getElem?_eq_some_iff.mp hs).1
  rw [getElem?_trimRows] at hs
  obtain ⟨str, hstr, hs⟩ := Option.map_eq_some_iff.mp hs
  have htrim : trim s = trim str := by
    rw [← hs]
    by_cases h : k < j <;> simp [h, trim_trim]
  apply List.ext_getElem?
  intro i
  rw [List.getElem?_set, getElem?_trimRows (k + 1)]
  by_cases hi : k = i
  · subst hi
    simp [hk, hstr, htrim]
  · rw [if_neg hi, getElem?_trimRows]
    have hlt : i < j ↔ i < k + 1 := by omega
    simp only [hlt]

theorem type_trimColumn (k : Nat) (c : ColData) : (trimColumn k c).type = c.type := by
  unfold trimColumn
  split <;> rfl

theorem trimColumn_trimColumn (k : Nat) (c : ColData) :
    trimColumn k (trimColumn k c) = trimColumn k c := by
  by_cases h : c.type = .string <;> simp [trimColumn, h, trimRows_trimRows]

theorem mem_trimColumns {k : Nat} {t : ColMap} {groups : List String}
    (hgroups : ∀ name ∈ groups, name ∈ t) {name : String} :
    name ∈ trimColumns k t groups ↔ name ∈ t := by
  induction groups generalizing t with
  | nil => rfl
  | cons g groups ih =>
    have hg : ∀ other, other ∈ t.modify g (trimColumn k) ↔ other ∈ t := by
      intro other
      rw [ColMap.mem_modify]
      exact ⟨fun h => h.elim (fun he => he ▸ hgroups g (by simp)) id, .inr⟩
    have hrest := ih (t := t.modify g (trimColumn k)) fun name hname =>
      (hg name).mpr (hgroups name (by simp [hname]))
    exact hrest.trans (hg name)

theorem get_trimColumns (k : Nat) (t : ColMap) (groups : List String) (name : String) :
    (trimColumns k t groups).get name =
      if name ∈ groups then trimColumn k (t.get name) else t.get name := by
  induction groups generalizing t with
  | nil => simp [trimColumns]
  | cons g groups ih =>
    have hstep : trimColumns k t (g :: groups) = trimColumns k (t.modify g (trimColumn k)) groups :=
      rfl
    rw [hstep, ih]
    by_cases hg : name = g
    · subst hg
      by_cases hmem : name ∈ groups <;> simp [hmem, trimColumn_trimColumn]
    · simp [hg, ColMap.get_modify_ne t (trimColumn k) hg]

/-- The values of the cells trimmed. -/
theorem value?_trimColumn {i k : Nat} (hi : i < k) {c : ColData} (hc : c.Stored) :
    (trimColumn k c).value? i = (c.value? i).map trimValue := by
  unfold ColData.value? trimColumn
  rcases hc with h | h | h | h <;> simp [h, getElem?_trimRows, hi, Option.map_map,
    Function.comp_def, trimValue]

theorem isnull_trimColumn (k : Nat) (c : ColData) : (trimColumn k c).isnull = c.isnull := by
  unfold trimColumn
  split <;> rfl

theorem hasLength_trimColumn {k n : Nat} {c : ColData} (h : c.HasLength n) :
    (trimColumn k c).HasLength n := by
  refine ⟨?_, by rw [isnull_trimColumn, h.null], ?_⟩
  · rw [← h.vec]
    unfold ColData.vecLength trimColumn
    by_cases hc : c.type = .string
    · simp [hc, trimRows]
    · rw [if_neg hc]
  · rw [← h.count]
    unfold trimColumn
    split <;> rfl

/-- `d` is `c` with some of its strings trimmed. -/
structure TrimOf (d c : ColData) : Prop where
  rest : d = { c with strvec := d.strvec }
  str : d.strvec.map trim = c.strvec.map trim

theorem TrimOf.refl (c : ColData) : TrimOf c c := ⟨rfl, rfl⟩

theorem TrimOf.type {d c : ColData} (h : TrimOf d c) : d.type = c.type := by rw [h.rest]

theorem TrimOf.isnull {d c : ColData} (h : TrimOf d c) : d.isnull = c.isnull := by rw [h.rest]

/-- A string of the column may have been trimmed before. -/
theorem TrimOf.getElem? {d c : ColData} (h : TrimOf d c) {r : Nat} {str : String}
    (hstr : c.strvec[r]? = some str) : ∃ s, d.strvec[r]? = some s ∧ trim s = trim str := by
  have hmap : d.strvec[r]?.map trim = some (trim str) := by
    rw [← List.getElem?_map, h.str, List.getElem?_map, hstr, Option.map_some]
  exact Option.map_eq_some_iff.mp hmap

/-- Trimming one more string. -/
theorem TrimOf.set {d c : ColData} (h : TrimOf d c) {r : Nat} {s : String}
    (hs : d.strvec[r]? = some s) : TrimOf { d with strvec := d.strvec.set r (trim s) } c := by
  refine ⟨by rw [h.rest], ?_⟩
  have hset : (d.strvec.map trim).set r (trim s) = d.strvec.map trim := by
    obtain ⟨hr, rfl⟩ := List.getElem?_eq_some_iff.mp hs
    rw [← List.getElem_map (f := trim) (h := by simpa using hr), List.set_getElem_self]
  rw [List.map_set, trim_trim, hset, h.str]

/-- The same in one column of a table. -/
theorem trimOf_insert {m t : ColMap} (h : ∀ name, TrimOf (m.get name) (t.get name)) {name : String}
    {r : Nat} {s : String} (hs : (m.get name).strvec[r]? = some s) (other : String) :
    TrimOf (ColMap.get (m.insert name
      { m.get name with strvec := (m.get name).strvec.set r (trim s) }) other) (t.get other) := by
  by_cases ho : other = name
  · subst ho
    rw [ColMap.get_insert]
    exact (h other).set hs
  · rw [ColMap.get_insert_ne m _ ho]
    exact h other

/-- A column trimmed up to some row. -/
theorem trimOf_trimColumn (k : Nat) (c : ColData) : TrimOf (trimColumn k c) c := by
  unfold trimColumn
  split
  · refine ⟨rfl, ?_⟩
    apply List.ext_getElem?
    intro i
    have hcell : (trim ∘ fun s => if i < k then trim s else s) = trim := by
      funext s
      by_cases hi : i < k <;> simp [hi, trim_trim]
    rw [List.getElem?_map, List.getElem?_map, getElem?_trimRows, Option.map_map, hcell]
  · exact .refl c

/-! ## The keys -/

/-- The table with its group columns trimmed. -/
def trimmed (t : TableData) (groups : List String) : ColMap :=
  trimColumns t.rowCount.toNat t.tableData groups

theorem get_trimmed {t : TableData} {groups : List String} {name : String}
    (h : (t.tableData.get name).type ≠ .string) :
    (trimmed t groups).get name = t.tableData.get name := by
  rw [trimmed, get_trimColumns, trimColumn, if_neg h, ite_self]

theorem type_trimmed (t : TableData) (groups : List String) (name : String) :
    ((trimmed t groups).get name).type = (t.tableData.get name).type := by
  rw [trimmed, get_trimColumns]
  split
  · exact type_trimColumn _ _
  · rfl

theorem isnull_trimmed (t : TableData) (groups : List String) (name : String) :
    ((trimmed t groups).get name).isnull = (t.tableData.get name).isnull := by
  rw [trimmed, get_trimColumns]
  split
  · exact isnull_trimColumn _ _
  · rfl

theorem hasLength_trimmed {t : TableData} {n : Nat} (hw : t.WellFormed n) (groups : List String)
    {name : String} (hname : name ∈ t.tableData) :
    ((trimmed t groups).get name).HasLength n := by
  rw [trimmed, get_trimColumns]
  split
  · exact hasLength_trimColumn (hw.column name hname)
  · exact hw.column name hname

/-- The trimmed table is as well-formed as the table. -/
theorem trimmed_wellFormed {t : TableData} {n : Nat} (hw : t.WellFormed n) {groups : List String}
    (hgroups : ∀ name ∈ groups, name ∈ t.tableData) :
    { t with tableData := trimmed t groups }.WellFormed n := by
  have hmem : ∀ name, name ∈ trimmed t groups ↔ name ∈ t.tableData := fun name =>
    mem_trimColumns hgroups
  constructor
  case count => exact hw.count
  case column => exact fun name hname => hasLength_trimmed hw groups ((hmem name).mp hname)
  case stored =>
    intro name hname
    have hstored := hw.stored name ((hmem name).mp hname)
    unfold ColData.Stored at hstored ⊢
    rwa [type_trimmed]

/-- The key of a row: the trimmed texts of the group columns, each behind a
`|`. -/
def groupKey (t : TableData) (groups : List String) (r : Nat) : String :=
  String.ofList (joined '|' (groups.map (textAt (trimmed t groups) r)))

/-- The text of a group column is that of the trimmed value. -/
theorem textAt_trimmed {t : TableData} {n : Nat} (hw : t.WellFormed n) {groups : List String}
    {name : String} (hname : name ∈ groups) (hin : name ∈ t.tableData) {r : Nat} (hr : r < n)
    {v : Value} (hv : (t.tableData.get name).value? r = some v) :
    textAt (trimmed t groups) r name = (trimValue v).text.toList := by
  have hrow : r < t.rowCount.toNat := by simp [hw.count, hr]
  unfold textAt trimmed
  rw [get_trimColumns, if_pos hname, value?_trimColumn hrow (hw.stored name hin), hv]
  rfl

/-- The keys of the table's rows, in the order of first appearance. -/
def groupKeys (t : TableData) (groups : List String) (n : Nat) : List String :=
  Groups.keysOf (groupKey t groups) (List.range n)

/-- The rows with one key. -/
def groupRows (t : TableData) (groups : List String) (n : Nat) (key : String) : List Nat :=
  Groups.group (groupKey t groups) (List.range n) key

theorem groupRows_of_mem {t : TableData} {groups : List String} {n : Nat} {key : String}
    (h : key ∈ groupKeys t groups n) :
    groupRows t groups n key ≠ [] ∧ ∀ r ∈ groupRows t groups n key, r < n := by
  obtain ⟨r, hr, hrkey⟩ := (Groups.mem_keysOf _).mp h
  have hmem : r ∈ groupRows t groups n key := List.mem_filter.mpr ⟨hr, decide_eq_true hrkey⟩
  refine ⟨List.ne_nil_of_mem hmem, fun r' hr' => ?_⟩
  exact List.mem_range.mp (List.mem_filter.mp hr').1

theorem groupKeys_ne_nil {t : TableData} {groups : List String} {n : Nat} (hn : 0 < n) :
    groupKeys t groups n ≠ [] := by
  have hzero : groupKey t groups 0 ∈ groupKeys t groups n :=
    (Groups.mem_keysOf _).mpr ⟨0, List.mem_range.mpr hn, rfl⟩
  exact List.ne_nil_of_mem hzero

/-- What a key tells: the trimmed texts, cut at every `|`. -/
theorem groupKey_eq_iff {t : TableData} {groups : List String} {r r' : Nat} :
    groupKey t groups r = groupKey t groups r' ↔
      cutTexts (trimmed t groups) groups r = cutTexts (trimmed t groups) groups r' := by
  unfold groupKey
  rw [← String.toList_inj, String.toList_ofList, String.toList_ofList, joined_eq_iff]
  simp [cutTexts, List.flatMap_map]

/-- Where no trimmed text contains a `|`, a group is the rows with the same
trimmed texts. -/
theorem groupKey_eq_iff_texts {t : TableData} {groups : List String} {r r' : Nat}
    (h : ∀ name ∈ groups, '|' ∉ textAt (trimmed t groups) r name ∧
      '|' ∉ textAt (trimmed t groups) r' name) :
    groupKey t groups r = groupKey t groups r' ↔
      ∀ name ∈ groups, textAt (trimmed t groups) r name = textAt (trimmed t groups) r' name := by
  rw [groupKey_eq_iff, cutTexts, cutTexts, flatMap_splitOn fun name hname => (h name hname).1,
    flatMap_splitOn fun name hname => (h name hname).2, List.map_inj_left]

/-- Two maps that read the same. -/
structure SameMap (m m' : ColMap) : Prop where
  names : ∀ name, name ∈ m ↔ name ∈ m'
  get : ∀ name, m.get name = m'.get name

theorem groupbyKeyStep_spec {m : ColMap} {name : String} {c : ColData} {j k : Nat}
    (hc : m.get name = trimColumn j c) (hj : j = k ∨ j = k + 1) (hstored : c.Stored) {v : Value}
    (hv : c.value? k = some v) (hname : name ∈ m) (key : String) :
    ∃ m', groupbyKeyStep k (key, m) name = some (key ++ ("|" ++ (trimValue v).text), m') ∧
      (∀ other, other ∈ m' ↔ other ∈ m) ∧ m'.get name = trimColumn (k + 1) c ∧
      ∀ other, other ≠ name → m'.get other = m.get other := by
  have htype : (m.get name).type = c.type := by rw [hc, type_trimColumn]
  unfold ColData.value? at hv
  rcases hstored with h | h | h | h <;> simp only [h, Option.map_eq_some_iff] at hv
  case inl =>
    -- the cell is trimmed, perhaps for the second time
    obtain ⟨str, hstr, rfl⟩ := hv
    have hvec : (m.get name).strvec = trimRows j c.strvec := by simp [hc, trimColumn, h]
    obtain ⟨s, hs, htrim⟩ : ∃ s, (trimRows j c.strvec)[k]? = some s ∧ trim s = trim str := by
      refine ⟨_, by rw [getElem?_trimRows, hstr]; rfl, ?_⟩
      by_cases hlt : k < j <;> simp [hlt, trim_trim]
    refine ⟨m.insert name { m.get name with strvec := trimRows (k + 1) c.strvec }, ?_,
      fun other => ?_, ?_, fun other hother => ColMap.get_insert_ne m _ hother⟩
    · unfold groupbyKeyStep
      simp only [htype, h, hvec, hs, Option.map_some, set_trimRows hj hs]
      rw [htrim]
      rfl
    · rw [AList.mem_insert]
      exact ⟨fun ho => ho.elim (fun he => he ▸ hname) id, .inr⟩
    · rw [ColMap.get_insert, hc]
      simp [trimColumn, h]
  all_goals
    obtain ⟨a, ha, rfl⟩ := hv
    have hkeep : ∀ i, trimColumn i c = c := fun i => by simp [trimColumn, h]
    rw [hkeep] at hc
    refine ⟨m, ?_, fun _ => Iff.rfl, by rw [hc, hkeep], fun _ _ => rfl⟩
    unfold groupbyKeyStep
    simp [hc, h, ha, trimValue, Value.text]

/-- **A key** is the trimmed texts of the group columns, and the row is
trimmed afterwards. -/
theorem makeGroupbyKey_spec {t : TableData} {n : Nat} (hw : t.WellFormed n)
    {groups : List String} (hgroups : ∀ name ∈ groups, name ∈ t.tableData) {table : ColMap}
    {k : Nat} (hk : k < n) (htable : SameMap table (trimColumns k t.tableData groups)) :
    ∃ table', makeGroupbyKey table groups k = some (groupKey t groups k, table') ∧
      SameMap table' (trimColumns (k + 1) t.tableData groups) := by
  -- the columns already passed are trimmed one row further
  let stage : List String → String → ColData := fun done name =>
    if name ∈ done then trimColumn (k + 1) (t.tableData.get name)
    else (trimColumns k t.tableData groups).get name
  obtain ⟨⟨key, table'⟩, hrun, hkey, hmem, hget⟩ := Loops.foldlM_total
    (f := groupbyKeyStep k) (l := groups) (s := ("", table))
    (P := fun done s => s.1 = String.ofList (joined '|' (done.map (textAt (trimmed t groups) k))) ∧
      (∀ name, name ∈ s.2 ↔ name ∈ t.tableData) ∧ ∀ name, s.2.get name = stage done name)
    ⟨rfl, fun name => (htable.names name).trans (mem_trimColumns hgroups), fun name => by
      simpa [stage] using htable.get name⟩
    (by
      intro done name rest s hsplit ⟨hkey, hmem, hget⟩
      have hname : name ∈ groups := by simp [hsplit]
      have hin := hgroups name hname
      obtain ⟨v, hv⟩ := ColData.value?_isSome (hw.column name hin) hk
      have hcolumn : ∃ j, (j = k ∨ j = k + 1) ∧
          s.2.get name = trimColumn j (t.tableData.get name) := by
        rw [hget]
        by_cases hdone : name ∈ done
        · exact ⟨k + 1, .inr rfl, by simp [stage, hdone]⟩
        · exact ⟨k, .inl rfl, by simp [stage, hdone, get_trimColumns, hname]⟩
      obtain ⟨j, hj, hc⟩ := hcolumn
      obtain ⟨m', hrun, hmem', hname', hother⟩ :=
        groupbyKeyStep_spec hc hj (hw.stored name hin) hv ((hmem name).mpr hin) s.1
      refine ⟨_, hrun, ?_, fun other => (hmem' other).trans (hmem other), fun other => ?_⟩
      · have htext := textAt_trimmed hw hname hin hk hv
        rw [hkey]
        apply String.toList_inj.mp
        simp [htext, joined]
      · by_cases ho : other = name
        · subst ho
          simp [stage, hname']
        · rw [hother other ho, hget]
          simp [stage, ho])
  have hkey : key = groupKey t groups k := hkey
  refine ⟨table', by rw [makeGroupbyKey, hrun, hkey], fun name => ?_, fun name => ?_⟩
  · exact (hmem name).trans (mem_trimColumns hgroups).symm
  · rw [hget, get_trimColumns]
    by_cases hname : name ∈ groups
    · simp [stage, hname]
    · simp [stage, hname, get_trimColumns]

/-- A row of a table whose strings have partly been trimmed, where its cells
are those of the trimmed table. -/
theorem sameRow_of_trimOf {t : TableData} {n : Nat} (hw : t.WellFormed n) {columns : List String}
    (hcolumns : ∀ name ∈ columns, name ∈ t.tableData) {cur : ColMap} {r : Nat} (hr : r < n)
    (hnames : ∀ name, name ∈ cur ↔ name ∈ t.tableData)
    (htrim : ∀ name, TrimOf (cur.get name) (t.tableData.get name))
    (hvalue : ∀ name ∈ t.tableData,
      (cur.get name).value? r = ((trimmed t columns).get name).value? r) :
    SameRow cur (trimmed t columns) r := by
  constructor
  case names =>
    intro name
    rw [hnames, trimmed, mem_trimColumns hcolumns]
  case type =>
    intro name _
    rw [(htrim name).type, type_trimmed]
  case stored =>
    intro name hname
    have hstored := hw.stored name ((hnames name).mp hname)
    unfold ColData.Stored at hstored ⊢
    rwa [(htrim name).type]
  case cell =>
    intro name hname
    have hmem := (hnames name).mp hname
    obtain ⟨x, hx⟩ := ColData.cell?_isSome (hasLength_trimmed hw columns hmem) hr
    refine ⟨x, ?_, hx⟩
    rw [← hx]
    unfold ColData.cell?
    rw [hvalue name hmem, isnull_trimmed, (htrim name).isnull]

/-- After row `k` has been trimmed it is row `k` of the trimmed table. -/
theorem sameRow_trimmed {t : TableData} {n : Nat} (hw : t.WellFormed n) {groups : List String}
    (hgroups : ∀ name ∈ groups, name ∈ t.tableData) {table : ColMap} {k : Nat} (hk : k < n)
    (htable : SameMap table (trimColumns (k + 1) t.tableData groups)) :
    SameRow table (trimmed t groups) k := by
  have hkn : k < t.rowCount.toNat := by simp [hw.count, hk]
  refine sameRow_of_trimOf hw hgroups hk
    (fun name => (htable.names name).trans (mem_trimColumns hgroups)) (fun name => ?_)
    fun name hname => ?_
  · rw [htable.get, get_trimColumns]
    split
    · exact trimOf_trimColumn _ _
    · exact .refl _
  · rw [htable.get, trimmed, get_trimColumns, get_trimColumns]
    by_cases hg : name ∈ groups
    · rw [if_pos hg, if_pos hg, value?_trimColumn hkn (hw.stored name hname),
        value?_trimColumn (Nat.lt_succ_self k) (hw.stored name hname)]
    · rw [if_neg hg, if_neg hg]

/-! ## The partition -/

/-- A table holds these rows of `whole`, types apart. -/
structure GroupOf (whole : ColMap) (rows : List Nat) (g : TableData) : Prop where
  names : ∀ name, name ∈ g.tableData ↔ rows ≠ [] ∧ name ∈ whole
  copies : CopiesOf whole rows g.tableData
  count : g.rowCount = rows.length

theorem groupOf_nil (whole : ColMap) : GroupOf whole [] {} := by
  refine ⟨fun name => by simp, fun name _ => ?_, rfl⟩
  have hget : ColMap.get ∅ name = {} := ColMap.get_of_notMem (by simp)
  exact hget ▸ holdsCells_nil _ _

/-- `group_by_key_` numbers the keys `ks`, and the table of each key holds
the rows `rowsOf` it. -/
structure Numbered (whole : ColMap) (ks : List String) (rowsOf : String → List Nat)
    (s : GroupState) : Prop where
  index : ∀ key i, s.groupByKey.lookup key = some i ↔ ks[i]? = some key
  size : s.dest.length = ks.length
  tables : ∀ (i : Nat) key g, ks[i]? = some key → s.dest[i]? = some g →
    GroupOf whole (rowsOf key) g

/-- The partition invariant: a table for each key of the rows done. -/
structure Grouped (t : TableData) (groups : List String) (done : List Nat) (s : GroupState) :
    Prop where
  table : SameMap s.table (trimColumns done.length t.tableData groups)
  groups : Numbered (trimmed t groups) (Groups.keysOf (groupKey t groups) done)
    (Groups.group (groupKey t groups) done) s

/-- A new key gets a new number and an empty table. -/
theorem groupIndex_spec {whole : ColMap} {ks : List String} {rowsOf : String → List Nat}
    {s : GroupState} (h : Numbered whole ks rowsOf s) {key : String}
    (hnew : key ∉ ks → rowsOf key = []) :
    let ks' := if key ∈ ks then ks else ks ++ [key]
    let r := groupIndex s key
    Numbered whole ks' rowsOf r.1 ∧ ks'[r.2]? = some key ∧ r.1.table = s.table := by
  by_cases hkey : key ∈ ks
  · obtain ⟨i, hi, hget⟩ := List.getElem_of_mem hkey
    have hki : ks[i]? = some key := by rw [List.getElem?_eq_getElem hi, hget]
    have hindex := (h.index key i).mpr hki
    simp only [if_pos hkey, groupIndex, hindex]
    exact ⟨h, hki, trivial⟩
  · have hnone : s.groupByKey.lookup key = none := by
      by_contra hsome
      obtain ⟨i, hi⟩ := Option.ne_none_iff_exists'.mp hsome
      exact hkey (List.mem_of_getElem? ((h.index key i).mp hi))
    simp only [if_neg hkey, groupIndex, hnone]
    refine ⟨⟨fun key' i => ?_, by simp [h.size], fun i key' g hk hg => ?_⟩, by simp [h.size]⟩
    · rw [Groups.getElem?_concat_eq_some, ← h.index]
      by_cases he : key' = key
      · subst he
        simp [hnone, h.size, eq_comm]
      · rw [AList.lookup_insert_ne he]
        simp [Ne.symm he]
    · rcases Groups.getElem?_concat_eq_some.mp hk with hk | ⟨hi, rfl⟩
      · have hlt : i < s.dest.length := h.size ▸ (List.getElem?_eq_some_iff.mp hk).1
        rw [List.getElem?_append_left hlt] at hg
        exact h.tables i key' g hk hg
      · rw [hi, ← h.size, List.getElem?_concat_length] at hg
        cases hg
        exact hnew hkey ▸ groupOf_nil whole

/-- **One row of `GroupBy`** joins the table of its key. -/
theorem groupRow_grouped {t : TableData} {n : Nat} (hw : t.WellFormed n) {groups : List String}
    (hgroups : ∀ name ∈ groups, name ∈ t.tableData) {r : Nat} (hr : r < n) {s : GroupState}
    (h : Grouped t groups (List.range r) s) :
    ∃ s', groupRow groups s r = some s' ∧ Grouped t groups (List.range r ++ [r]) s' := by
  obtain ⟨htable, hnumbered⟩ := h
  rw [List.length_range] at htable
  obtain ⟨table', hkey, htable'⟩ := makeGroupbyKey_spec hw hgroups hr htable
  have hnew : groupKey t groups r ∉ Groups.keysOf (groupKey t groups) (List.range r) →
      Groups.group (groupKey t groups) (List.range r) (groupKey t groups r) = [] := by
    intro hnot
    refine List.filter_eq_nil_iff.mpr fun a ha he => ?_
    exact hnot ((Groups.mem_keysOf _).mpr ⟨a, ha, of_decide_eq_true he⟩)
  obtain ⟨hindexed, hki, -⟩ := groupIndex_spec hnumbered hnew
  rw [← Groups.keysOf_concat] at hindexed hki
  generalize hstate : groupIndex s (groupKey t groups r) = u at hindexed hki
  obtain ⟨g, hg⟩ : ∃ g, u.1.dest[u.2]? = some g := by
    have hlt : u.2 < u.1.dest.length := hindexed.size ▸ (List.getElem?_eq_some_iff.mp hki).1
    exact ⟨_, List.getElem?_eq_getElem hlt⟩
  have hgroup := hindexed.tables u.2 _ g hki hg
  obtain ⟨td, hcopy, hnames, -, -, hcopies⟩ :=
    copyRow_copies (sameRow_trimmed hw hgroups hr htable') g.tableData
  refine ⟨{ u.1 with
    table := table'
    dest := u.1.dest.set u.2 { g with tableData := td, rowCount := g.rowCount + 1 } }, ?_, ?_⟩
  · simp only [groupRow, hkey, Option.bind_eq_bind, Option.bind_some, hstate, hg, hcopy]
    rfl
  constructor
  case table => simpa using htable'
  case groups =>
    refine ⟨hindexed.index, by simp [hindexed.size], fun i key g' hk hg' => ?_⟩
    rw [Groups.group_concat]
    by_cases hi : i = u.2
    · -- the table that got the row
      subst hi
      obtain rfl : key = groupKey t groups r := by simpa [hki] using hk.symm
      have hlt : u.2 < u.1.dest.length := (List.getElem?_eq_some_iff.mp hg).1
      obtain rfl : g' = { g with tableData := td, rowCount := g.rowCount + 1 } := by
        simpa [hlt] using hg'.symm
      rw [if_pos rfl]
      refine ⟨fun name => ?_, hcopies _ hgroup.copies, by simp [hgroup.count]⟩
      rw [hnames, hgroup.names]
      simp
    · -- another table has another key
      have hne : groupKey t groups r ≠ key := by
        intro he
        rw [← he, ← hki] at hk
        have hlt : i < (Groups.keysOf (groupKey t groups) (List.range r ++ [r])).length := by
          rw [hki] at hk
          exact (List.getElem?_eq_some_iff.mp hk).1
        exact hi ((List.getElem?_inj hlt (Groups.nodup_keysOf _ _)).mp hk)
      rw [if_neg hne]
      rw [List.getElem?_set_ne (Ne.symm hi)] at hg'
      exact hindexed.tables i key g' hk hg'

/-- The tables of `GroupBy`: one for each key in the order of first
appearance, with the rows of that key and the types of the table. -/
structure GroupTable (whole : ColMap) (rows : List Nat) (g : TableData) : Prop extends
    GroupOf whole rows g where
  typed : Typed whole g.tableData

theorem GroupOf.setTypes {whole table : ColMap} {rows : List Nat} {g : TableData}
    (h : GroupOf whole rows g) (hrows : rows ≠ []) (htable : SameMap table whole) :
    GroupTable whole rows { g with tableData := Merging.setTypes table g.tableData } := by
  obtain ⟨hnames, -, hget⟩ := setTypes_of_sameTypes htable.names
    (fun name _ => by rw [htable.get]) g.tableData
  constructor
  · constructor
    case names =>
      intro name
      rw [hnames, h.names]
      tauto
    case copies =>
      intro name hname
      rw [hget name hname]
      exact (h.copies name hname).retype _
    case count => exact h.count
  case typed =>
    intro name hname
    rw [hget name hname]

/-- **`GroupBy`** leaves the partition of the rows. -/
theorem groupBy_spec {t : TableData} {n : Nat} (hw : t.WellFormed n) (hn : 0 < n)
    {groups : List String} (hgroups : ∀ name ∈ groups, name ∈ t.tableData) :
    ∃ dest, groupBy t groups = some dest ∧
      List.Forall₂ (fun key g => GroupTable (trimmed t groups) (groupRows t groups n key) g)
        (groupKeys t groups n) dest := by
  have hcount : t.rowCount.toNat = n := hw.toNat_rowCount
  have hstart : Grouped t groups [] ⟨t.tableData, ∅, []⟩ := by
    constructor
    case table =>
      refine ⟨fun name => (mem_trimColumns hgroups).symm, fun name => ?_⟩
      have hzero : ∀ c : ColData, trimColumn 0 c = c := fun c => by simp [trimColumn, trimRows_zero]
      rw [List.length_nil, get_trimColumns, hzero, ite_self]
    case groups => exact ⟨fun key i => by simp [Groups.keysOf], rfl, fun i key g hk => by cases hk⟩
  obtain ⟨s, hrun, htable, hnumbered⟩ := Loops.foldlM_total (l := List.range n) hstart
    (f := groupRow groups) (P := Grouped t groups) (by
      intro done r rest s hsplit hs
      obtain ⟨rfl, hr⟩ := Loops.range_eq_append_cons hsplit
      exact groupRow_grouped hw hgroups hr hs)
  rw [List.length_range] at htable
  have hwhole : SameMap s.table (trimmed t groups) := by
    unfold trimmed
    rwa [hcount]
  refine ⟨s.dest.map fun g => { g with tableData := setTypes s.table g.tableData }, ?_, ?_⟩
  · unfold groupBy
    rw [if_neg (by rw [hw.count]; omega), hcount, hrun]
    rfl
  rw [List.forall₂_map_right_iff, List.forall₂_iff_get]
  refine ⟨hnumbered.size.symm, fun i hi hi' => ?_⟩
  have hgroup := hnumbered.tables i _ _ (List.getElem?_eq_getElem hi) (List.getElem?_eq_getElem hi')
  exact hgroup.setTypes (groupRows_of_mem (List.getElem_mem hi)).1 hwhole

end KetiEngine.Merging
