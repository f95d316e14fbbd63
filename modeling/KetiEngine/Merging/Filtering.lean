import KetiEngine.Merging.GroupBy
import KetiEngine.Merging.InnerJoin
import KetiEngine.Merging.Save

/-!
# Filtering — the FILTER snippet

`Filtering`, and the run of a FILTER snippet from the tables of the manager to
the saved result. The filter works on `left_table_`, which the join operators
load and the FILTER case does not.
-/

namespace KetiEngine.Merging

open KetiEngine Loops

/-! ## The source functions -/

/-- One comparison with a literal: the table, in which `trim` works in place,
and `passed`, which stays what it was for a column of another type. -/
def passesFilter (t : ColMap) (r : Nat) (leftCol : String) (f : Filter) (passed : Bool) :
    Option (ColMap × Bool) :=
  let c := t.get leftCol
  match c.type with
  | .string => do
      let str ← c.strvec[r]?
      let rv ← f.rv.value[0]?
      pure (t.insert leftCol { c with strvec := c.strvec.set r (trim str) },
        compareByOperator stringComparison f.operator (trim str) rv)
  | .float => do
      let lv ← c.floatvec[r]?
      let rv ← f.rv.value[0]? >>= stof
      pure (t, compareByOperator doubleComparison f.operator lv.toFloat rv)
  | .int => do
      let lv ← c.intvec[r]?
      let rv ← f.rv.value[0]? >>= stoi
      pure (t, compareByOperator intComparison f.operator (toInt32 lv) rv)
  | .empty | .boolean | .date => some (t, passed)

/-- The log line of a marker that is no AND, `"Filtering: " + operator`, is a
pointer into the literal; the last two operators lie behind its end. -/
def logsMarker (oper : OperType) : Bool := oper ≠ .isNot && oper ≠ .or

/-- The loop over the filters of a row. A comparison whose column is missing
creates it. -/
def filterLoop (r : Nat) : Nat → List Filter → ColMap × Bool → Option (ColMap × Bool)
  | _, [], s => some s
  | index, f :: rest, (t, passed) =>
      if index % 2 = 1 then
        if f.operator = .and then
          if passed = false then some (t, passed) else filterLoop r (index + 1) rest (t, passed)
        else if logsMarker f.operator then filterLoop r (index + 1) rest (t, passed)
        else none
      else do
        let leftCol ← f.lv.value[0]?
        let s ← passesFilter (t.insertNew leftCol {}) r leftCol f passed
        filterLoop r (index + 1) rest s

/-- One row of `Filtering`: the table filtered and the destination. -/
def filterRow (filters : List Filter) (s : ColMap × TableData) (r : Nat) :
    Option (ColMap × TableData) := do
  let (t, passed) ← filterLoop r 0 filters (s.1, true)
  if passed then do
    let td ← copyRow t r s.2.tableData
    pure (t, { s.2 with tableData := td, rowCount := s.2.rowCount + 1 })
  else pure (t, s.2)

/-- `Filtering`: `dest_table` at its end. -/
def filtering (filterTable : TableData) (filters : List Filter) (destTable : TableData) :
    Option TableData := do
  let destTable :=
    { destTable with tableData := setTypes filterTable.tableData destTable.tableData }
  let s ← (List.range filterTable.rowCount.toNat).foldlM (filterRow filters)
    (filterTable.tableData, destTable)
  pure s.2

/-- What a FILTER snippet has besides the parts shared by all snippets. -/
structure MergeSnippet extends SnippetRequest where
  having : List Filter := []
  limit : Limit := {}

/-- The members of the manager a FILTER snippet works on. -/
structure MergeQueryManager where
  snippet : MergeSnippet
  leftTable : TableData := {}
  targetTable : TableData := {}
  resultTable : TableData := {}
  havingTable : TableData := {}

namespace MergeQueryManager

/-- `case FILTER`. -/
def filterCase (m : MergeQueryManager) : Option MergeQueryManager := do
  let targetTable ← filtering m.leftTable m.snippet.filtering m.targetTable
  pure { m with targetTable }

/-- From `target_table_` to `result_table_`. -/
def projectTarget (m : MergeQueryManager) : Option MergeQueryManager := do
  let resultTable ← columnProjection m.targetTable m.snippet.groupBy m.snippet.projection
    m.snippet.columnAlias
  pure { m with resultTable }

/-- What `saveTableData` reads of the snippet. -/
def saved (m : MergeQueryManager) : SavedSnippet :=
  ⟨m.snippet.queryId, m.snippet.workId, m.snippet.tableAlias, m.snippet.columnAlias⟩

/-- The end of a snippet without ORDER BY: HAVING, LIMIT and the save. -/
def saveLast (db : DataBuffer) (m : MergeQueryManager) : Option DataBuffer :=
  if m.snippet.having = [] then saveResult db m.saved m.snippet.limit m.resultTable
  else do
    let havingTable ← filtering m.resultTable m.snippet.having m.havingTable
    saveResult db m.saved m.snippet.limit havingTable

end MergeQueryManager

/-- `RunSnippetWork` for a FILTER snippet without ORDER BY. -/
def runFilterSnippet (db : DataBuffer) (snippet : MergeSnippet) : Option DataBuffer := do
  let db := initializeBuffer db snippet.queryId snippet.workId snippet.tableAlias
  let m ← MergeQueryManager.filterCase { snippet }
  let m ← m.projectTarget
  m.saveLast db

/-! ## The filter of a query -/

/-- A row satisfies the comparison of a STRING column with a literal; the cell
is compared without its padding. -/
def satisfiesLiteral (t : ColMap) (r : Nat) (c : Filter) : Bool :=
  match c.lv.value[0]?, c.rv.value[0]? with
  | some column, some literal =>
      match (t.get column).value? r with
      | some (.string s) => relates c.operator (trim s) literal
      | _ => false
  | _, _ => false

/-- The rows that satisfy all comparisons, in order. -/
def selectedRows (filters : List Filter) (t : ColMap) (n : Nat) : List Nat :=
  (List.range n).filter fun r => (conjuncts filters).all (satisfiesLiteral t r)

/-- The projections are bare columns: each alias with its column. -/
structure BareColumns (snippet : SnippetRequest) (columns : List (String × String)) : Prop where
  aliases : snippet.columnAlias = columns.map Prod.fst
  projections : snippet.projection =
    columns.map fun p => { value := [p.2], valueType := [.column] }

/-- The buffer holds these rows of a table, under the aliases. -/
structure HoldsRows (w : WorkBuffer) (t : TableData) (columns : List (String × String))
    (rows : List Nat) : Prop where
  rowCount : w.rowCount = rows.length
  columns : ∀ p ∈ columns, p.1 ∈ w.tableData ∧
    (w.tableData.get p.1).HasLength rows.length ∧
    ∀ k r : Nat, rows[k]? = some r →
      (w.tableData.get p.1).cell? k = (t.tableData.get p.2).cell? r

/-! ## The run of a FILTER snippet -/

/-- An empty table is filtered to nothing. -/
theorem filtering_empty (filters : List Filter) : filtering {} filters {} = some {} := rfl

/-- The aliases of an empty result. -/
def emptyColumns (columnAlias : List String) : ColMap :=
  columnAlias.foldl (fun m name => ColMap.insertNew m name {}) ∅

theorem emptyColumns_spec (columnAlias : List String) :
    (∀ name, name ∈ emptyColumns columnAlias ↔ name ∈ columnAlias) ∧
      ∀ name, (emptyColumns columnAlias).get name = {} := by
  obtain ⟨td, hadd, hget, hmem⟩ := WorkBuffer.foldl_addColumn {} columnAlias
  have htd : emptyColumns columnAlias = td := by
    have hloop : ∀ (names : List String) (w : WorkBuffer),
        (names.foldl WorkBuffer.addColumn w).tableData =
          names.foldl (fun m name => ColMap.insertNew m name {}) w.tableData := by
      intro names
      induction names with
      | nil => exact fun _ => rfl
      | cons name names ih => exact fun w => ih (w.addColumn name)
    have h := hloop columnAlias {}
    rw [hadd] at h
    exact h.symm
  rw [htd]
  exact ⟨fun name => by simpa using hmem name, fun name => by rw [hget]; rfl⟩

/-- **A FILTER snippet saves an empty table**, whatever table it names. -/
theorem runFilterSnippet_spec {db : DataBuffer} {snippet : MergeSnippet}
    (hwork : snippet.workId ≠ -1) (hgroup : snippet.groupBy = [])
    (hhaving : snippet.having = []) (hlimit : snippet.limit.length = 0) :
    ∃ db' w, runFilterSnippet db snippet = some db' ∧
      db'.work? snippet.queryId snippet.workId = some w ∧ w.rowCount = 0 ∧
      ∀ name ∈ snippet.columnAlias, name ∈ w.tableData ∧ w.tableData.get name = {} := by
  obtain ⟨hnames, hget⟩ := emptyColumns_spec snippet.columnAlias
  let result : TableData := { tableData := emptyColumns snippet.columnAlias, rowCount := 0 }
  have hproject : columnProjection {} snippet.groupBy snippet.projection snippet.columnAlias =
      some result := by
    rw [hgroup]
    rfl
  -- every column is EMPTY, so nothing is sliced
  have hsliced : ∀ name ∈ result.tableData,
      WorkBuffer.slicedColumn (result.tableData.get name) 0 0 = some {} := by
    intro name _
    rw [hget]
    rfl
  have hwork₀ := @work?_initializeBuffer db snippet.queryId _ snippet.tableAlias hwork
  obtain ⟨w, hsave, hrows, -, hnames', hget'⟩ := @save_of_sliced _
    ⟨snippet.queryId, snippet.workId, snippet.tableAlias, snippet.columnAlias⟩ result 0 0
    (fun _ => {}) (Int.le_refl 0) hsliced
  obtain ⟨db', hrun, hwork'⟩ := saveTableData_of_save hwork₀ hsave
  refine ⟨db', w, ?_, hwork', by simpa using hrows, fun name hname => ?_⟩
  · have hlast : saveResult (initializeBuffer db snippet.queryId snippet.workId snippet.tableAlias)
        ⟨snippet.queryId, snippet.workId, snippet.tableAlias, snippet.columnAlias⟩
        snippet.limit result = some db' := by
      rw [saveResult, if_neg (not_not.mpr hlimit)]
      exact hrun
    simp only [runFilterSnippet, MergeQueryManager.filterCase, filtering_empty,
      MergeQueryManager.projectTarget, hproject, MergeQueryManager.saveLast, if_pos hhaving,
      Option.bind_eq_bind, Option.bind_some, Option.pure_def]
    exact hlast
  · have hresult := (hnames name).mpr hname
    exact ⟨(hnames' name).mpr (.inl hresult), hget' name hresult⟩

/-- **A FILTER snippet filters the table it names** exactly where no row of
that table satisfies all comparisons: it filters a table that is empty. The
table it names is of no account, so `source` is any table. -/
theorem runFilterSnippet_holdsRows_iff {db : DataBuffer} {snippet : MergeSnippet}
    {source : TableData} {n : Nat} {columns : List (String × String)}
    (hwork : snippet.workId ≠ -1) (hcolumns : BareColumns snippet.toSnippetRequest columns)
    (hgroup : snippet.groupBy = []) (hhaving : snippet.having = [])
    (hlimit : snippet.limit.length = 0) :
    (∃ db' w, runFilterSnippet db snippet = some db' ∧
      db'.work? snippet.queryId snippet.workId = some w ∧
      HoldsRows w source columns (selectedRows snippet.filtering source.tableData n)) ↔
      ∀ r < n, ¬ ∀ c ∈ conjuncts snippet.filtering,
        satisfiesLiteral source.tableData r c = true := by
  obtain ⟨db₁, w₁, hrun, hw, hrows, hempty⟩ :=
    @runFilterSnippet_spec db snippet hwork hgroup hhaving hlimit
  have hselected : selectedRows snippet.filtering source.tableData n = [] ↔
      ∀ r < n, ¬ ∀ c ∈ conjuncts snippet.filtering,
        satisfiesLiteral source.tableData r c = true := by
    simp [selectedRows, List.filter_eq_nil_iff]
  rw [← hselected]
  constructor
  · rintro ⟨db', w, hrun', hw', hholds⟩
    obtain rfl := Option.some.inj (hrun.symm.trans hrun')
    obtain rfl := Option.some.inj (hw.symm.trans hw')
    have hcount := hholds.rowCount
    rw [hrows] at hcount
    exact List.eq_nil_of_length_eq_zero (by omega)
  · intro hnone
    refine ⟨db₁, w₁, hrun, hw, ?_⟩
    rw [hnone]
    refine ⟨by simpa using hrows, fun p hp => ?_⟩
    obtain ⟨hmem, hget⟩ := hempty p.1 (hcolumns.aliases ▸ List.mem_map_of_mem hp)
    rw [hget]
    exact ⟨hmem, ⟨rfl, rfl, rfl⟩, fun k r hr => by simp at hr⟩

/-- A finished table with one STRING column. -/
def nameTable (names : List String) : TableData where
  tableData := AList.singleton "name"
    { type := .string, strvec := names, isnull := names.map fun _ => false,
      rowCount := names.length }
  rowCount := names.length
  status := .workDone

/-- Query 1, whose finished work 2 is the table `people`. -/
def peopleBuffer (names : List String) : DataBuffer :=
  AList.singleton 1
    { queryId := 1
      workBufferList := AList.singleton 2
        { tableAlias := "people"
          tableColumn := ["name"]
          tableData := (nameTable names).tableData
          rowCount := names.length
          status := .workDone }
      tablenameWorkidMap := AList.singleton "people" 2 }

/-- Work 3: `SELECT name AS n FROM people WHERE name = 'x' AND name <> 'y'`. -/
def peopleSnippet : MergeSnippet where
  queryId := 1
  workId := 3
  tableName := ["people"]
  filtering :=
    [{ lv := ⟨[.column], ["name"]⟩, operator := .eq, rv := ⟨[.string], ["x"]⟩ },
      { operator := .and },
      { lv := ⟨[.column], ["name"]⟩, operator := .ne, rv := ⟨[.string], ["y"]⟩ }]
  projection := [{ value := ["name"], valueType := [.column] }]
  tableAlias := "r"
  columnAlias := ["n"]

/-- A table none of whose rows satisfies the two comparisons. -/
theorem runFilterSnippet_people :
    (∃ db' w, runFilterSnippet (peopleBuffer ["y", "z"]) peopleSnippet = some db' ∧
      db'.work? 1 3 = some w ∧
      HoldsRows w (nameTable ["y", "z"]) [("n", "name")]
        (selectedRows peopleSnippet.filtering (nameTable ["y", "z"]).tableData 2)) ↔
      ∀ r < 2, ¬ ∀ c ∈ conjuncts peopleSnippet.filtering,
        satisfiesLiteral (nameTable ["y", "z"]).tableData r c = true :=
  @runFilterSnippet_holdsRows_iff (peopleBuffer ["y", "z"]) peopleSnippet
    (nameTable ["y", "z"]) 2 [("n", "name")] (by decide) ⟨rfl, rfl⟩ rfl rfl rfl

/-- The row `x` of the named table is selected, and the saved table is empty. -/
theorem runFilterSnippet_loses_row :
    selectedRows peopleSnippet.filtering (nameTable ["x"]).tableData 1 = [0] ∧
    ∃ db' w, runFilterSnippet (peopleBuffer ["x"]) peopleSnippet = some db' ∧
      db'.work? 1 3 = some w ∧ w.rowCount = 0 ∧
      ¬ HoldsRows w (nameTable ["x"]) [("n", "name")]
        (selectedRows peopleSnippet.filtering (nameTable ["x"]).tableData 1) := by
  refine ⟨by decide, _, _, rfl, rfl, rfl, fun h => ?_⟩
  exact absurd h.rowCount (by decide)

end KetiEngine.Merging
