import KetiEngine.Merging.Buffer
import KetiEngine.Merging.Projection

/-!
# QueryResult — the message a finished table is sent in

`GetQueryResult` copies the columns of a finished table into the fields of a
message. The strings and the doubles keep their type on the way; the integers
do not, they are 64 bits wide in the buffer and 32 in the message.
-/

namespace KetiEngine.Merging

open KetiEngine

/-! ## The message -/

/-- `QueryResult.Column.ColType`. -/
inductive ColType where
  | empty | string | int | float | date
  deriving DecidableEq, Repr

/-- `QueryResult.Column`. -/
structure QueryResultColumn where
  realSize : Int := 0
  colType : ColType := .empty
  stringCol : List String := []
  intCol : List Int := []
  doubleCol : List Double := []

structure QueryResult where
  queryResult : AList (fun _ : String => QueryResultColumn) := ∅
  rowCount : Int := 0
  scannedRowCount : Int := 0
  filteredRowCount : Int := 0

structure Request where
  queryId : Int
  workId : Int
  tableName : String
  deriving DecidableEq

/-! ## The source functions -/

/-- The `switch` over the type of a column. Its `default` only logs. -/
def queryResultColumn (c : ColData) : QueryResultColumn :=
  match c.type with
  | .string => { colType := .string, stringCol := c.strvec }
  | .int => { colType := .int, intCol := c.intvec.map toInt32 }
  | .float => { colType := .float, doubleCol := c.floatvec, realSize := c.realSize }
  | .empty => { colType := .empty }
  | .date => { colType := .date, intCol := c.intvec.map toInt32 }
  | .boolean => {}

/-- The message for a table; a column that is already in the map stays. -/
def queryResultOf (t : TableData) : QueryResult where
  queryResult := t.tableData.entries.foldl
    (fun m e => if e.1 ∈ m then m else m.insert e.1 (queryResultColumn e.2)) ∅
  rowCount := t.rowCount
  scannedRowCount := t.scannedRowCount
  filteredRowCount := t.filteredRowCount

/-- `GetQueryResult`, for a table that is finished; `none` while it waits. -/
def getQueryResult (db : DataBuffer) (request : Request) : Option (QueryResult × DataBuffer) := do
  let db := initializeBuffer db request.queryId request.workId request.tableName
  let t ← getFinishedTableData db request.queryId request.workId request.tableName
  pure (queryResultOf t, endQuery db request.queryId)

/-! ## What a message says -/

/-- The type of the column a message column was made from. -/
def ColType.vectorType : ColType → VectorType
  | .empty => .empty
  | .string => .string
  | .int => .int
  | .float => .float
  | .date => .date

/-- Entry `i` of the field the type names. -/
def QueryResultColumn.value? (c : QueryResultColumn) (i : Nat) : Option Value :=
  match c.colType with
  | .string => c.stringCol[i]?.map .string
  | .int | .date => c.intCol[i]?.map .int
  | .float => c.doubleCol[i]?.map .float
  | .empty => none

/-- The message says what the table says: the names, types and values of its
columns and the number of rows. -/
structure SaysTable (result : QueryResult) (t : TableData) : Prop where
  names : ∀ name, name ∈ result.queryResult ↔ name ∈ t.tableData
  rowCount : result.rowCount = t.rowCount
  columns : ∀ name ∈ t.tableData, ∃ c, result.queryResult.lookup name = some c ∧
    c.colType.vectorType = (t.tableData.get name).type ∧
    ∀ i, c.value? i = (t.tableData.get name).value? i

theorem SaysTable.congr {result : QueryResult} {t u : TableData} (h : SaysTable result t)
    (hdata : u.tableData = t.tableData) (hcount : u.rowCount = t.rowCount) :
    SaysTable result u := by
  constructor
  case names =>
    rw [hdata]
    exact h.names
  case rowCount => rw [hcount, h.rowCount]
  case columns =>
    rw [hdata]
    exact h.columns

/-- The integers of a column fit in an `int32`. -/
def IntsFit (c : ColData) : Prop :=
  c.type = .int ∨ c.type = .date → ∀ n ∈ c.intvec, -2 ^ 31 ≤ n ∧ n < 2 ^ 31

/-- A map filled entry by entry, where the first entry of a name stays. -/
theorem lookup_foldl_insert {α β : Type} (f : α → β) (ps : List ((_ : String) × α))
    (m : AList (fun _ : String => β)) (name : String) :
    (ps.foldl (fun m e => if e.1 ∈ m then m else m.insert e.1 (f e.2)) m).lookup name =
      (m.lookup name).or ((ps.dlookup name).map f) := by
  induction ps generalizing m with
  | nil => simp
  | cons e ps ih =>
    rw [List.foldl_cons, ih]
    by_cases hname : name = e.1
    · subst hname
      rw [List.dlookup_cons_eq]
      by_cases hmem : e.1 ∈ m
      · obtain ⟨b, hb⟩ := Option.isSome_iff_exists.mp (AList.lookup_isSome.mpr hmem)
        simp [hmem, hb]
      · simp [hmem, AList.lookup_eq_none.mpr hmem]
    · rw [List.dlookup_cons_ne _ _ hname]
      by_cases hmem : e.1 ∈ m
      · rw [if_pos hmem]
      · rw [if_neg hmem, AList.lookup_insert_ne hname]

/-- **The columns of the message** are those of the table, each by itself. -/
theorem lookup_queryResultOf (t : TableData) (name : String) :
    (queryResultOf t).queryResult.lookup name =
      (t.tableData.lookup name).map queryResultColumn := by
  refine (lookup_foldl_insert queryResultColumn t.tableData.entries ∅ name).trans ?_
  rw [AList.lookup_empty, Option.none_or]
  rfl

theorem queryResultColumn_type {c : ColData} (h : c.type ≠ .boolean) :
    (queryResultColumn c).colType.vectorType = c.type := by
  unfold queryResultColumn
  cases ht : c.type <;> first | rfl | exact absurd ht h

/-- The values of an integer field are those of the column where each is the
same in 32 bits. -/
theorem map_toInt32_iff {ns : List Int} :
    (∀ i : Nat, (ns.map toInt32)[i]?.map Value.int = ns[i]?.map Value.int) ↔
      ∀ n ∈ ns, -2 ^ 31 ≤ n ∧ n < 2 ^ 31 := by
  have hpoint : ∀ (i : Nat) n, ns[i]? = some n →
      ((ns.map toInt32)[i]?.map Value.int = ns[i]?.map Value.int ↔ toInt32 n = n) := by
    intro i n hn
    simp [hn]
  constructor
  · intro h n hn
    obtain ⟨i, hi⟩ := List.mem_iff_getElem?.mp hn
    exact (toInt32_eq_self_iff n).mp ((hpoint i n hi).mp (h i))
  · intro h i
    cases hi : ns[i]? with
    | none => simp [hi]
    | some n =>
      have hn := (toInt32_eq_self_iff n).mpr (h n (List.mem_of_getElem? hi))
      exact hi ▸ (hpoint i n hi).mpr hn

/-- A column and its message column have the same values exactly where the
integers fit. -/
theorem queryResultColumn_values_iff (c : ColData) :
    (∀ i, (queryResultColumn c).value? i = c.value? i) ↔ IntsFit c := by
  unfold queryResultColumn QueryResultColumn.value? ColData.value? IntsFit
  cases c.type with
  | int | date => simpa using map_toInt32_iff
  | string | float | empty | boolean => simp

/-- **The message says what the table says** exactly where the integers of
its INT and DATE columns fit in 32 bits. -/
theorem queryResultOf_saysTable_iff {t : TableData}
    (htypes : ∀ name ∈ t.tableData, (t.tableData.get name).type ≠ .boolean) :
    SaysTable (queryResultOf t) t ↔
      ∀ name ∈ t.tableData, IntsFit (t.tableData.get name) := by
  have hlookup : ∀ name ∈ t.tableData, (queryResultOf t).queryResult.lookup name =
      some (queryResultColumn (t.tableData.get name)) := by
    intro name hname
    rw [lookup_queryResultOf, ColMap.lookup_eq_get hname]
    rfl
  constructor
  · intro h name hname
    obtain ⟨c, hc, -, hvalues⟩ := h.columns name hname
    obtain rfl := Option.some.inj ((hlookup name hname).symm.trans hc)
    exact (queryResultColumn_values_iff _).mp hvalues
  · intro h
    refine ⟨fun name => ?_, rfl, fun name hname => ?_⟩
    · rw [← AList.lookup_isSome, ← AList.lookup_isSome, lookup_queryResultOf, Option.isSome_map]
    · exact ⟨_, hlookup name hname, queryResultColumn_type (htypes name hname),
        (queryResultColumn_values_iff _).mpr (h name hname)⟩

/-- The run of `GetQueryResult` on a finished work: the message for its
table, and no more buffer for the query. -/
theorem getQueryResult_spec {db : DataBuffer} {request : Request} {wid : Int} {w : WorkBuffer}
    (hasked : workIdOf db request.queryId request.workId request.tableName = some wid)
    (hw : db.work? request.queryId wid = some w) (hdone : w.status = .workDone) :
    ∃ t result, getQueryResult db request = some (result, endQuery db request.queryId) ∧
      result = queryResultOf t ∧ t.tableData = w.tableData ∧ t.rowCount = w.rowCount := by
  have hfinished : ¬ (w.status = .notFinished ∨ w.status = .initialized) := by simp [hdone]
  refine ⟨{ w.table with
    scannedRowCount := (db.query request.queryId).scannedRowCount
    filteredRowCount := (db.query request.queryId).filteredRowCount }, _, ?_, rfl, rfl, rfl⟩
  simp only [getQueryResult, initializeBuffer_of_work hasked hw, getFinishedTableData, hasked,
    Option.bind_eq_bind, Option.bind_some, hw, if_neg hfinished]
  rfl

/-- **The wire result equals the buffered result** exactly where every integer
of an INT or DATE column fits in 32 bits. -/
theorem getQueryResult_saysTable_iff {db : DataBuffer} {request : Request} {wid : Int}
    {w : WorkBuffer}
    (hasked : workIdOf db request.queryId request.workId request.tableName = some wid)
    (hw : db.work? request.queryId wid = some w) (hdone : w.status = .workDone)
    (htypes : ∀ name ∈ w.tableData, (w.tableData.get name).type ≠ .boolean) :
    ∃ result db', getQueryResult db request = some (result, db') ∧
      (SaysTable result w.table ↔ ∀ name ∈ w.tableData, IntsFit (w.tableData.get name)) := by
  obtain ⟨t, result, hrun, rfl, htable, hcount⟩ := getQueryResult_spec hasked hw hdone
  have hwire : SaysTable (queryResultOf t) w.table ↔ SaysTable (queryResultOf t) t :=
    ⟨fun h => h.congr htable hcount, fun h => h.congr htable.symm hcount.symm⟩
  refine ⟨_, _, hrun, ?_⟩
  rw [hwire, queryResultOf_saysTable_iff (htable.symm ▸ htypes), htable]

/-- Query 1, whose finished work 2 is the table `total` with the column `sum`. -/
def totalBuffer (sums : List Int) : DataBuffer :=
  AList.singleton 1
    { queryId := 1
      workBufferList := AList.singleton 2
        { tableAlias := "total"
          tableColumn := ["sum"]
          tableData := AList.singleton "sum"
            { type := .int, intvec := sums, isnull := sums.map fun _ => false,
              rowCount := sums.length }
          rowCount := sums.length
          status := .workDone }
      tablenameWorkidMap := AList.singleton "total" 2 }

theorem getQueryResult_small :
    ∃ w, (totalBuffer [5, -7]).work? 1 2 = some w ∧
      ∃ result db', getQueryResult (totalBuffer [5, -7]) ⟨1, -1, "total"⟩ = some (result, db') ∧
        (SaysTable result w.table ↔
          ∀ name ∈ w.tableData, IntsFit (w.tableData.get name)) := by
  refine ⟨_, rfl, getQueryResult_saysTable_iff rfl rfl rfl fun name hname => ?_⟩
  rw [← AList.insert_empty, AList.mem_insert] at hname
  obtain rfl : name = "sum" := by simpa using hname
  decide

/-- The sum 2147483648 arrives as -2147483648. -/
theorem getQueryResult_overflow :
    ∃ w, (totalBuffer [2147483648]).work? 1 2 = some w ∧
      ∃ result db', getQueryResult (totalBuffer [2147483648]) ⟨1, -1, "total"⟩ =
          some (result, db') ∧
        (result.queryResult.lookup "sum").bind (·.value? 0) = some (.int (-2147483648)) ∧
        ¬ SaysTable result w.table := by
  refine ⟨_, rfl, _, _, rfl, rfl, fun h => ?_⟩
  obtain ⟨c, hc, -, hvalues⟩ := h.columns "sum" (by decide)
  obtain rfl := Option.some.inj hc
  exact absurd (hvalues 0) (by decide)

end KetiEngine.Merging
