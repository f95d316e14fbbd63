import KetiEngine.MachineInt
import KetiEngine.Merging.Block

/-!
# Buffer — the buffers of the buffer manager

`WorkBuffer`, `QueryBuffer` and `DataBuffer_`, and the functions that work on
them. What a function does while it holds a work buffer's mutex is one
function on `WorkBuffer`; the function around it finds the buffer and puts
it back. The two counters of a query wrap around as an `int` does; the rows
and the blocks of a table are taken to number no more than an `int` holds. A
null work buffer is never dereferenced in the defined behaviour: it is `none`
here.
-/

namespace KetiEngine.Merging

open KetiEngine

structure WorkBuffer where
  workBufferQueue : List BlockResult := []
  tableAlias : String := ""
  tableColumn : List String := []
  tableData : ColMap := ∅
  tableTotalBlockCount : Int := 0
  mergedBlockCount : Int := 0
  status : WorkStatus := .initialized
  rowCount : Int := 0

structure QueryBuffer where
  queryId : Int
  scannedRowCount : Int := 0
  filteredRowCount : Int := 0
  workBufferList : AList (fun _ : Int => WorkBuffer) := ∅
  tablenameWorkidMap : AList (fun _ : String => Int) := ∅

/-- `DataBuffer_`: the query buffers by query id. -/
abbrev DataBuffer := AList (fun _ : Int => QueryBuffer)

/-- What `saveTableData` reads of a snippet. -/
structure SavedSnippet where
  queryId : Int
  workId : Int
  tableAlias : String
  columnAlias : List String

/-! ## Under the mutex of a work buffer -/

/-- The branch of `save_table_column_type` for a column of type `colType`. -/
def typedColumn (colType colLen : Int) (c : ColData) : ColData :=
  match MySQLDataType.ofCode? colType with
  | some .byte | some .int16 | some .int32 | some .int64 | some .timestamp =>
      { c with type := .int }
  | some .float32 | some .double => { c with type := .float }
  | some .newDecimal => { c with type := .float, realSize := (colLen - 6) * 2 }
  | some .date => { c with type := .date }
  | some .string | some .varString => { c with type := .string }
  | none => c

namespace WorkBuffer

/-- `save_table_column_type`. The two lists have one length, so the length
is read with the type although only one branch needs it. -/
def saveTableColumnType (w : WorkBuffer) (returnDatatype returnColumnLength : List Int) :
    Option WorkBuffer := do
  let tableData ← w.tableColumn.zipIdx.foldlM (fun td (p : String × Nat) => do
    let colType ← returnDatatype[p.2]?
    let colLen ← returnColumnLength[p.2]?
    pure (td.modify p.1 (typedColumn colType colLen))) w.tableData
  pure { w with tableData := tableData }

/-- `table_column.push_back(name); table_data.insert({name, ColData{}})`. -/
def addColumn (w : WorkBuffer) (name : String) : WorkBuffer :=
  { w with
    tableColumn := w.tableColumn ++ [name]
    tableData := w.tableData.insertNew name {} }

/-- The branch of `pushResult` for a buffer without results. -/
def start (w : WorkBuffer) (blockResult : BlockResult) : Option WorkBuffer := do
  let w := { w with tableAlias := blockResult.tableAlias }
  let w := blockResult.columnAlias.foldl addColumn w
  let w ← w.saveTableColumnType blockResult.returnDatatype blockResult.returnOfflen
  pure { w with
    tableTotalBlockCount := blockResult.tableTotalBlockCount
    status := .notFinished }

/-- `work_buffer_queue.push_work(blockResult)`. -/
def enqueue (w : WorkBuffer) (blockResult : BlockResult) : WorkBuffer :=
  { w with workBufferQueue := w.workBufferQueue ++ [blockResult] }

/-- `pushResult` under the mutex; the flag says that it starts a thread. -/
def push (w : WorkBuffer) (blockResult : BlockResult) : Option (WorkBuffer × Bool) :=
  if w.status = .initialized then do
    let w ← w.start blockResult
    pure (w.enqueue blockResult, true)
  else some (w.enqueue blockResult, false)

/-- One round of `mergeResult` under the mutex; the flag says that the
thread leaves its loop. -/
def merge (w : WorkBuffer) (result : BlockResult) : Option (WorkBuffer × Bool) := do
  let tableData ← mergeRows w.tableColumn result w.tableData
  let w := { w with
    tableData := tableData
    mergedBlockCount := w.mergedBlockCount + result.resultBlockCount
    rowCount := w.rowCount + result.rowCount }
  if w.mergedBlockCount = w.tableTotalBlockCount then
    pure ({ w with status := .workDone }, true)
  else pure (w, false)

/-- `assign(v.begin() + offset, v.begin() + length)`. -/
def slice {α : Type} (v : List α) (offset length : Int) : Option (List α) :=
  if 0 ≤ offset ∧ offset ≤ length ∧ length ≤ v.length then
    some ((v.take length.toNat).drop offset.toNat)
  else none

/-- The column `saveTableData` stores for `c`. -/
def slicedColumn (c : ColData) (offset length : Int) : Option ColData :=
  match c.type with
  | .string => do
      let strvec ← slice c.strvec offset length
      let isnull ← slice c.isnull offset length
      pure { strvec, isnull, rowCount := length - offset, type := c.type }
  | .int | .date => do
      let intvec ← slice c.intvec offset length
      let isnull ← slice c.isnull offset length
      pure { intvec, isnull, rowCount := length - offset, type := c.type }
  | .float => do
      let floatvec ← slice c.floatvec offset length
      let isnull ← slice c.isnull offset length
      pure { floatvec, isnull, rowCount := length - offset, type := c.type,
             realSize := c.realSize }
  | .empty | .boolean => some { type := c.type }

/-- The loop of `saveTableData` over the columns of a table. -/
def saveColumns (td : ColMap) (table : TableData) (offset length : Int) : Option ColMap :=
  table.tableData.entries.foldlM (fun td e => do
    let column ← slicedColumn e.2 offset length
    pure (AList.insert e.1 column td)) td

/-- `saveTableData` under the mutex. -/
def save (w : WorkBuffer) (snippet : SavedSnippet) (table : TableData) (offset length : Int) :
    Option WorkBuffer := do
  let w := { w with tableAlias := snippet.tableAlias }
  let w := snippet.columnAlias.foldl addColumn w
  let w ←
    if length ≤ table.rowCount then do
      let tableData ← saveColumns w.tableData table offset length
      pure { w with tableData := tableData, rowCount := length - offset }
    else pure { w with tableData := table.tableData, rowCount := table.rowCount }
  pure { w with status := .workDone }

/-- The copy of a buffer that its readers get; its counters are not set. -/
def table (w : WorkBuffer) : TableData :=
  { tableData := w.tableData, rowCount := w.rowCount, status := w.status }

/-- `getTableData` under the mutex, `none` while it waits on the condition. -/
def read (w : WorkBuffer) (rowIndex : Int) : Option TableData :=
  if w.rowCount - rowIndex < 1000000 ∧ w.status ≠ .workDone then none
  else some w.table

end WorkBuffer

/-! ## The functions of the buffer manager -/

namespace DataBuffer

/-- The buffer of query `qid`, a new one where there is none. -/
def query (db : DataBuffer) (qid : Int) : QueryBuffer :=
  (db.lookup qid).getD { queryId := qid }

/-- `DataBuffer_[qid]->work_buffer_list[wid]`. -/
def work? (db : DataBuffer) (qid wid : Int) : Option WorkBuffer :=
  (db.query qid).workBufferList.lookup wid

/-- `db` with `w` as work buffer `wid` of query `qid`. -/
def setWork (db : DataBuffer) (qid wid : Int) (w : WorkBuffer) : DataBuffer :=
  let queryBuffer := db.query qid
  db.insert qid { queryBuffer with workBufferList := queryBuffer.workBufferList.insert wid w }

/-- The first step of `initializeBuffer`: query `qid` has a buffer. -/
def ensureQuery (db : DataBuffer) (qid : Int) : DataBuffer :=
  if qid ∈ db then db else db.insert qid { queryId := qid }

end DataBuffer

def initializeBuffer (db : DataBuffer) (qid wid : Int) (tableName : String) : DataBuffer :=
  let db := DataBuffer.ensureQuery db qid
  if wid = -1 then db
  else
    let queryBuffer := DataBuffer.query db qid
    if wid ∈ queryBuffer.workBufferList then db
    else
      db.insert qid { queryBuffer with
        tablenameWorkidMap := queryBuffer.tablenameWorkidMap.insert tableName wid
        workBufferList := queryBuffer.workBufferList.insert wid {} }

/-- `pushResult`; the flag says that it starts a merge thread. -/
def pushResult (db : DataBuffer) (blockResult : BlockResult) : Option (DataBuffer × Bool) := do
  let qid := blockResult.queryId
  let wid := blockResult.workId
  let db := initializeBuffer db qid wid blockResult.tableAlias
  let workBuffer ← DataBuffer.work? db qid wid
  let (workBuffer, started) ← workBuffer.push blockResult
  pure (DataBuffer.setWork db qid wid workBuffer, started)

/-- The part of a round of `mergeResult` that follows `wait_and_pop`. -/
def mergeRound (db : DataBuffer) (qid wid : Int) (result : BlockResult) :
    Option (DataBuffer × Bool) := do
  let workBuffer ← DataBuffer.work? db qid wid
  let (workBuffer, done) ← workBuffer.merge result
  let queryBuffer := DataBuffer.query db qid
  pure (db.insert qid { queryBuffer with
    scannedRowCount := toInt32 (queryBuffer.scannedRowCount + result.scannedRowCount)
    filteredRowCount := toInt32 (queryBuffer.filteredRowCount + result.filteredRowCount)
    workBufferList := queryBuffer.workBufferList.insert wid workBuffer }, done)

def saveTableData (db : DataBuffer) (snippet : SavedSnippet) (table : TableData)
    (offset length : Int) : Option DataBuffer := do
  let qid := snippet.queryId
  let wid := snippet.workId
  let workBuffer ← DataBuffer.work? db qid wid
  let workBuffer ← workBuffer.save snippet table offset length
  let queryBuffer := DataBuffer.query db qid
  pure (db.insert qid { queryBuffer with
    tablenameWorkidMap := queryBuffer.tablenameWorkidMap.insert snippet.tableAlias wid
    workBufferList := queryBuffer.workBufferList.insert wid workBuffer })

/-- The work id `getTableData` reads from: work id -1 asks for the work that
made the table, `none` while there is none. -/
def workIdOf (db : DataBuffer) (qid wid : Int) (tableName : String) : Option Int :=
  if wid = -1 then (DataBuffer.query db qid).tablenameWorkidMap.lookup tableName else some wid

/-- The part of `getTableData` that follows `initializeBuffer`; `none` while
it waits. -/
def getTableData (db : DataBuffer) (qid wid : Int) (tableName : String) (rowIndex : Int) :
    Option TableData := do
  let wid ← workIdOf db qid wid tableName
  let workBuffer ← DataBuffer.work? db qid wid
  workBuffer.read rowIndex

/-- The part of `getFinishedTableData` that follows `initializeBuffer`, for a
call that does not wait; `none` when it has to. -/
def getFinishedTableData (db : DataBuffer) (qid wid : Int) (tableName : String) :
    Option TableData := do
  let wid ← workIdOf db qid wid tableName
  let workBuffer ← DataBuffer.work? db qid wid
  if workBuffer.status = .notFinished ∨ workBuffer.status = .initialized then none
  else
    let queryBuffer := DataBuffer.query db qid
    pure { workBuffer.table with
      scannedRowCount := queryBuffer.scannedRowCount
      filteredRowCount := queryBuffer.filteredRowCount }

def endQuery (db : DataBuffer) (qid : Int) : DataBuffer := db.erase qid

/-! ## Finding a work buffer again -/

namespace DataBuffer

/-- The two row counters of a query. -/
def counters (db : DataBuffer) (qid : Int) : Int × Int :=
  ((db.query qid).scannedRowCount, (db.query qid).filteredRowCount)

/-- The counters after a merge of the result. -/
def count (counters : Int × Int) (r : BlockResult) : Int × Int :=
  (toInt32 (counters.1 + r.scannedRowCount), toInt32 (counters.2 + r.filteredRowCount))

/-- The totals of the counters over some results. -/
def totals (results : List BlockResult) : Int × Int :=
  ((results.map (·.scannedRowCount)).sum, (results.map (·.filteredRowCount)).sum)

theorem foldl_count_toInt32 (scanned filtered : Int) (merged : List BlockResult) :
    merged.foldl count (toInt32 scanned, toInt32 filtered) =
      (toInt32 (scanned + (totals merged).1), toInt32 (filtered + (totals merged).2)) := by
  induction merged generalizing scanned filtered with
  | nil => simp [totals]
  | cons r rest ih =>
    have hcount : count (toInt32 scanned, toInt32 filtered) r =
        (toInt32 (scanned + r.scannedRowCount), toInt32 (filtered + r.filteredRowCount)) := by
      simp [count]
    rw [List.foldl_cons, hcount, ih]
    simp [totals, add_assoc]

/-- The counters of a query count from 0. -/
theorem foldl_count_zero (merged : List BlockResult) :
    merged.foldl count (0, 0) = (toInt32 (totals merged).1, toInt32 (totals merged).2) := by
  simpa using foldl_count_toInt32 0 0 merged

theorem totals_perm {results results' : List BlockResult} (h : results.Perm results') :
    totals results = totals results' := by
  rw [totals, totals, (h.map _).sum_eq, (h.map _).sum_eq]

/-- Counters that stay `int`s grow by the totals of what is merged. -/
theorem foldl_count {counters : Int × Int} {merged : List BlockResult}
    (hscanned : FitsInt32 (counters.1 + (totals merged).1))
    (hfiltered : FitsInt32 (counters.2 + (totals merged).2)) :
    merged.foldl count counters =
      (counters.1 + (totals merged).1, counters.2 + (totals merged).2) := by
  cases merged with
  | nil => simp [totals]
  | cons r rest =>
    have hcount := foldl_count_toInt32 (counters.1 + r.scannedRowCount)
      (counters.2 + r.filteredRowCount) rest
    simp only [totals, List.map_cons, List.sum_cons, ← add_assoc] at hscanned hfiltered hcount ⊢
    rw [List.foldl_cons, count, hcount, hscanned.toInt32_eq, hfiltered.toInt32_eq]

theorem query_insert (db : DataBuffer) (qid : Int) (q : QueryBuffer) :
    query (db.insert qid q) qid = q := by
  simp [query]

@[simp] theorem query_ensureQuery (db : DataBuffer) (qid : Int) :
    query (ensureQuery db qid) qid = db.query qid := by
  unfold ensureQuery
  split
  · rfl
  · rename_i hmem
    rw [query_insert, query, AList.lookup_eq_none.mpr hmem, Option.getD_none]

@[simp] theorem work?_setWork (db : DataBuffer) (qid wid : Int) (w : WorkBuffer) :
    (db.setWork qid wid w).work? qid wid = some w := by
  simp [work?, setWork, query_insert]

@[simp] theorem counters_setWork (db : DataBuffer) (qid wid : Int) (w : WorkBuffer) :
    (db.setWork qid wid w).counters qid = db.counters qid := by
  simp [counters, setWork, query_insert]

end DataBuffer

open DataBuffer

/-- After `initializeBuffer` the work has a buffer: the one it had, or a
new one. -/
theorem work?_initializeBuffer (db : DataBuffer) {qid wid : Int} (name : String)
    (hwid : wid ≠ -1) :
    work? (initializeBuffer db qid wid name) qid wid = some ((db.work? qid wid).getD {}) := by
  unfold initializeBuffer
  simp only [if_neg hwid, query_ensureQuery]
  split
  · rename_i hmem
    obtain ⟨w, hw⟩ := Option.isSome_iff_exists.mp (AList.lookup_isSome.mpr hmem)
    simp [work?, hw]
  · rename_i hmem
    rw [work?, query_insert, work?, AList.lookup_eq_none.mpr hmem]
    simp

/-- `initializeBuffer` for any work leaves this one as it was, or new. -/
theorem getD_work?_initializeBuffer (db : DataBuffer) (qid wid asked : Int) (name : String) :
    (work? (initializeBuffer db qid asked name) qid wid).getD {} =
      (db.work? qid wid).getD {} := by
  unfold initializeBuffer
  simp only
  by_cases hasked : asked = -1
  · simp [work?, hasked]
  · rw [if_neg hasked]
    split
    · simp [work?]
    · rename_i hmem
      by_cases hw : wid = asked
      · subst hw
        rw [query_ensureQuery] at hmem
        simp [work?, query_insert, AList.lookup_eq_none.mpr hmem]
      · simp [work?, query_insert, AList.lookup_insert_ne hw]

/-- A call for a work that has a buffer initializes nothing. -/
theorem initializeBuffer_of_work {db : DataBuffer} {qid wid asked : Int} {name : String}
    {w : WorkBuffer} (hasked : workIdOf db qid asked name = some wid)
    (hw : db.work? qid wid = some w) : initializeBuffer db qid asked name = db := by
  have hqid : qid ∈ db := by
    by_contra hmem
    simp [work?, query, AList.lookup_eq_none.mpr hmem] at hw
  have hensure : ensureQuery db qid = db := if_pos hqid
  unfold initializeBuffer
  simp only [hensure]
  by_cases hminus : asked = -1
  · rw [if_pos hminus]
  · rw [workIdOf, if_neg hminus] at hasked
    obtain rfl := Option.some.inj hasked
    have hmem : asked ∈ (query db qid).workBufferList :=
      AList.lookup_isSome.mp (Option.isSome_iff_exists.mpr ⟨w, by simpa [work?] using hw⟩)
    rw [if_neg hminus, if_pos hmem]

theorem counters_initializeBuffer (db : DataBuffer) (qid wid : Int) (name : String) :
    counters (initializeBuffer db qid wid name) qid = db.counters qid := by
  unfold initializeBuffer
  simp only [query_ensureQuery]
  by_cases hwid : wid = -1
  · simp [counters, hwid]
  · rw [if_neg hwid]
    split <;> simp [counters, query_insert]

/-- What `pushResult` does to its work: `WorkBuffer.push` on the buffer that
is there or on a new one, and nothing to the counters. -/
theorem pushResult_spec {db db' : DataBuffer} {r : BlockResult} {started : Bool}
    (hwid : r.workId ≠ -1) (h : pushResult db r = some (db', started)) :
    ∃ w, ((db.work? r.queryId r.workId).getD {}).push r = some (w, started) ∧
      db'.work? r.queryId r.workId = some w ∧
      db'.counters r.queryId = db.counters r.queryId := by
  unfold pushResult at h
  simp only [work?_initializeBuffer db _ hwid, Option.bind_eq_bind, Option.bind_some] at h
  obtain ⟨⟨w, b⟩, hpush, h⟩ := Option.bind_eq_some_iff.mp h
  cases h
  exact ⟨w, hpush, by simp, by simp [counters_initializeBuffer]⟩

theorem mergeRound_spec {db db' : DataBuffer} {qid wid : Int} {r : BlockResult} {done : Bool}
    (h : mergeRound db qid wid r = some (db', done)) :
    ∃ w w', db.work? qid wid = some w ∧ w.merge r = some (w', done) ∧
      db'.work? qid wid = some w' ∧
      db'.counters qid = count (db.counters qid) r := by
  unfold mergeRound at h
  obtain ⟨w, hw, h⟩ := Option.bind_eq_some_iff.mp h
  obtain ⟨⟨w', b⟩, hmerge, h⟩ := Option.bind_eq_some_iff.mp h
  cases h
  exact ⟨w, w', hw, hmerge, by simp [work?, query_insert],
    by simp [counters, query_insert, count]⟩

theorem saveTableData_spec {db db' : DataBuffer} {snippet : SavedSnippet} {t : TableData}
    {offset length : Int} (h : saveTableData db snippet t offset length = some db') :
    ∃ w w', db.work? snippet.queryId snippet.workId = some w ∧
      w.save snippet t offset length = some w' ∧
      db'.work? snippet.queryId snippet.workId = some w' := by
  unfold saveTableData at h
  obtain ⟨w, hw, h⟩ := Option.bind_eq_some_iff.mp h
  obtain ⟨w', hsave, h⟩ := Option.bind_eq_some_iff.mp h
  cases h
  exact ⟨w, w', hw, hsave, by simp [work?, query_insert]⟩

theorem saveTableData_of_save {db : DataBuffer} {snippet : SavedSnippet} {t : TableData}
    {offset length : Int} {w w' : WorkBuffer}
    (hw : db.work? snippet.queryId snippet.workId = some w)
    (hsave : w.save snippet t offset length = some w') :
    ∃ db', saveTableData db snippet t offset length = some db' ∧
      db'.work? snippet.queryId snippet.workId = some w' := by
  unfold saveTableData
  simp only [hw, hsave, Option.bind_eq_bind, Option.bind_some]
  exact ⟨_, rfl, by simp [work?, query_insert]⟩

/-- A call of `getTableData` that reads work buffer `wid`. -/
theorem getTableData_spec {db : DataBuffer} {qid wid asked : Int} {name : String}
    {rowIndex : Int} {t : TableData} (hasked : workIdOf db qid asked name = some wid)
    (h : getTableData db qid asked name rowIndex = some t) :
    ∃ w, db.work? qid wid = some w ∧ w.read rowIndex = some t := by
  unfold getTableData at h
  simp only [hasked, Option.bind_eq_bind, Option.bind_some] at h
  exact Option.bind_eq_some_iff.mp h

end KetiEngine.Merging
