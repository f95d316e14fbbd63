import KetiEngine.Merging.QueryResult
import KetiEngine.Merging.RunSnippet
import KetiEngine.Merging.System

/-!
# Frame — what the functions of the buffer manager leave alone

Each function works on the buffer of one query and, in it, on one work and on
the name of that work. It leaves the other works and names of the query alone.
-/

namespace KetiEngine.Merging

open KetiEngine DataBuffer

variable {qid wid v : Int} {tableName : String} {db db' db'' : DataBuffer}

/-- The buffer of a query, the part of `DataBuffer_` for its id. -/
def bufferOf (db : DataBuffer) (qid : Int) : Option QueryBuffer := db.lookup qid

/-- The work that made a table, as `GetTableData` finds it by the name. -/
def namedWork (db : DataBuffer) (qid : Int) (tableName : String) : Option Int :=
  workIdOf db qid (-1) tableName

theorem namedWork_eq (db : DataBuffer) (qid : Int) (tableName : String) :
    namedWork db qid tableName = (db.query qid).tablenameWorkidMap.lookup tableName := by
  unfold namedWork workIdOf
  rw [if_pos rfl]

@[simp] theorem bufferOf_insert (db : DataBuffer) (qid : Int) (q : QueryBuffer) :
    bufferOf (db.insert qid q) qid = some q :=
  AList.lookup_insert db

/-- The buffer that `initializeBuffer` leaves, from the one that is there. -/
def QueryBuffer.initialized (q : QueryBuffer) (wid : Int) (tableName : String) : QueryBuffer :=
  if wid = -1 ∨ wid ∈ q.workBufferList then q
  else
    { q with
      tablenameWorkidMap := q.tablenameWorkidMap.insert tableName wid
      workBufferList := q.workBufferList.insert wid {} }

theorem bufferOf_ensureQuery (db : DataBuffer) (qid : Int) :
    bufferOf (ensureQuery db qid) qid = some (db.query qid) := by
  unfold ensureQuery query
  by_cases hmem : qid ∈ db
  · obtain ⟨q, hq⟩ := Option.isSome_iff_exists.mp (AList.lookup_isSome.mpr hmem)
    simp [hmem, bufferOf, hq]
  · simp [hmem, AList.lookup_eq_none.mpr hmem]

theorem bufferOf_initializeBuffer (db : DataBuffer) (qid wid : Int) (tableName : String) :
    bufferOf (initializeBuffer db qid wid tableName) qid =
      some ((db.query qid).initialized wid tableName) := by
  unfold initializeBuffer QueryBuffer.initialized
  by_cases hminus : wid = -1
  · simp [hminus, bufferOf_ensureQuery]
  · by_cases hmem : wid ∈ (db.query qid).workBufferList
    · simp [hminus, hmem, bufferOf_ensureQuery]
    · simp [hminus, hmem]

theorem bufferOf_endQuery (db : DataBuffer) (qid : Int) :
    bufferOf (endQuery db qid) qid = none :=
  AList.lookup_erase qid db

/-! ## Other works and names -/

/-- The buffer of query `qid` is as it was but for work `wid` and for the name
`tableName`, which leads to that work now. -/
structure Writes (qid wid : Int) (tableName : String) (db db' : DataBuffer) : Prop where
  works : ∀ v, v ≠ wid → db'.work? qid v = db.work? qid v
  names : ∀ name, namedWork db' qid name = namedWork db qid name ∨
    name = tableName ∧ namedWork db' qid name = some wid

theorem Writes.trans (h : Writes qid wid tableName db db')
    (h' : Writes qid wid tableName db' db'') : Writes qid wid tableName db db'' := by
  constructor
  case works => exact fun v hv => (h'.works v hv).trans (h.works v hv)
  case names =>
    intro name
    rcases h'.names name with hsame | hnew
    · rw [hsame]
      exact h.names name
    · exact .inr hnew

/-- A new buffer for the query, with another work `wid` and the names as they were. -/
theorem writes_insert (db : DataBuffer) (qid wid : Int) (tableName : String) {b : QueryBuffer}
    {w : WorkBuffer} (hworks : b.workBufferList = (db.query qid).workBufferList.insert wid w)
    (hnames : b.tablenameWorkidMap = (db.query qid).tablenameWorkidMap ∨
      b.tablenameWorkidMap = (db.query qid).tablenameWorkidMap.insert tableName wid) :
    Writes qid wid tableName db (db.insert qid b) := by
  constructor
  case works =>
    intro v hv
    rw [work?, query_insert, hworks, AList.lookup_insert_ne hv, work?]
  case names =>
    intro name
    rw [namedWork_eq, query_insert, namedWork_eq]
    rcases hnames with hnames | hnames
    · exact .inl (by rw [hnames])
    · by_cases hname : name = tableName
      · exact .inr ⟨hname, by rw [hnames, hname, AList.lookup_insert]⟩
      · exact .inl (by rw [hnames, AList.lookup_insert_ne hname])

theorem query_initializeBuffer (db : DataBuffer) (qid wid : Int) (tableName : String) :
    query (initializeBuffer db qid wid tableName) qid =
      (db.query qid).initialized wid tableName := by
  have h := bufferOf_initializeBuffer db qid wid tableName
  rw [bufferOf] at h
  rw [query, h, Option.getD_some]

theorem writes_initializeBuffer (db : DataBuffer) (qid wid : Int) (tableName : String) :
    Writes qid wid tableName db (initializeBuffer db qid wid tableName) := by
  constructor
  case works =>
    intro v hv
    rw [work?, query_initializeBuffer, QueryBuffer.initialized, work?]
    split
    · rfl
    · exact AList.lookup_insert_ne hv
  case names =>
    intro name
    rw [namedWork_eq, query_initializeBuffer, QueryBuffer.initialized, namedWork_eq]
    split
    · exact .inl rfl
    · by_cases hname : name = tableName
      · exact .inr ⟨hname, by rw [hname]; exact AList.lookup_insert _⟩
      · exact .inl (AList.lookup_insert_ne hname)

/-- A work that has its buffer keeps it as it is. -/
theorem work?_initializeBuffer_of_some {w : WorkBuffer} (asked : Int) (tableName : String)
    (h : db.work? qid v = some w) :
    work? (initializeBuffer db qid asked tableName) qid v = some w := by
  by_cases hasked : asked = -1
  · rw [work?, query_initializeBuffer, QueryBuffer.initialized, if_pos (.inl hasked)]
    exact h
  by_cases hv : v = asked
  · subst hv
    rw [work?_initializeBuffer _ _ hasked, h, Option.getD_some]
  · exact ((writes_initializeBuffer db qid asked tableName).works v hv).trans h

/-- A reader's `initializeBuffer` leaves every work and name. -/
theorem query_initializeReader (db : DataBuffer) (qid : Int) (tableName : String) :
    query (initializeBuffer db qid (-1) tableName) qid = db.query qid := by
  rw [query_initializeBuffer, QueryBuffer.initialized, if_pos (.inl rfl)]

/-- Nothing is written where the buffer of the query stays as it is. -/
theorem Writes.of_query (hquery : db'.query qid = db.query qid) (wid : Int) (tableName : String) :
    Writes qid wid tableName db db' := by
  constructor
  case works =>
    intro v _
    rw [work?, hquery, work?]
  case names =>
    intro name
    rw [namedWork_eq, hquery, namedWork_eq]
    exact .inl rfl

/-- A work that gets its buffer gets its name. -/
theorem namedWork_initializeBuffer (tableName : String) (hwid : wid ≠ -1)
    (hnew : db.work? qid wid = none) :
    namedWork (initializeBuffer db qid wid tableName) qid tableName = some wid := by
  have hmem : wid ∉ (db.query qid).workBufferList := AList.lookup_eq_none.mp hnew
  rw [namedWork_eq, query_initializeBuffer, QueryBuffer.initialized, if_neg (by simp [hwid, hmem])]
  exact AList.lookup_insert _

theorem namedWork_setWork (db : DataBuffer) (qid wid : Int) (w : WorkBuffer) (name : String) :
    namedWork (db.setWork qid wid w) qid name = namedWork db qid name := by
  rw [namedWork_eq, setWork, query_insert, namedWork_eq]

theorem writes_setWork (db : DataBuffer) (qid wid : Int) (tableName : String) (w : WorkBuffer) :
    Writes qid wid tableName db (db.setWork qid wid w) :=
  writes_insert db qid wid tableName rfl (.inl rfl)

theorem writes_pushResult {r : BlockResult} {started : Bool}
    (h : pushResult db r = some (db', started)) :
    Writes r.queryId r.workId r.tableAlias db db' := by
  unfold pushResult at h
  obtain ⟨w, -, h⟩ := Option.bind_eq_some_iff.mp h
  obtain ⟨⟨w', b⟩, -, h⟩ := Option.bind_eq_some_iff.mp h
  cases h
  exact (writes_initializeBuffer db r.queryId r.workId r.tableAlias).trans
    (writes_setWork _ r.queryId r.workId r.tableAlias w')

theorem namedWork_pushResult {r : BlockResult} {started : Bool} (hwid : r.workId ≠ -1)
    (hnew : db.work? r.queryId r.workId = none) (h : pushResult db r = some (db', started)) :
    namedWork db' r.queryId r.tableAlias = some r.workId := by
  unfold pushResult at h
  obtain ⟨w, -, h⟩ := Option.bind_eq_some_iff.mp h
  obtain ⟨⟨w', b⟩, -, h⟩ := Option.bind_eq_some_iff.mp h
  cases h
  rw [namedWork_setWork]
  exact namedWork_initializeBuffer r.tableAlias hwid hnew

theorem writes_mergeRound {r : BlockResult} {done : Bool} (tableName : String)
    (h : mergeRound db qid wid r = some (db', done)) : Writes qid wid tableName db db' := by
  unfold mergeRound at h
  obtain ⟨w, -, h⟩ := Option.bind_eq_some_iff.mp h
  obtain ⟨⟨w', b⟩, -, h⟩ := Option.bind_eq_some_iff.mp h
  cases h
  exact writes_insert db qid wid tableName rfl (.inl rfl)

theorem writes_saveTableData {snippet : SavedSnippet} {t : TableData} {offset length : Int}
    (h : saveTableData db snippet t offset length = some db') :
    Writes snippet.queryId snippet.workId snippet.tableAlias db db' := by
  unfold saveTableData at h
  obtain ⟨w, -, h⟩ := Option.bind_eq_some_iff.mp h
  obtain ⟨w', -, h⟩ := Option.bind_eq_some_iff.mp h
  cases h
  exact writes_insert db _ _ _ rfl (.inr rfl)

end KetiEngine.Merging
