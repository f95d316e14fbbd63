import KetiEngine.Merging.Frame
import Mathlib.Logic.Function.Basic

/-!
# QueryRun — all the threads of a query

For each work that is scanned there are the receiver and the merge threads,
for each snippet a thread in `RunSnippetWork`, and there are the calls of
`GetQueryResult`. A critical section is one step, and so is each access to the
maps of the data buffer and to the row counters of the query, though no mutex
is common to all of these. A thread that waits goes on when the table is
there; how it sleeps until then is in `QueryWaits`.
-/

namespace KetiEngine.Merging

open KetiEngine Runs DataBuffer

/-! ## The threads of a query -/

/-- Where a thread in `RunSnippetWork` is. -/
inductive Phase where
  | started
  /-- after `InitializeBuffer` -/
  | initialized
  /-- in the loop over the second table, with what it delivered so far -/
  | reading (finished : TableData) (rowIndex : Int) (delivered : List TableData)
  /-- with all it needs from other works -/
  | loaded (finished : TableData) (delivered : List TableData)
  | saved

/-- A thread in `RunSnippetWork` for a snippet of query `qid`. -/
structure SnippetThread (qid : Int) where
  snippet : QuerySnippet
  own : snippet.queryId = qid
  phase : Phase := .started

/-- `GetFinishedTableData` for the table that a snippet waits for, once it is
done; a wait that ends before is a step of `queryThreads`. -/
def QuerySnippet.fetch (db : DataBuffer) (m : QuerySnippet) : Option (DataBuffer × Phase) :=
  match m.finishedTable? with
  | none => some (db, .reading {} 0 [])
  | some i => do
      let tableName ← m.tableName[i]?
      let db := initializeBuffer db m.queryId (-1) tableName
      let finished ← getFinishedTableData db m.queryId (-1) tableName
      pure (db, .reading finished 0 [])

/-- One round of the loop over the table that is read while it grows. -/
def QuerySnippet.read (db : DataBuffer) (m : QuerySnippet) (finished : TableData)
    (rowIndex : Int) (delivered : List TableData) : Option (DataBuffer × Phase) :=
  match m.growingTable? with
  | none => some (db, .loaded finished delivered)
  | some i => do
      let tableName ← m.tableName[i]?
      let db := initializeBuffer db m.queryId (-1) tableName
      let t ← getTableData db m.queryId (-1) tableName rowIndex
      if t.status = .workDone then pure (db, .loaded finished (delivered ++ [t]))
      else pure (db, .reading finished t.rowCount (delivered ++ [t]))

/-- The next step of a thread in `RunSnippetWork`. -/
def SnippetThread.next {qid : Int} (sort : SortFunction) (db : DataBuffer)
    (t : SnippetThread qid) : Option (DataBuffer × Phase) :=
  match t.phase with
  | .started => some (initializeBuffer db qid t.snippet.workId t.snippet.tableAlias, .initialized)
  | .initialized => t.snippet.fetch db
  | .reading finished rowIndex delivered => t.snippet.read db finished rowIndex delivered
  | .loaded finished delivered => do
      let db ← runSnippetWork sort db t.snippet finished delivered
      pure (db, .saved)
  | .saved => none

/-- What the receiver and the merge threads of a work do. -/
inductive ScanEvent where
  | push (r : BlockResult)
  | pop (k : Nat) (r : BlockResult)
  | merge (k : Nat) (r : BlockResult)

def ScanEvent.toEvent : ScanEvent → Event
  | .push r => .push r
  | .pop k r => .pop k r
  | .merge k r => .merge k r

inductive QueryEvent where
  /-- A step of the receiver or of a merge thread of work `wid`. -/
  | scan (wid : Int) (e : ScanEvent)
  /-- The call of `Aggregation`, which starts a thread for a snippet. -/
  | aggregation (m : QuerySnippet)
  /-- The next step of snippet thread `k`. -/
  | snippet (k : Nat)
  /-- A call of `GetQueryResult` gets past `initializeBuffer`. -/
  | enter (request : Request)
  /-- A call of `GetQueryResult` has its answer and ends the query. -/
  | getQueryResult (request : Request)

structure QueryThreads (qid : Int) where
  merging : Int → List MergeThread := fun _ => []
  snippets : List (SnippetThread qid) := []
  results : List QueryResult := []

structure QueryState (qid : Int) extends QueryThreads qid where
  dataBuffer : DataBuffer := ∅

/-- The work buffer `wid` with its merge threads. -/
def QueryState.system {qid : Int} (s : QueryState qid) (wid : Int) : System where
  dataBuffer := s.dataBuffer
  threads := s.merging wid

/-- The step function of the threads of query `qid`, their waits aside. -/
def queryStep (sort : SortFunction) (qid : Int) (s : QueryState qid) :
    QueryEvent → Option (QueryState qid)
  | .scan wid e => do
      let t ← step qid wid (s.system wid) e.toEvent
      pure { s with
        dataBuffer := t.dataBuffer
        merging := Function.update s.merging wid t.threads }
  | .aggregation m =>
      if own : m.queryId = qid then some { s with snippets := s.snippets ++ [⟨m, own, .started⟩] }
      else none
  | .snippet k => do
      let t ← s.snippets[k]?
      let (dataBuffer, phase) ← t.next sort s.dataBuffer
      pure { s with dataBuffer, snippets := s.snippets.set k { t with phase } }
  | .enter request =>
      if request.queryId = qid then
        some { s with
          dataBuffer := initializeBuffer s.dataBuffer qid request.workId request.tableName }
      else none
  | .getQueryResult request =>
      if request.queryId = qid then do
        let (result, dataBuffer) ← getQueryResult s.dataBuffer request
        pure { s with dataBuffer, results := s.results ++ [result] }
      else none

variable {qid wid : Int} {sort : SortFunction} {db db' : DataBuffer} {m : QuerySnippet}
  {phase : Phase}

/-! ## What a step writes -/

/-- At its end `RunSnippetWork` saves a table. -/
theorem runSnippetWork_save {finished : TableData} {delivered : List TableData}
    (h : runSnippetWork sort db m finished delivered = some db') :
    ∃ t offset length, saveTableData db m.saved t offset length = some db' := by
  unfold runSnippetWork at h
  obtain ⟨target, -, h⟩ := Option.bind_eq_some_iff.mp h
  obtain ⟨result, -, h⟩ := Option.bind_eq_some_iff.mp h
  obtain ⟨t, -, h⟩ := Option.bind_eq_some_iff.mp h
  unfold saveResult at h
  split at h
  · exact ⟨t, _, _, h⟩
  · exact ⟨t, _, _, h⟩

/-- A step of a snippet thread writes its own work only. -/
theorem writes_next {t : SnippetThread qid} (h : t.next sort db = some (db', phase)) :
    Writes qid t.snippet.workId t.snippet.tableAlias db db' := by
  obtain ⟨m, rfl, p⟩ := t
  have hreader : ∀ tableName, Writes m.queryId m.workId m.tableAlias db
      (initializeBuffer db m.queryId (-1) tableName) := fun tableName =>
    .of_query (query_initializeReader db m.queryId tableName) _ _
  have hnothing : Writes m.queryId m.workId m.tableAlias db db := .of_query rfl _ _
  unfold SnippetThread.next at h
  cases p with
  | started =>
    cases h
    exact writes_initializeBuffer db _ _ _
  | initialized =>
    simp only [QuerySnippet.fetch] at h
    split at h
    · cases h
      exact hnothing
    · obtain ⟨tableName, -, h⟩ := Option.bind_eq_some_iff.mp h
      obtain ⟨finished, -, h⟩ := Option.bind_eq_some_iff.mp h
      cases h
      exact hreader tableName
  | reading finished rowIndex delivered =>
    simp only [QuerySnippet.read] at h
    split at h
    · cases h
      exact hnothing
    · obtain ⟨tableName, -, h⟩ := Option.bind_eq_some_iff.mp h
      obtain ⟨u, -, h⟩ := Option.bind_eq_some_iff.mp h
      split at h
      · cases h
        exact hreader tableName
      · cases h
        exact hreader tableName
  | loaded finished delivered =>
    obtain ⟨db₁, hrun, h⟩ := Option.bind_eq_some_iff.mp h
    cases h
    obtain ⟨u, offset, length, hsave⟩ := runSnippetWork_save hrun
    exact writes_saveTableData hsave
  | saved => cases h

/-- A step of the receiver or of a merge thread writes its work only. -/
theorem writes_scan {s s' : System} {e : ScanEvent} {tableName : String}
    (hname : ∀ r, e = .push r → r.tableAlias = tableName)
    (h : step qid wid s e.toEvent = some s') :
    Writes qid wid tableName s.dataBuffer s'.dataBuffer := by
  cases e with
  | push r =>
    simp only [ScanEvent.toEvent, step, Option.ite_none_right_eq_some] at h
    obtain ⟨⟨rfl, rfl⟩, h⟩ := h
    obtain ⟨⟨db, started⟩, hpush, h⟩ := Option.bind_eq_some_iff.mp h
    cases h
    rw [← hname r rfl]
    exact writes_pushResult hpush
  | pop k r =>
    simp only [ScanEvent.toEvent, step] at h
    obtain ⟨w, -, h⟩ := Option.bind_eq_some_iff.mp h
    split at h
    · simp only [Option.ite_none_right_eq_some, Option.pure_def, Option.some.injEq] at h
      obtain ⟨-, rfl⟩ := h
      exact writes_setWork _ qid wid tableName _
    · cases h
  | merge k r =>
    simp only [ScanEvent.toEvent, step] at h
    split at h
    · simp only [Option.ite_none_right_eq_some] at h
      obtain ⟨-, h⟩ := h
      obtain ⟨⟨db, done⟩, hmerge, h⟩ := Option.bind_eq_some_iff.mp h
      cases h
      exact writes_mergeRound tableName hmerge
    · cases h

/-- The name that a step of the receiver may write. -/
theorem exists_tableName (e : ScanEvent) :
    ∃ tableName, ∀ r, e = .push r → r.tableAlias = tableName := by
  cases e with
  | push r =>
    refine ⟨r.tableAlias, fun r' h => ?_⟩
    cases h
    rfl
  | pop k r => exact ⟨"", fun r' h => by cases h⟩
  | merge k r => exact ⟨"", fun r' h => by cases h⟩

end KetiEngine.Merging
