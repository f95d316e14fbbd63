import KetiEngine.Lib.Groups
import KetiEngine.Merging.Delivery
import KetiEngine.Merging.Finished
import KetiEngine.Merging.QueryRun
import KetiEngine.Merging.Readers

/-!
# QueryPlan — what a query computes, whatever the interleaving

A plan is the works that are scanned, each with the results its CSDs send,
and the snippets that are computed from other works. In every run of the
threads of the query, a work that is done stays as it is, each scanned work
has the rows of all of its results, and each snippet has what it computes
from works that are done.
-/

namespace KetiEngine.Merging

open KetiEngine Runs DataBuffer

/-! ## Plans -/

/-- A work that is scanned by CSDs. -/
structure Scan where
  workId : Int
  tableAlias : String
  names : List String
  types : List Int
  total : Int
  results : List BlockResult

structure QueryPlan where
  scans : List Scan
  snippets : List QuerySnippet

namespace QueryPlan

/-- The ids of the works, each with the name of its table. -/
def works (p : QueryPlan) : List (Int × String) :=
  p.scans.map (fun c => (c.workId, c.tableAlias)) ++
    p.snippets.map fun m => (m.workId, m.tableAlias)

/-- Works have ids and names of their own, and the results of a scan make up
a delivery for its work. -/
structure WellFormed (qid : Int) (p : QueryPlan) : Prop where
  ids : (p.works.map Prod.fst).Nodup
  names : (p.works.map Prod.snd).Nodup
  ordinary : ∀ q ∈ p.works, q.1 ≠ -1
  delivery : ∀ c ∈ p.scans, Delivery c.names c.types c.total c.results
  results : ∀ c ∈ p.scans, ∀ r ∈ c.results, r.tableAlias = c.tableAlias

end QueryPlan

/-- What the receiver and the merge threads of a work do, and the calls that ask
for it, as events of its system. -/
def scanEvents (wid : Int) (es : List QueryEvent) : List Event :=
  es.filterMap fun
    | .scan v e => if v = wid then some e.toEvent else none
    | .enter request =>
        if request.workId = wid then some (.enter request.workId request.tableName) else none
    | _ => none

/-- The snippets that threads were started for, in order. -/
def spawned (es : List QueryEvent) : List QuerySnippet :=
  es.filterMap fun
    | .aggregation m => some m
    | _ => none

/-- Some events of a query that is executed as planned: each result arrives
at most once, each snippet is started at most once, calls ask for works of the
plan by id and name, or by name only, and none of them is answered yet. -/
structure Follows (p : QueryPlan) (es : List QueryEvent) : Prop where
  scans : ∀ wid e, .scan wid e ∈ es → ∃ c ∈ p.scans, c.workId = wid
  pushes : ∀ c ∈ p.scans, (pushes (scanEvents c.workId es)).Subperm c.results
  snippets : (spawned es).Subperm p.snippets
  asked : ∀ request, .enter request ∈ es →
    request.workId = -1 ∨ (request.workId, request.tableName) ∈ p.works
  unanswered : ∀ request, .getQueryResult request ∉ es

theorem Follows.of_append {p : QueryPlan} {es es' : List QueryEvent} (h : Follows p (es ++ es')) :
    Follows p es := by
  constructor
  case scans => exact fun wid e he => h.scans wid e (List.mem_append_left _ he)
  case pushes =>
    intro c hc
    have hpushes := h.pushes c hc
    rw [scanEvents, List.filterMap_append, Merging.pushes, List.filterMap_append] at hpushes
    exact (List.sublist_append_left _ _).subperm.trans hpushes
  case snippets =>
    have hsnippets := h.snippets
    rw [spawned, List.filterMap_append] at hsnippets
    exact (List.sublist_append_left _ _).subperm.trans hsnippets
  case asked => exact fun request he => h.asked request (List.mem_append_left _ he)
  case unanswered => exact fun request he => h.unanswered request (List.mem_append_left _ he)

variable {qid wid : Int} {sort : SortFunction} {db db' : DataBuffer} {m : QuerySnippet}
  {phase : Phase} {p : QueryPlan} {s s' : QueryState qid}

/-! ## What a snippet thread gets and saves -/

/-- `t` is the table of a finished work, with the counters of some moment. -/
def IsTableOf (t : TableData) (w : WorkBuffer) : Prop :=
  ∃ scanned filtered, t = { w.table with scannedRowCount := scanned, filteredRowCount := filtered }

/-- The work with this table is done. -/
def FinishedWork (db : DataBuffer) (qid : Int) (tableName : String) (w : WorkBuffer) : Prop :=
  ∃ v, namedWork db qid tableName = some v ∧ db.work? qid v = some w ∧ w.status = .workDone

/-- `finished` is the table that the snippet waits for. -/
def QuerySnippet.Fetched (m : QuerySnippet) (db : DataBuffer) (finished : TableData) : Prop :=
  match m.finishedTable? with
  | none => finished = {}
  | some i => ∃ tableName w, m.tableName[i]? = some tableName ∧
      FinishedWork db m.queryId tableName w ∧ IsTableOf finished w

/-- The tables are parts of a finished one, as they grew; the last one is all
of it. -/
def GrowsTo (delivered : List TableData) (final : TableData) : Prop :=
  delivered = [final] ∨ ∃ n, Snapshots delivered final n

/-- `delivered` is what was read of the table that the snippet goes through. -/
def QuerySnippet.Delivered (m : QuerySnippet) (db : DataBuffer) (delivered : List TableData) :
    Prop :=
  match m.growingTable? with
  | none => delivered = []
  | some i => ∃ tableName w, m.tableName[i]? = some tableName ∧
      FinishedWork db m.queryId tableName w ∧ GrowsTo delivered w.table

/-- The buffer with what a snippet computes from the tables it was given. -/
def QuerySnippet.savedWork (sort : SortFunction) (m : QuerySnippet) (finished : TableData)
    (delivered : List TableData) : Option WorkBuffer := do
  let targetTable ← m.targetTable finished delivered
  let resultTable ← columnProjection targetTable m.groupBy m.projection m.columnAlias
  let table ← m.lastTable sort resultTable
  if m.limit.length ≠ 0 then
    WorkBuffer.save {} m.saved table m.limit.offset m.limit.length
  else WorkBuffer.save {} m.saved table 0 table.rowCount

/-- The buffer of a snippet that is done: computed from works that are done. -/
def QuerySnippet.ComputedFrom (sort : SortFunction) (m : QuerySnippet) (db : DataBuffer)
    (w : WorkBuffer) : Prop :=
  ∃ finished delivered, m.Fetched db finished ∧ m.Delivered db delivered ∧
    m.savedWork sort finished delivered = some w

/-- `GetFinishedTableData` returns the table of a work that is done. -/
theorem fetch_spec (h : m.fetch db = some (db', phase)) :
    db'.query m.queryId = db.query m.queryId ∧
      ∃ finished, phase = .reading finished 0 [] ∧ m.Fetched db finished := by
  unfold QuerySnippet.fetch at h
  unfold QuerySnippet.Fetched
  cases hwaits : m.finishedTable? with
  | none =>
    rw [hwaits] at h
    cases h
    exact ⟨rfl, {}, rfl, rfl⟩
  | some i =>
    rw [hwaits] at h
    obtain ⟨tableName, hname, h⟩ := Option.bind_eq_some_iff.mp h
    obtain ⟨finished, hget, h⟩ := Option.bind_eq_some_iff.mp h
    cases h
    refine ⟨query_initializeReader db _ tableName, finished, rfl, tableName, ?_⟩
    obtain ⟨v, hv, hget⟩ := Option.bind_eq_some_iff.mp hget
    obtain ⟨w, hw, hget⟩ := Option.bind_eq_some_iff.mp hget
    split at hget
    · cases hget
    · rename_i hstatus
      cases hget
      have hreader := query_initializeReader db m.queryId tableName
      have hv : namedWork db m.queryId tableName = some v := by
        rw [namedWork_eq, ← hreader, ← namedWork_eq]
        exact hv
      rw [work?, hreader, ← work?] at hw
      refine ⟨w, hname, ⟨v, hv, hw, ?_⟩, _, _, rfl⟩
      cases hs : w.status with
      | workDone => rfl
      | initialized => exact absurd (.inr hs) hstatus
      | notFinished => exact absurd (.inl hs) hstatus

/-- `GetTableData` returns the table of a work as it is now. -/
theorem read_spec {finished : TableData} {rowIndex : Int} {delivered : List TableData}
    (h : m.read db finished rowIndex delivered = some (db', phase)) :
    db'.query m.queryId = db.query m.queryId ∧
      (m.growingTable? = none ∧ phase = .loaded finished delivered ∨
      ∃ i tableName v w, m.growingTable? = some i ∧ m.tableName[i]? = some tableName ∧
        namedWork db m.queryId tableName = some v ∧ db.work? m.queryId v = some w ∧
        (w.status = .workDone ∧ phase = .loaded finished (delivered ++ [w.table]) ∨
        w.status ≠ .workDone ∧ 1000000 ≤ w.rowCount - rowIndex ∧
          phase = .reading finished w.rowCount (delivered ++ [w.table]))) := by
  unfold QuerySnippet.read at h
  cases hreads : m.growingTable? with
  | none =>
    rw [hreads] at h
    cases h
    exact ⟨rfl, .inl ⟨rfl, rfl⟩⟩
  | some i =>
    rw [hreads] at h
    obtain ⟨tableName, hname, h⟩ := Option.bind_eq_some_iff.mp h
    obtain ⟨t, hget, h⟩ := Option.bind_eq_some_iff.mp h
    obtain ⟨v, hv, hget⟩ := Option.bind_eq_some_iff.mp hget
    obtain ⟨w, hw, hget⟩ := Option.bind_eq_some_iff.mp hget
    have hreader := query_initializeReader db m.queryId tableName
    have hv : namedWork db m.queryId tableName = some v := by
      rw [namedWork_eq, ← hreader, ← namedWork_eq]
      exact hv
    rw [work?, hreader, ← work?] at hw
    unfold WorkBuffer.read at hget
    split at hget
    · cases hget
    · rename_i hready
      cases hget
      have hstatus : w.table.status = w.status := rfl
      split at h
      · rename_i hdone
        cases h
        exact ⟨query_initializeReader db _ tableName, .inr ⟨i, tableName, v, w, rfl, hname, hv, hw,
          .inl ⟨hstatus ▸ hdone, rfl⟩⟩⟩
      · rename_i hdone
        cases h
        refine ⟨query_initializeReader db _ tableName, .inr ⟨i, tableName, v, w, rfl, hname, hv, hw,
          .inr ⟨hstatus ▸ hdone, ?_, rfl⟩⟩⟩
        by_contra hfew
        exact hready ⟨by omega, hstatus ▸ hdone⟩

/-- `RunSnippetWork` saves what the snippet computes. -/
theorem runSnippetWork_spec {finished : TableData} {delivered : List TableData}
    (hwork : db.work? m.queryId m.workId = some {})
    (h : runSnippetWork sort db m finished delivered = some db') :
    Writes m.queryId m.workId m.tableAlias db db' ∧
      ∃ w, m.savedWork sort finished delivered = some w ∧
        db'.work? m.queryId m.workId = some w := by
  unfold runSnippetWork at h
  unfold QuerySnippet.savedWork
  obtain ⟨target, htarget, h⟩ := Option.bind_eq_some_iff.mp h
  obtain ⟨result, hresult, h⟩ := Option.bind_eq_some_iff.mp h
  obtain ⟨t, ht, h⟩ := Option.bind_eq_some_iff.mp h
  simp only [htarget, hresult, ht, Option.bind_eq_bind, Option.bind_some]
  have hsaves : ∀ offset length, saveTableData db m.saved t offset length = some db' →
      Writes m.queryId m.workId m.tableAlias db db' ∧
        ∃ w, WorkBuffer.save {} m.saved t offset length = some w ∧
          db'.work? m.queryId m.workId = some w := by
    intro offset length hsave
    obtain ⟨w, w', hw, hsaved, hw'⟩ := saveTableData_spec hsave
    obtain rfl := Option.some.inj (hwork.symm.trans hw)
    exact ⟨writes_saveTableData hsave, w', hsaved, hw'⟩
  unfold saveResult at h
  by_cases hlimit : m.limit.length ≠ 0
  · rw [if_pos hlimit] at h ⊢
    exact hsaves _ _ h
  · rw [if_neg hlimit] at h ⊢
    exact hsaves _ _ h

theorem savedWork_status {finished : TableData} {delivered : List TableData} {w : WorkBuffer}
    (h : m.savedWork sort finished delivered = some w) : w.status = .workDone := by
  unfold QuerySnippet.savedWork at h
  obtain ⟨target, -, h⟩ := Option.bind_eq_some_iff.mp h
  obtain ⟨result, -, h⟩ := Option.bind_eq_some_iff.mp h
  obtain ⟨t, -, h⟩ := Option.bind_eq_some_iff.mp h
  split at h
  · exact WorkBuffer.save_workDone h
  · exact WorkBuffer.save_workDone h

end KetiEngine.Merging
