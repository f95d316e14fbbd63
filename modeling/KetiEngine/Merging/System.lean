import KetiEngine.Merging.Buffer
import KetiEngine.Lib.Runs

/-!
# System — the threads around one work buffer

The threads that share work `wid` of query `qid`: the receiver calling
`pushResult`, the merge threads, a snippet calling `saveTableData`, and
readers in the loop of the join operators. What a thread does inside one
critical section is one step, and the steps of different threads interleave
freely. Popping the queue has a mutex of its own, so it is its own step.
-/

namespace KetiEngine

namespace TableData

/-- Row `i` of a table: its cell in each column. -/
def record (t : TableData) (i : Nat) : String → Option Cell :=
  fun name => (t.tableData.get name).cell? i

/-- The rows from `rowIndex` to the end. -/
def recordsFrom (t : TableData) (rowIndex : Int) : List (String → Option Cell) :=
  (List.range (t.rowCount - rowIndex).toNat).map fun d : Nat => t.record (rowIndex + d).toNat

end TableData

namespace Merging

/-- A thread running `mergeResult`. -/
inductive MergeThread where
  | waiting
  | merging (result : BlockResult)
  | finished
  deriving DecidableEq

/-- The loop in which the join operators read a table that is still being
filled; `processed` is the history of the rows it has gone through. -/
structure Reader where
  workId : Int
  tableName : String
  rowIndex : Int := 0
  processed : List (String → Option Cell) := []
  stopped : Bool := false

/-- One round of the loop, on the table `getTableData` returned. -/
def Reader.round (rd : Reader) (t : TableData) : Reader :=
  if rd.rowIndex = t.rowCount ∧ t.status = .workDone then { rd with stopped := true }
  else if rd.rowIndex = t.rowCount ∧ t.status ≠ .workDone then rd
  else
    { rd with
      processed := rd.processed ++ t.recordsFrom rd.rowIndex
      rowIndex := t.rowCount
      stopped := t.status = .workDone }

structure System where
  dataBuffer : DataBuffer
  threads : List MergeThread := []
  readers : List Reader := []

inductive Event where
  /-- `pushResult(r)`. -/
  | push (r : BlockResult)
  /-- Merge thread `k` takes `r` from the queue. -/
  | pop (k : Nat) (r : BlockResult)
  /-- Merge thread `k` merges `r`. -/
  | merge (k : Nat) (r : BlockResult)
  /-- A call of `getTableData` gets past `initializeBuffer`. -/
  | enter (workId : Int) (tableName : String)
  /-- `saveTableData`. -/
  | save (snippet : SavedSnippet) (table : TableData) (offset length : Int)
  /-- Reader `k` gets a table and goes through it. -/
  | read (k : Nat)

/-- The step function of the threads on work `wid` of query `qid`. -/
def step (qid wid : Int) (s : System) : Event → Option System
  | .push r =>
      if r.queryId = qid ∧ r.workId = wid then do
        let (dataBuffer, started) ← pushResult s.dataBuffer r
        pure { s with
          dataBuffer := dataBuffer
          threads := if started then s.threads ++ [.waiting] else s.threads }
      else none
  | .pop k r => do
      let w ← DataBuffer.work? s.dataBuffer qid wid
      match s.threads[k]?, w.workBufferQueue with
      | some .waiting, head :: rest =>
          if head = r then
            pure { s with
              dataBuffer :=
                DataBuffer.setWork s.dataBuffer qid wid { w with workBufferQueue := rest }
              threads := s.threads.set k (.merging r) }
          else none
      | _, _ => none
  | .merge k r =>
      match s.threads[k]? with
      | some (.merging result) =>
          if result = r then do
            let (dataBuffer, done) ← mergeRound s.dataBuffer qid wid result
            pure { s with
              dataBuffer := dataBuffer
              threads := s.threads.set k (if done then .finished else .waiting) }
          else none
      | _ => none
  | .enter workId tableName =>
      some { s with dataBuffer := initializeBuffer s.dataBuffer qid workId tableName }
  | .save snippet table offset length =>
      if snippet.queryId = qid ∧ snippet.workId = wid then do
        let dataBuffer ← saveTableData s.dataBuffer snippet table offset length
        pure { s with dataBuffer := dataBuffer }
      else none
  | .read k => do
      let rd ← s.readers[k]?
      if rd.stopped = false ∧ workIdOf s.dataBuffer qid rd.workId rd.tableName = some wid then do
        let t ← getTableData s.dataBuffer qid rd.workId rd.tableName rd.rowIndex
        pure { s with readers := s.readers.set k (rd.round t) }
      else none

/-! ## What one step does to the work -/

namespace System

/-- The work buffer, a new one where there is none yet. -/
def work (qid wid : Int) (s : System) : WorkBuffer :=
  (DataBuffer.work? s.dataBuffer qid wid).getD {}

def counters (qid : Int) (s : System) : Int × Int :=
  DataBuffer.counters s.dataBuffer qid

end System

variable {qid wid : Int} {s s' : System}

theorem step_push {r : BlockResult} (hwid : wid ≠ -1)
    (h : step qid wid s (.push r) = some s') :
    ∃ started, (s.work qid wid).push r = some (s'.work qid wid, started) ∧
      s'.threads = (if started then s.threads ++ [.waiting] else s.threads) ∧
      s'.readers = s.readers ∧ s'.counters qid = s.counters qid := by
  simp only [step, Option.ite_none_right_eq_some] at h
  obtain ⟨⟨rfl, rfl⟩, h⟩ := h
  obtain ⟨⟨db, started⟩, hpush, h⟩ := Option.bind_eq_some_iff.mp h
  cases h
  obtain ⟨w, hw, hwork, hcounters⟩ := pushResult_spec hwid hpush
  refine ⟨started, ?_, rfl, rfl, hcounters⟩
  simpa [System.work, hwork] using hw

theorem step_pop {k : Nat} {r : BlockResult} (h : step qid wid s (.pop k r) = some s') :
    s.threads[k]? = some .waiting ∧
    ∃ rest, (s.work qid wid).workBufferQueue = r :: rest ∧
      s'.work qid wid = { s.work qid wid with workBufferQueue := rest } ∧
      s'.threads = s.threads.set k (.merging r) ∧
      s'.readers = s.readers ∧ s'.counters qid = s.counters qid := by
  simp only [step] at h
  obtain ⟨w, hw, h⟩ := Option.bind_eq_some_iff.mp h
  split at h
  · rename_i head rest hthread hqueue
    simp only [Option.ite_none_right_eq_some, Option.pure_def, Option.some.injEq] at h
    obtain ⟨rfl, rfl⟩ := h
    exact ⟨hthread, rest, by simp [System.work, hw, hqueue], by simp [System.work, hw], rfl,
      rfl, by simp [System.counters]⟩
  · cases h

theorem step_merge {k : Nat} {r : BlockResult} (h : step qid wid s (.merge k r) = some s') :
    s.threads[k]? = some (.merging r) ∧
    ∃ done, (s.work qid wid).merge r = some (s'.work qid wid, done) ∧
      s'.threads = s.threads.set k (if done then .finished else .waiting) ∧
      s'.readers = s.readers ∧
      s'.counters qid = DataBuffer.count (s.counters qid) r := by
  simp only [step] at h
  split at h
  · rename_i result hthread
    simp only [Option.ite_none_right_eq_some] at h
    obtain ⟨rfl, h⟩ := h
    obtain ⟨⟨db, done⟩, hmerge, h⟩ := Option.bind_eq_some_iff.mp h
    cases h
    obtain ⟨w, w', hw, hmerge, hw', hcounters⟩ := mergeRound_spec hmerge
    exact ⟨hthread, done, by simpa [System.work, hw, hw'] using hmerge, rfl, rfl, hcounters⟩
  · cases h

theorem step_enter {asked : Int} {name : String}
    (h : step qid wid s (.enter asked name) = some s') :
    s'.work qid wid = s.work qid wid ∧ s'.threads = s.threads ∧ s'.readers = s.readers ∧
      s'.counters qid = s.counters qid := by
  cases h
  exact ⟨getD_work?_initializeBuffer _ qid wid asked name, rfl, rfl,
    counters_initializeBuffer _ qid asked name⟩

theorem step_save {snippet : SavedSnippet} {t : TableData} {offset length : Int}
    (h : step qid wid s (.save snippet t offset length) = some s') :
    (s.work qid wid).save snippet t offset length = some (s'.work qid wid) ∧
      s'.threads = s.threads ∧ s'.readers = s.readers := by
  simp only [step, Option.ite_none_right_eq_some] at h
  obtain ⟨⟨rfl, rfl⟩, h⟩ := h
  obtain ⟨db, hsave, h⟩ := Option.bind_eq_some_iff.mp h
  cases h
  obtain ⟨w, w', hw, hsave, hw'⟩ := saveTableData_spec hsave
  exact ⟨by simpa [System.work, hw, hw'] using hsave, rfl, rfl⟩

theorem step_read {k : Nat} (h : step qid wid s (.read k) = some s') :
    ∃ rd t, s.readers[k]? = some rd ∧ rd.stopped = false ∧
      (s.work qid wid).read rd.rowIndex = some t ∧
      s'.work qid wid = s.work qid wid ∧ s'.threads = s.threads ∧
      s'.readers = s.readers.set k (rd.round t) ∧ s'.counters qid = s.counters qid := by
  simp only [step] at h
  obtain ⟨rd, hrd, h⟩ := Option.bind_eq_some_iff.mp h
  simp only [Option.ite_none_right_eq_some] at h
  obtain ⟨⟨hgoing, hasked⟩, h⟩ := h
  obtain ⟨t, hget, h⟩ := Option.bind_eq_some_iff.mp h
  cases h
  obtain ⟨w, hw, hread⟩ := getTableData_spec hasked hget
  exact ⟨rd, t, hrd, hgoing, by simpa [System.work, hw] using hread, rfl, rfl, rfl, rfl⟩

end Merging

end KetiEngine
