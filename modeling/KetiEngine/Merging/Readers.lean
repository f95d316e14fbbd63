import KetiEngine.Merging.Ingest
import KetiEngine.Merging.Save

/-!
# Readers — reading a table while it is filled

The representation invariant of a work buffer and what readers get from it:
the buffer is rectangular between critical sections, what is in it stays
there, and a reader in the join operators' loop goes through every row once.
-/

namespace KetiEngine

namespace Merging

open KetiEngine Runs

/-- Every column's row count, null list and value vector have the length the
buffer says. -/
def WorkBuffer.Rectangular (w : WorkBuffer) : Prop :=
  ∃ n : Nat, w.rowCount = n ∧ ∀ name ∈ w.tableData, (w.tableData.get name).HasLength n

/-- The rows a buffer already has are the same in every extension of it with
the same columns. -/
theorem record_extends {w w' : WorkBuffer} (hrect : w.Rectangular)
    (h : w.table.Extends w'.table) (hnames : ∀ name ∈ w'.tableData, name ∈ w.tableData)
    {i : Nat} (hi : (i : Int) < w.rowCount) : w'.table.record i = w.table.record i := by
  obtain ⟨n, hn, hcol⟩ := hrect
  funext name
  simp only [TableData.record, WorkBuffer.table]
  by_cases hname : name ∈ w.tableData
  · obtain ⟨x, hx⟩ := ColData.cell?_isSome (hcol name hname) (i := i) (by omega)
    rw [hx]
    exact (h.columns name hname).cell? hx
  · have hname' : name ∉ w'.tableData := fun h' => hname (hnames name h')
    rw [ColMap.get_of_notMem hname, ColMap.get_of_notMem hname']

/-! ## The reader loop -/

/-- Where a reader is: it has gone through the first `rowIndex` rows, and it
stops only at the end of a finished table. -/
structure ReaderOk (w : WorkBuffer) (rd : Reader) : Prop where
  lower : 0 ≤ rd.rowIndex
  upper : rd.rowIndex ≤ w.rowCount
  processed : rd.processed = (List.range rd.rowIndex.toNat).map w.table.record
  stopped : rd.stopped = true → w.status = .workDone ∧ rd.rowIndex = w.rowCount

/-- A reader that has not begun. -/
def Reader.Starting (rd : Reader) : Prop :=
  rd.rowIndex = 0 ∧ rd.processed = [] ∧ rd.stopped = false

theorem ReaderOk.of_starting {w : WorkBuffer} {rd : Reader} (h : rd.Starting)
    (hw : 0 ≤ w.rowCount) : ReaderOk w rd := by
  obtain ⟨hindex, hprocessed, hstopped⟩ := h
  exact ⟨by omega, by omega, by simp [hindex, hprocessed], by simp [hstopped]⟩

/-- One round takes the reader to the end of what it was given. -/
theorem ReaderOk.round {w : WorkBuffer} {rd : Reader} {t : TableData} (h : ReaderOk w rd)
    (hread : w.read rd.rowIndex = some t) : ReaderOk w (rd.round t) := by
  have ht : t = w.table := by
    unfold WorkBuffer.read at hread
    split at hread
    · cases hread
    · exact (Option.some.inj hread).symm
  subst ht
  unfold Reader.round
  split
  · rename_i hend
    exact ⟨h.lower, h.upper, h.processed, fun _ => ⟨hend.2, hend.1⟩⟩
  · split
    · exact h
    · have hcount : w.rowCount.toNat =
          rd.rowIndex.toNat + (w.rowCount - rd.rowIndex).toNat := by
        have := h.lower
        have := h.upper
        omega
      refine ⟨Int.le_trans h.lower h.upper, Int.le_refl _, ?_, ?_⟩
      · have hrest : w.table.recordsFrom rd.rowIndex =
            ((List.range (w.rowCount - rd.rowIndex).toNat).map (rd.rowIndex.toNat + ·)).map
              w.table.record := by
          rw [List.map_map, TableData.recordsFrom]
          apply List.map_congr_left
          intro d _
          have := h.lower
          simp only [Function.comp_apply]
          congr 1
          omega
        show rd.processed ++ _ = (List.range w.rowCount.toNat).map _
        rw [h.processed, hrest, hcount, List.range_add, List.map_append]
      · intro hdone
        exact ⟨of_decide_eq_true hdone, rfl⟩

/-- Readers do not notice a step that keeps table, row count and status. -/
theorem ReaderOk.same {w w' : WorkBuffer} {rd : Reader} (h : ReaderOk w rd)
    (htable : w'.table = w.table) : ReaderOk w' rd := by
  have hcount : w'.rowCount = w.rowCount := congrArg TableData.rowCount htable
  have hstatus : w'.status = w.status := congrArg TableData.status htable
  exact ⟨h.lower, hcount ▸ h.upper, htable ▸ h.processed,
    fun hs => by rw [hstatus, hcount]; exact h.stopped hs⟩

/-- Readers are not disturbed by rows that are appended. -/
theorem ReaderOk.grow {w w' : WorkBuffer} {rd : Reader} (h : ReaderOk w rd)
    (hrect : w.Rectangular) (hgrow : w.table.Extends w'.table)
    (hnames : ∀ name ∈ w'.tableData, name ∈ w.tableData) (hstatus : w.status ≠ .workDone) :
    ReaderOk w' rd := by
  refine ⟨h.lower, Int.le_trans h.upper hgrow.count, ?_,
    fun hs => absurd (h.stopped hs).1 hstatus⟩
  rw [h.processed]
  apply List.map_congr_left
  intro i hi
  have hi : i < rd.rowIndex.toNat := List.mem_range.mp hi
  have := h.upper
  exact (record_extends hrect hgrow hnames (by omega)).symm

/-- Every reader of the system is where it should be. -/
def ReadersOk (qid wid : Int) (s : System) : Prop :=
  ∀ rd ∈ s.readers, ReaderOk (s.work qid wid) rd

theorem ReadersOk.read {qid wid : Int} {s s' : System} {k : Nat} (h : ReadersOk qid wid s)
    (hstep : step qid wid s (.read k) = some s') : ReadersOk qid wid s' := by
  obtain ⟨rd, t, hrd, -, hread, hw, -, hreaders, -⟩ := step_read hstep
  intro rd' hrd'
  rw [hreaders] at hrd'
  rw [hw]
  rcases List.mem_or_eq_of_mem_set hrd' with hmem | rfl
  · exact h rd' hmem
  · exact (h rd (List.mem_of_getElem? hrd)).round hread

/-- A step after which the table reads the same keeps the readers in place. -/
theorem ReadersOk.same {qid wid : Int} {s s' : System} (h : ReadersOk qid wid s)
    (hreaders : s'.readers = s.readers)
    (htable : (s'.work qid wid).table = (s.work qid wid).table) : ReadersOk qid wid s' := by
  intro rd hrd
  exact (h rd (hreaders ▸ hrd)).same htable

/-! ## A buffer fed by CSD results -/

/-- What a result must be like for a table with column types `types`. -/
structure Fits (types : List Int) (r : BlockResult) : Prop where
  distinct : r.columnAlias.Nodup
  types : r.returnDatatype = types
  empty : r.length = 0 → r.rowCount = 0

/-- A buffer that has been given its columns, and its merge thread. -/
structure Filling (qid wid : Int) (types : List Int) (s : System) : Prop where
  distinct : (s.work qid wid).tableColumn.Nodup
  member : ∀ name, name ∈ (s.work qid wid).tableData ↔ name ∈ (s.work qid wid).tableColumn
  count : 0 ≤ (s.work qid wid).rowCount
  column : ∀ (j : Nat) (name : String), (s.work qid wid).tableColumn[j]? = some name →
    ∃ code t, types[j]? = some code ∧ MySQLDataType.ofCode? code = some t ∧
      ((s.work qid wid).tableData.get name).type = vectorType t ∧
      ((s.work qid wid).tableData.get name).HasLength (s.work qid wid).rowCount.toNat
  queued : ∀ r ∈ (s.work qid wid).workBufferQueue, Fits types r
  thread : (s.threads = [.waiting] ∧ (s.work qid wid).status = .notFinished) ∨
    (∃ r, Fits types r ∧ s.threads = [.merging r] ∧
      (s.work qid wid).status = .notFinished) ∨
    (s.threads = [.finished] ∧ (s.work qid wid).status = .workDone)

theorem Filling.rectangular {qid wid : Int} {types : List Int} {s : System}
    (h : Filling qid wid types s) : (s.work qid wid).Rectangular := by
  refine ⟨(s.work qid wid).rowCount.toNat, by have := h.count; omega, ?_⟩
  intro name hname
  obtain ⟨j, hj⟩ := List.getElem?_of_mem ((h.member name).mp hname)
  obtain ⟨-, -, -, -, -, hlen⟩ := h.column j name hj
  exact hlen

/-- A step that leaves columns and table as they are. -/
theorem Filling.keep {qid wid : Int} {types : List Int} {s s' : System}
    (h : Filling qid wid types s)
    (hcolumns : (s'.work qid wid).tableColumn = (s.work qid wid).tableColumn)
    (htable : (s'.work qid wid).table = (s.work qid wid).table)
    (hqueued : ∀ r ∈ (s'.work qid wid).workBufferQueue, Fits types r)
    (hthread : (s'.threads = [.waiting] ∧ (s.work qid wid).status = .notFinished) ∨
      (∃ r, Fits types r ∧ s'.threads = [.merging r] ∧
        (s.work qid wid).status = .notFinished) ∨
      (s'.threads = [.finished] ∧ (s.work qid wid).status = .workDone)) :
    Filling qid wid types s' := by
  have hdata : (s'.work qid wid).tableData = (s.work qid wid).tableData :=
    congrArg TableData.tableData htable
  have hcount : (s'.work qid wid).rowCount = (s.work qid wid).rowCount :=
    congrArg TableData.rowCount htable
  have hstatus : (s'.work qid wid).status = (s.work qid wid).status :=
    congrArg TableData.status htable
  refine ⟨hcolumns ▸ h.distinct, ?_, hcount ▸ h.count, ?_, hqueued, hstatus ▸ hthread⟩
  · rw [hdata, hcolumns]
    exact h.member
  · rw [hdata, hcolumns, hcount]
    exact h.column

/-- The first result gives the buffer its columns. -/
theorem Filling.first {qid wid : Int} {types : List Int} {s s' : System} {r : BlockResult}
    (hwid : wid ≠ -1) (hknown : KnownTypes types) (h : Fresh qid wid s) (hr : Fits types r)
    (hstep : step qid wid s (.push r) = some s') : Filling qid wid types s' := by
  obtain ⟨started, hpush, hthreads, -, -⟩ := step_push hwid hstep
  rw [h.work] at hpush
  obtain ⟨rfl, td, hw', hmem, hcol⟩ := WorkBuffer.push_initialized rfl hr.distinct hpush
  rw [h.threads] at hthreads
  refine ⟨?_, ?_, ?_, ?_, ?_, .inl ⟨hthreads, by rw [hw']⟩⟩
  all_goals rw [hw']
  · exact hr.distinct
  · exact hmem
  · intro j name hname
    obtain ⟨code, len, hcode, -, hc⟩ := hcol j name hname
    rw [hr.types] at hcode
    obtain ⟨t, ht⟩ := Option.isSome_iff_exists.mp (hknown code (List.mem_of_getElem? hcode))
    refine ⟨code, t, hcode, ht, by simp only [hc, typedColumn_type len {} ht], ?_⟩
    obtain ⟨type, realSize, hnew⟩ := @typedColumn_default code len
    rw [hc, hnew]
    refine ⟨?_, rfl, rfl⟩
    unfold ColData.vecLength
    cases type <;> rfl
  · simp [hr]

/-- `w'` is `w` with the rows of `r` appended. -/
structure WorkBuffer.Appended (r : BlockResult) (w w' : WorkBuffer) : Prop where
  columns : w'.tableColumn = w.tableColumn
  names : ∀ name, name ∈ w'.tableData ↔ name ∈ w.tableData
  get : ∀ (j : Nat) (name : String), w.tableColumn[j]? = some name →
    w'.tableData.get name = (w.tableData.get name).appendValues
      (columnOf (r.decoded w.tableColumn.length) j)
  count : w'.rowCount = w.rowCount + r.rowCount
  rows : ∀ row ∈ r.decoded w.tableColumn.length,
    RowOf r.returnDatatype w.tableColumn.length row
  decodedCount : (r.decoded w.tableColumn.length).length = r.rowCount

theorem WorkBuffer.appended_of_merge {r : BlockResult} {w w' : WorkBuffer} {done : Bool}
    (hknown : KnownTypes r.returnDatatype) (hempty : r.length = 0 → r.rowCount = 0)
    (hdistinct : w.tableColumn.Nodup)
    (hmember : ∀ name, name ∈ w.tableData ↔ name ∈ w.tableColumn)
    (hmerge : w.merge r = some (w', done)) : w.Appended r w' := by
  obtain ⟨hdec, -, rfl⟩ := WorkBuffer.merge_spec hknown hmerge
  obtain ⟨vals, hvals⟩ := Option.isSome_iff_exists.mp hdec
  obtain ⟨-, hrows, hlen⟩ := decodeRows_known hknown hvals
  refine ⟨rfl, ?_, ?_, rfl, hrows, ?_⟩
  · intro name
    exact mem_foldl_pushRow _ _ _ fun n hn => (hmember n).mpr hn
  · intro j name hname
    exact get_foldl_pushRow _ _ _ hdistinct (fun row hrow => (hrows row hrow).length) hname
  · rw [hlen]
    split
    · rfl
    · rename_i hzero
      exact (hempty (by simpa using hzero)).symm

theorem WorkBuffer.Appended.extends {r : BlockResult} {w w' : WorkBuffer}
    (h : w.Appended r w') (hmember : ∀ name, name ∈ w.tableData ↔ name ∈ w.tableColumn) :
    w.table.Extends w'.table := by
  refine ⟨?_, ?_, ?_⟩
  · exact fun name hname => (h.names name).mpr hname
  · intro name hname
    obtain ⟨j, hj⟩ := List.getElem?_of_mem ((hmember name).mp hname)
    simp only [WorkBuffer.table]
    rw [h.get j name hj]
    exact ColData.Extends.appendValues _ _
  · simp only [WorkBuffer.table, h.count]
    omega

/-- A column of the type of its values gets one value for each row. -/
theorem WorkBuffer.Appended.hasLength {r : BlockResult} {w w' : WorkBuffer}
    (h : w.Appended r w') (hcount : 0 ≤ w.rowCount) {j : Nat} {name : String}
    (hname : w.tableColumn[j]? = some name) {code : Int} {t : MySQLDataType}
    (hcode : r.returnDatatype[j]? = some code) (ht : MySQLDataType.ofCode? code = some t)
    (htype : (w.tableData.get name).type = vectorType t)
    (hlength : (w.tableData.get name).HasLength w.rowCount.toNat) :
    (w'.tableData.get name).HasLength w'.rowCount.toNat := by
  have hj : ∀ row ∈ r.decoded w.tableColumn.length, j < row.length :=
    fun row hrow => (h.rows row hrow).length.symm ▸ (List.getElem?_eq_some_iff.mp hname).1
  have hacc : ∀ v ∈ columnOf (r.decoded w.tableColumn.length) j,
      (w.tableData.get name).type.Accepts v := by
    intro v hv
    obtain ⟨row, hrow, hv⟩ := List.mem_filterMap.mp hv
    obtain ⟨code', hcode', t', ht', hacc⟩ := (h.rows row hrow).ofType j v hv
    rw [hcode] at hcode'
    cases hcode'
    rw [ht] at ht'
    cases ht'
    rwa [htype]
  have happ := hlength.appendValues hacc
  rw [length_columnOf hj, h.decodedCount] at happ
  have hn : (w.rowCount + r.rowCount).toNat = w.rowCount.toNat + r.rowCount := by omega
  rw [h.get j name hname, h.count, hn]
  exact happ

/-- Only the merge thread of the work can merge, and what it merges fits. -/
theorem Filling.merging {qid wid : Int} {types : List Int} {s : System} {k : Nat}
    {r : BlockResult} (h : Filling qid wid types s)
    (hthread : s.threads[k]? = some (.merging r)) :
    k = 0 ∧ Fits types r ∧ (s.work qid wid).status = .notFinished ∧
      s.threads = [.merging r] := by
  rcases h.thread with ⟨ht, -⟩ | ⟨r', hr', ht, hst⟩ | ⟨ht, -⟩
  all_goals rw [ht] at hthread
  · cases k <;> simp at hthread
  · cases k with
    | zero =>
      simp only [List.getElem?_cons_zero, Option.some.injEq, MergeThread.merging.injEq] at hthread
      subst hthread
      exact ⟨rfl, hr', hst, ht⟩
    | succ k => simp at hthread
  · cases k <;> simp at hthread

/-- The merge of a result leaves the buffer rectangular and longer. -/
theorem Filling.merge {qid wid : Int} {types : List Int} {s s' : System} {k : Nat}
    {r : BlockResult} (hknown : KnownTypes types) (h : Filling qid wid types s)
    (hstep : step qid wid s (.merge k r) = some s') :
    Filling qid wid types s' ∧ (s.work qid wid).table.Extends (s'.work qid wid).table ∧
      (∀ name ∈ (s'.work qid wid).tableData, name ∈ (s.work qid wid).tableData) ∧
      (s.work qid wid).status ≠ .workDone := by
  obtain ⟨hthread, done, hmerge, hthreads, -, -⟩ := step_merge hstep
  obtain ⟨rfl, hr, hstatus, hold⟩ := h.merging hthread
  rw [← hr.types] at hknown
  have happ := WorkBuffer.appended_of_merge hknown hr.empty h.distinct h.member hmerge
  obtain ⟨-, hdone, hw'⟩ := WorkBuffer.merge_spec hknown hmerge
  refine ⟨⟨happ.columns ▸ h.distinct, ?_, ?_, ?_, ?_, ?_⟩, happ.extends h.member,
    fun name hname => (happ.names name).mp hname, by rw [hstatus]; decide⟩
  · intro name
    rw [happ.names, h.member, happ.columns]
  · have := h.count
    rw [happ.count]
    omega
  · intro j name hname
    rw [happ.columns] at hname
    obtain ⟨code, t, hcode, ht, htype, hlength⟩ := h.column j name hname
    refine ⟨code, t, hcode, ht, by rw [happ.get j name hname]; exact htype, ?_⟩
    exact happ.hasLength h.count hname (hr.types ▸ hcode) ht htype hlength
  · rw [hw']
    exact h.queued
  · rw [hthreads, hold, hdone, hw']
    by_cases hlast : (s.work qid wid).mergedBlockCount + r.resultBlockCount =
        (s.work qid wid).tableTotalBlockCount
    · right; right
      simp [hlast]
    · left
      simp [hlast, hstatus]

/-- The work before its first result: nothing is there and no reader has
begun. -/
structure Untouched (qid wid : Int) (s : System) : Prop where
  fresh : Fresh qid wid s
  starting : ∀ rd ∈ s.readers, rd.Starting

/-- A buffer fed by CSD results, in any state. -/
def Fed (qid wid : Int) (types : List Int) (s : System) : Prop :=
  Untouched qid wid s ∨ Filling qid wid types s ∧ ReadersOk qid wid s

/-- Nothing but a push or a save can begin with an untouched work. -/
theorem Untouched.step {qid wid : Int} {s s' : System} {e : Event}
    (h : Untouched qid wid s) (hpush : ∀ r, e ≠ .push r)
    (hsave : ∀ snippet t offset length, e ≠ .save snippet t offset length)
    (hstep : Merging.step qid wid s e = some s') : Untouched qid wid s' := by
  obtain ⟨hw, hthreads⟩ := idle_step h.fresh.threads hpush hsave hstep
  refine ⟨⟨hw.trans h.fresh.work, hthreads⟩, ?_⟩
  cases e with
  | push r => exact absurd rfl (hpush r)
  | pop k r =>
    obtain ⟨-, -, -, -, -, hreaders, -⟩ := step_pop hstep
    exact hreaders ▸ h.starting
  | merge k r =>
    obtain ⟨-, -, -, -, hreaders, -⟩ := step_merge hstep
    exact hreaders ▸ h.starting
  | enter asked name =>
    obtain ⟨-, -, hreaders, -⟩ := step_enter hstep
    exact hreaders ▸ h.starting
  | save snippet t offset length => exact absurd rfl (hsave snippet t offset length)
  | read k =>
    -- a reader that has not begun waits while there are no rows
    obtain ⟨rd, t, hrd, -, hread, -⟩ := step_read hstep
    have hindex := (h.starting rd (List.mem_of_getElem? hrd)).1
    rw [h.fresh.work, hindex] at hread
    simp [WorkBuffer.read] at hread

/-- Everything extends the table of a new buffer. -/
theorem WorkBuffer.new_extends {t : TableData} (ht : 0 ≤ t.rowCount) :
    ({} : WorkBuffer).table.Extends t :=
  ⟨fun _ hn => by simp [WorkBuffer.table] at hn, fun _ hn => by simp [WorkBuffer.table] at hn, ht⟩

/-- Another result comes to a work that has begun: the table stays. -/
theorem Filling.push {qid wid : Int} {types : List Int} {s s' : System} {r : BlockResult}
    (hwid : wid ≠ -1) (h : Filling qid wid types s) (hr : Fits types r)
    (hstep : Merging.step qid wid s (.push r) = some s') :
    Filling qid wid types s' ∧ (s'.work qid wid).table = (s.work qid wid).table ∧
      s'.readers = s.readers := by
  obtain ⟨started, hp, hthreads, hrd, -⟩ := step_push hwid hstep
  have hstatus : (s.work qid wid).status ≠ .initialized := by
    rcases h.thread with ⟨-, hst⟩ | ⟨-, -, -, hst⟩ | ⟨-, hst⟩ <;> simp [hst]
  obtain ⟨rfl, hw'⟩ := WorkBuffer.push_started hstatus hp
  have htable : (s'.work qid wid).table = (s.work qid wid).table := by rw [hw']; rfl
  have hqueued : ∀ r' ∈ (s'.work qid wid).workBufferQueue, Fits types r' := by
    intro r' hr'
    rw [hw'] at hr'
    rcases List.mem_append.mp hr' with hr' | hr'
    · exact h.queued r' hr'
    · rw [List.mem_singleton.mp hr']
      exact hr
  exact ⟨h.keep (by rw [hw']) htable hqueued (by rw [hthreads]; exact h.thread), htable, hrd⟩

/-- The merge thread takes a result: the table stays. -/
theorem Filling.pop {qid wid : Int} {types : List Int} {s s' : System} {k : Nat}
    {r : BlockResult} (h : Filling qid wid types s)
    (hstep : Merging.step qid wid s (.pop k r) = some s') :
    Filling qid wid types s' ∧ (s'.work qid wid).table = (s.work qid wid).table ∧
      s'.readers = s.readers := by
  obtain ⟨hthread, rest, hqueue, hw', hthreads, hrd, -⟩ := step_pop hstep
  have htable : (s'.work qid wid).table = (s.work qid wid).table := by rw [hw']; rfl
  have hqueued : ∀ r' ∈ (s'.work qid wid).workBufferQueue, Fits types r' := by
    intro r' hr'
    rw [hw'] at hr'
    exact h.queued r' (by rw [hqueue]; exact List.mem_cons_of_mem r hr')
  have hr : Fits types r := h.queued r (by simp [hqueue])
  refine ⟨h.keep (by rw [hw']) htable hqueued ?_, htable, hrd⟩
  -- there is one merge thread, so it is the one that was waiting
  rcases h.thread with ⟨ht, hst⟩ | ⟨r', hr', ht, hst⟩ | ⟨ht, hst⟩
  all_goals rw [ht] at hthread
  all_goals cases k <;> simp at hthread
  exact .inr (.inl ⟨r, hr, by rw [hthreads, ht]; rfl, hst⟩)

/-- A step that changes neither the work nor the threads. -/
theorem Filling.same {qid wid : Int} {types : List Int} {s s' : System}
    (h : Filling qid wid types s) (hw : s'.work qid wid = s.work qid wid)
    (hthreads : s'.threads = s.threads) : Filling qid wid types s' :=
  h.keep (by rw [hw]) (by rw [hw]) (by rw [hw]; exact h.queued) (by rw [hthreads]; exact h.thread)

/-- **One step of a fed buffer** keeps it as it should be, and its table
only grows. -/
theorem Fed.step {qid wid : Int} {types : List Int} {s s' : System} {e : Event}
    (hwid : wid ≠ -1) (hknown : KnownTypes types) (h : Fed qid wid types s)
    (hpush : ∀ r, e = .push r → Fits types r)
    (hsave : ∀ snippet t offset length, e ≠ .save snippet t offset length)
    (hstep : Merging.step qid wid s e = some s') :
    Fed qid wid types s' ∧ (s.work qid wid).table.Extends (s'.work qid wid).table := by
  rcases h with h | ⟨h, hreaders⟩
  · rw [h.fresh.work]
    by_cases he : ∃ r, e = .push r
    · obtain ⟨r, rfl⟩ := he
      have hfill := Filling.first hwid hknown h.fresh (hpush r rfl) hstep
      obtain ⟨-, -, -, hrd, -⟩ := step_push hwid hstep
      refine ⟨.inr ⟨hfill, fun rd hmem => ?_⟩, WorkBuffer.new_extends hfill.count⟩
      exact .of_starting (h.starting rd (hrd ▸ hmem)) hfill.count
    · have h' := h.step (fun r hr => he ⟨r, hr⟩) hsave hstep
      exact ⟨.inl h', WorkBuffer.new_extends (by rw [h'.fresh.work]; decide)⟩
  · cases e with
    | push r =>
      obtain ⟨hfill, htable, hrd⟩ := h.push hwid (hpush r rfl) hstep
      exact ⟨.inr ⟨hfill, hreaders.same hrd htable⟩, htable ▸ .refl _⟩
    | pop k r =>
      obtain ⟨hfill, htable, hrd⟩ := h.pop hstep
      exact ⟨.inr ⟨hfill, hreaders.same hrd htable⟩, htable ▸ .refl _⟩
    | merge k r =>
      obtain ⟨-, -, -, -, hrd, -⟩ := step_merge hstep
      obtain ⟨hfill, hext, hnames, hstatus⟩ := h.merge hknown hstep
      refine ⟨.inr ⟨hfill, fun rd hmem => ?_⟩, hext⟩
      exact (hreaders rd (hrd ▸ hmem)).grow h.rectangular hext hnames hstatus
    | enter asked name =>
      obtain ⟨hw, hthreads, hrd, -⟩ := step_enter hstep
      refine ⟨.inr ⟨h.same hw hthreads, hreaders.same hrd (by rw [hw])⟩, ?_⟩
      rw [hw]
      exact .refl _
    | save snippet t offset length => exact absurd rfl (hsave snippet t offset length)
    | read k =>
      obtain ⟨-, -, -, -, -, hw, hthreads, -, -⟩ := step_read hstep
      refine ⟨.inr ⟨h.same hw hthreads, hreaders.read hstep⟩, ?_⟩
      rw [hw]
      exact .refl _

/-! ## A buffer filled by a saved table -/

/-- `saveTableData` without a LIMIT, of a table in the snippet's columns. -/
structure SavesWhole (snippet : SavedSnippet) (t : TableData) (offset length : Int) : Prop where
  offset : offset = 0
  length : length = t.rowCount
  wellFormed : ∃ n, t.WellFormed n
  columns : ∀ name, name ∈ t.tableData ↔ name ∈ snippet.columnAlias

/-- A saved table leaves a rectangular buffer that is done. -/
theorem save_spec {w' : WorkBuffer} {snippet : SavedSnippet} {t : TableData}
    {offset length : Int} (h : SavesWhole snippet t offset length)
    (hsave : ({} : WorkBuffer).save snippet t offset length = some w') :
    w'.Rectangular ∧ w'.status = .workDone := by
  obtain ⟨rfl, rfl, ⟨n, hwf⟩, hcolumns⟩ := h
  obtain ⟨w, hrun, hrows, hstatus, hnames, hwindow⟩ :=
    save_within (w := {}) hwf (Nat.zero_le n) (Nat.le_refl n)
  rw [hwf.count] at hsave
  obtain rfl := Option.some.inj (hrun.symm.trans hsave)
  refine ⟨⟨n, by simpa using hrows, fun name hname => ?_⟩, hstatus⟩
  have hin : name ∈ t.tableData := by
    rcases (hnames name).mp hname with h | h | h
    · exact h
    · exact (hcolumns name).mpr h
    · exact absurd h (AList.notMem_empty name)
  exact (hwindow name hin).length

/-- A buffer filled by a saved table, in any state after the call. -/
structure Saved (qid wid : Int) (s : System) : Prop where
  rectangular : (s.work qid wid).Rectangular
  status : (s.work qid wid).status = .workDone
  threads : s.threads = []
  readers : ReadersOk qid wid s

theorem Saved.of_save {qid wid : Int} {s s' : System} {snippet : SavedSnippet}
    {t : TableData} {offset length : Int} (h : Untouched qid wid s)
    (hwhole : SavesWhole snippet t offset length)
    (hstep : step qid wid s (.save snippet t offset length) = some s') : Saved qid wid s' := by
  obtain ⟨hsave, hthreads, hrd⟩ := step_save hstep
  rw [h.fresh.work] at hsave
  obtain ⟨hrect, hstatus⟩ := save_spec hwhole hsave
  refine ⟨hrect, hstatus, hthreads ▸ h.fresh.threads, fun rd hmem => ?_⟩
  obtain ⟨n, hn, -⟩ := hrect
  exact .of_starting (h.starting rd (hrd ▸ hmem)) (by omega)

theorem Saved.step {qid wid : Int} {s s' : System} {e : Event} (h : Saved qid wid s)
    (hpush : ∀ r, e ≠ .push r)
    (hsave : ∀ snippet t offset length, e ≠ .save snippet t offset length)
    (hstep : Merging.step qid wid s e = some s') : Saved qid wid s' := by
  cases e with
  | push r => exact absurd rfl (hpush r)
  | pop k r =>
    obtain ⟨hthread, -⟩ := step_pop hstep
    simp [h.threads] at hthread
  | merge k r =>
    obtain ⟨hthread, -⟩ := step_merge hstep
    simp [h.threads] at hthread
  | enter asked name =>
    obtain ⟨hw, hthreads, hrd, -⟩ := step_enter hstep
    exact ⟨hw ▸ h.rectangular, hw ▸ h.status, hthreads ▸ h.threads,
      h.readers.same hrd (by rw [hw])⟩
  | save snippet t offset length => exact absurd rfl (hsave snippet t offset length)
  | read k =>
    obtain ⟨-, -, -, -, -, hw, hthreads, -, -⟩ := step_read hstep
    exact ⟨hw ▸ h.rectangular, hw ▸ h.status, hthreads ▸ h.threads, h.readers.read hstep⟩

/-! ## What readers get -/

/-- How a buffer is filled: by CSD results that fit together, or by one
saved table. -/
inductive Filled : List Event → Prop
  | fed {types : List Int} {es : List Event} (hknown : KnownTypes types)
      (hfits : ∀ r ∈ pushes es, Fits types r) (hsave : NoSave es) : Filled es
  | saved {es es' : List Event} {snippet : SavedSnippet} {t : TableData}
      {offset length : Int} (hwhole : SavesWhole snippet t offset length)
      (hpush : pushes (es ++ es') = []) (hsave : NoSave (es ++ es')) :
      Filled (es ++ .save snippet t offset length :: es')

/-- Without a save a filled buffer is fed. -/
theorem Filled.fed_of_noSave {es : List Event} (h : Filled es) (hsave : NoSave es) :
    ∃ types, KnownTypes types ∧ ∀ r ∈ pushes es, Fits types r := by
  cases h with
  | fed hknown hfits => exact ⟨_, hknown, hfits⟩
  | @saved es₁ es₂ snippet t offset length =>
    exact absurd rfl (hsave (.save snippet t offset length) (by simp) snippet t offset length)

/-- What readers rely on in a state. -/
structure Readable (qid wid : Int) (s : System) : Prop where
  rectangular : (s.work qid wid).Rectangular
  readers : ReadersOk qid wid s

theorem Fed.readable {qid wid : Int} {types : List Int} {s : System}
    (h : Fed qid wid types s) : Readable qid wid s := by
  rcases h with h | ⟨h, hreaders⟩
  · have hw := h.fresh.work
    refine ⟨⟨0, by simp [hw], fun name hname => by simp [hw] at hname⟩, fun rd hmem => ?_⟩
    exact .of_starting (h.starting rd hmem) (by simp [hw])
  · exact ⟨h.rectangular, hreaders⟩

theorem fed_of_run {qid wid : Int} {types : List Int} {s s' : System} {es : List Event}
    (hwid : wid ≠ -1) (hknown : KnownTypes types) (h : Fed qid wid types s)
    (hfits : ∀ r ∈ pushes es, Fits types r) (hsave : NoSave es)
    (hrun : run (step qid wid) s es = some s') :
    Fed qid wid types s' ∧ (s.work qid wid).table.Extends (s'.work qid wid).table := by
  have hok : ∀ e ∈ es, (∀ r, e = .push r → Fits types r) ∧
      ∀ snippet t offset length, e ≠ .save snippet t offset length := by
    refine fun e he => ⟨?_, hsave e he⟩
    rintro r rfl
    exact hfits r (List.mem_filterMap.mpr ⟨_, he, rfl⟩)
  refine run_invariant (I := fun t : System => Fed qid wid types t ∧
    (s.work qid wid).table.Extends (t.work qid wid).table) ?_ hok ⟨h, .refl _⟩ hrun
  rintro t e t' ⟨hpush, hnosave⟩ ⟨ht, hext⟩ hstep
  obtain ⟨ht', hext'⟩ := ht.step hwid hknown hpush hnosave hstep
  exact ⟨ht', hext.trans hext'⟩

/-- Every state of a run that fills the buffer in one of the two ways is
readable. -/
theorem readable_of_run {qid wid : Int} {s₀ s : System} {es : List Event}
    (hwid : wid ≠ -1) (h₀ : Untouched qid wid s₀) (hfilled : Filled es)
    (hrun : run (step qid wid) s₀ es = some s) : Readable qid wid s := by
  cases hfilled with
  | fed hknown hfits hsave => exact (fed_of_run hwid hknown (.inl h₀) hfits hsave hrun).1.readable
  | @saved es₁ es₂ snippet t offset length hwhole hpush hsave =>
    rw [run_append] at hrun
    obtain ⟨s₁, hrun₁, hrun⟩ := Option.bind_eq_some_iff.mp hrun
    obtain ⟨s₂, hstep, hrun₂⟩ := run_cons_some hrun
    have hne := ne_push hpush
    have h₁ : Untouched qid wid s₁ :=
      run_invariant (fun t e t' (he : e ∈ es₁) ht hs =>
        ht.step (hne e (by simp [he])) (hsave e (by simp [he])) hs) (fun _ he => he) h₀ hrun₁
    have h₂ : Saved qid wid s :=
      run_invariant (fun t e t' (he : e ∈ es₂) ht hs =>
        ht.step (hne e (by simp [he])) (hsave e (by simp [he])) hs) (fun _ he => he)
        (Saved.of_save h₁ hwhole hstep) hrun₂
    exact ⟨h₂.rectangular, h₂.readers⟩

/-- A call of `getTableData` that returns: the table is that of the buffer, at
the end of the work or a million rows ahead. -/
theorem getTableData_returns {qid wid asked i : Int} {s : System} {name : String}
    {t : TableData} (hasked : workIdOf s.dataBuffer qid asked name = some wid)
    (hget : getTableData s.dataBuffer qid asked name i = some t) :
    t = (s.work qid wid).table ∧ (t.status = .workDone ∨ 1000000 ≤ t.rowCount - i) := by
  obtain ⟨w, hw, hread⟩ := getTableData_spec hasked hget
  have hsw : s.work qid wid = w := by simp [System.work, hw]
  rw [hsw]
  unfold WorkBuffer.read at hread
  split at hread
  · cases hread
  · rename_i hwait
    cases hread
    refine ⟨rfl, ?_⟩
    simp only [WorkBuffer.table]
    by_cases hdone : w.status = .workDone
    · exact .inl hdone
    · exact .inr (by by_contra hlt; exact hwait ⟨by omega, hdone⟩)

/-- **Readers see an append-only table.** In every state reached between
critical sections: the buffer is rectangular; in a buffer fed by CSD results
whatever was read before is the first part of what is read now; a call of
`getTableData` returns only at the end of the work or with a million rows
ahead; and a reader that has stopped has gone through every row of the
finished table once, in order, with every cell there. -/
theorem readers_see_append_only {qid wid : Int} {s₀ s : System} {es : List Event}
    (hwid : wid ≠ -1) (h₀ : Untouched qid wid s₀) (hfilled : Filled es)
    (hrun : run (step qid wid) s₀ es = some s) :
    (s.work qid wid).Rectangular ∧
    (∀ (es₁ es₂ : List Event) (s₁ : System) (asked asked' : Int) (name name' : String)
      (i i' : Int) (t₁ t : TableData), es = es₁ ++ es₂ → NoSave es →
      run (step qid wid) s₀ es₁ = some s₁ →
      workIdOf s₁.dataBuffer qid asked name = some wid →
      getTableData s₁.dataBuffer qid asked name i = some t₁ →
      workIdOf s.dataBuffer qid asked' name' = some wid →
      getTableData s.dataBuffer qid asked' name' i' = some t → t₁.Extends t) ∧
    (∀ (asked : Int) (name : String) (i : Int) (t : TableData),
      workIdOf s.dataBuffer qid asked name = some wid →
      getTableData s.dataBuffer qid asked name i = some t →
      t.status = .workDone ∨ 1000000 ≤ t.rowCount - i) ∧
    ∀ rd ∈ s.readers, rd.stopped = true → (s.work qid wid).status = .workDone ∧
      rd.processed =
        (List.range (s.work qid wid).rowCount.toNat).map (s.work qid wid).table.record ∧
      ∀ row ∈ rd.processed, ∀ name ∈ (s.work qid wid).tableData, (row name).isSome := by
  have h := readable_of_run hwid h₀ hfilled hrun
  refine ⟨h.rectangular, ?_, fun asked name i t hasked hget =>
    (getTableData_returns hasked hget).2, ?_⟩
  · intro es₁ es₂ s₁ asked asked' name name' i i' t₁ t hes hsave hrun₁ hasked hget hasked' hget'
    rw [(getTableData_returns hasked hget).1, (getTableData_returns hasked' hget').1]
    obtain ⟨types, hknown, hfits⟩ := hfilled.fed_of_noSave hsave
    subst hes
    have hsplit : pushes (es₁ ++ es₂) = pushes es₁ ++ pushes es₂ := List.filterMap_append
    have h₁ := (fed_of_run hwid hknown (.inl h₀)
      (fun r hr => hfits r (by rw [hsplit]; exact List.mem_append_left _ hr))
      (fun e he => hsave e (List.mem_append_left _ he)) hrun₁).1
    rw [run_append, hrun₁] at hrun
    exact (fed_of_run hwid hknown h₁
      (fun r hr => hfits r (by rw [hsplit]; exact List.mem_append_right _ hr))
      (fun e he => hsave e (List.mem_append_right _ he)) hrun).2
  · intro rd hmem hstopped
    have hok := h.readers rd hmem
    obtain ⟨hdone, hindex⟩ := hok.stopped hstopped
    refine ⟨hdone, by rw [hok.processed, hindex], ?_⟩
    intro row hrow name hname
    rw [hok.processed, hindex] at hrow
    obtain ⟨i, hi, rfl⟩ := List.mem_map.mp hrow
    obtain ⟨n, hn, hcol⟩ := h.rectangular
    have hi : i < n := by
      have := List.mem_range.mp hi
      omega
    obtain ⟨x, hx⟩ := ColData.cell?_isSome (hcol name hname) hi
    simp [TableData.record, WorkBuffer.table, hx]

/-- A reader waits for the two results, then reads the finished table. -/
def readerRun : List Event :=
  .enter 0 "t" :: (twoResultRun ++ [.read 0])

/-- No buffer yet, and one reader. -/
def oneReader : System where
  dataBuffer := ∅
  readers := [{ workId := 0, tableName := "t" }]

theorem readers_see_two_results :
    ∃ s, run (step 1 0) oneReader readerRun = some s ∧
      s.readers.map (·.stopped) = [true] ∧ (s.work 1 0).Rectangular ∧
      ∀ rd ∈ s.readers, rd.stopped = true →
        rd.processed =
          (List.range (s.work 1 0).rowCount.toNat).map (s.work 1 0).table.record := by
  have hrun : ((run (step 1 0) oneReader readerRun).map
      fun s => s.readers.map (·.stopped)) = some [true] := by decide
  obtain ⟨s, hs, hstopped⟩ := Option.map_eq_some_iff.mp hrun
  have h₀ : Untouched 1 0 oneReader := ⟨⟨rfl, rfl⟩, by simp [oneReader, Reader.Starting]⟩
  have hfilled : Filled readerRun := by
    refine @Filled.fed [1] _ ?_ ?_ ?_
    · simp only [KnownTypes, List.mem_singleton, forall_eq]
      rfl
    · intro r hr
      have hr : r = oneRowResult ∨ r = twoRowResult := by
        simpa [pushes, readerRun, twoResultRun] using hr
      rcases hr with rfl | rfl <;>
        exact ⟨by simp [oneRowResult, twoRowResult], rfl, by
          simp [oneRowResult, twoRowResult]⟩
    · intro e he
      simp only [readerRun, twoResultRun, List.cons_append, List.nil_append, List.mem_cons,
        List.not_mem_nil, or_false] at he
      rcases he with rfl | rfl | rfl | rfl | rfl | rfl | rfl | rfl <;> simp
  have h := readers_see_append_only (by decide) h₀ hfilled hs
  exact ⟨s, hs, hstopped, h.1, fun rd hrd hstop => (h.2.2.2 rd hrd hstop).2.1⟩

end Merging

end KetiEngine
