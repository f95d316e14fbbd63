import KetiEngine.Merging.Ingest
import KetiEngine.Lib.Monitor

/-!
# Finished — waiting for the end of a work

`getFinishedTableData` tests the status of its work once, waits on the
condition of the end of the work where it is not done, and after the wait
copies the table without a second test. Its calls and the threads around the
work are those of a monitor that waits once.
-/

namespace KetiEngine.Merging

open KetiEngine Runs Monitor

/-- What a call of `getFinishedTableData` asks for. -/
structure FinishedCall where
  workId : Int
  tableName : String

/-- The part of `getFinishedTableData` that follows the wait. -/
def copyFinished (qid wid : Int) (s : System) : TableData :=
  { (s.work qid wid).table with
    scannedRowCount := (s.counters qid).1
    filteredRowCount := (s.counters qid).2 }

/-- `work_done_condition.notify_all()`, in the last round of `mergeResult` and
in `saveTableData`. -/
def notifiesDone (qid wid : Int) (s : System) : Merging.Event → Bool
  | .merge _ r => ((s.work qid wid).merge r).any (·.2)
  | .save .. => true
  | .push _ | .pop _ _ | .enter _ _ | .read _ => false

/-- Calls of `getFinishedTableData` that come to work `wid` of query `qid`. The
buffer a call has found is there as long as the work is. -/
def finishedProtocol (qid wid : Int) :
    Protocol System Merging.Event FinishedCall TableData where
  act := step qid wid
  notifies s w _ := notifiesDone qid wid s w
  enter s a := { s with dataBuffer := initializeBuffer s.dataBuffer qid a.workId a.tableName }
  reaches s a :=
    workIdOf s.dataBuffer qid a.workId a.tableName = some wid ∧
      (DataBuffer.work? s.dataBuffer qid wid).isSome
  ready s _ :=
    ¬ ((s.work qid wid).status = .notFinished ∨ (s.work qid wid).status = .initialized)
  body s _ := some (copyFinished qid wid s, s)

variable {qid wid : Int}

/-- A call that need not wait is `getFinishedTableData` on the buffers. -/
theorem getFinishedTableData_eq {s : System} {a : FinishedCall}
    (hreaches : (finishedProtocol qid wid).reaches s a) :
    getFinishedTableData s.dataBuffer qid a.workId a.tableName =
      if (finishedProtocol qid wid).ready s a then some (copyFinished qid wid s) else none := by
  simp only [finishedProtocol, decide_eq_true_eq] at hreaches
  obtain ⟨hasked, hsome⟩ := hreaches
  obtain ⟨w, hw⟩ := Option.isSome_iff_exists.mp hsome
  have hwork : s.work qid wid = w := by simp [System.work, hw]
  unfold getFinishedTableData
  simp only [hasked, hw, hwork, finishedProtocol, copyFinished, System.counters,
    DataBuffer.counters, Option.bind_eq_bind, Option.bind_some]
  by_cases hstatus : w.status = .notFinished ∨ w.status = .initialized <;> simp [hstatus]

theorem ready_iff {s : System} {a : FinishedCall} :
    (finishedProtocol qid wid).ready s a = decide ((s.work qid wid).status = .workDone) := by
  simp only [finishedProtocol]
  cases (s.work qid wid).status <;> rfl

/-! ## When the work gets done -/

theorem WorkBuffer.push_workDone {w w' : WorkBuffer} {r : BlockResult} {started : Bool}
    (h : w.push r = some (w', started)) : w'.status = .workDone ↔ w.status = .workDone := by
  unfold WorkBuffer.push at h
  split at h
  · rename_i hinit
    obtain ⟨w₁, hstart, h⟩ := Option.bind_eq_some_iff.mp h
    obtain ⟨w₂, -, hw₂⟩ := Option.bind_eq_some_iff.mp hstart
    cases hw₂
    cases h
    simp [WorkBuffer.enqueue, hinit]
  · cases h
    rfl

theorem WorkBuffer.merge_workDone {w w' : WorkBuffer} {r : BlockResult} {done : Bool}
    (h : w.merge r = some (w', done)) :
    w'.status = .workDone ↔ w.status = .workDone ∨ done = true := by
  unfold WorkBuffer.merge at h
  obtain ⟨td, -, h⟩ := Option.bind_eq_some_iff.mp h
  simp only at h
  split at h <;> cases h <;> simp

theorem WorkBuffer.merge_queue {w w' : WorkBuffer} {r : BlockResult} {done : Bool}
    (h : w.merge r = some (w', done)) : w'.workBufferQueue = w.workBufferQueue := by
  unfold WorkBuffer.merge at h
  obtain ⟨td, -, h⟩ := Option.bind_eq_some_iff.mp h
  simp only at h
  split at h <;> cases h <;> rfl

theorem WorkBuffer.save_workDone {w w' : WorkBuffer} {snippet : SavedSnippet} {t : TableData}
    {offset length : Int} (h : w.save snippet t offset length = some w') :
    w'.status = .workDone := by
  unfold WorkBuffer.save at h
  simp only at h
  split at h
  · obtain ⟨td, -, h⟩ := Option.bind_eq_some_iff.mp h
    cases h
    rfl
  · cases h
    rfl

/-- The work is done from the step on that notifies its end. -/
theorem step_workDone {s s' : System} {e : Merging.Event} (hwid : wid ≠ -1)
    (hstep : step qid wid s e = some s') :
    (s'.work qid wid).status = .workDone ↔
      (s.work qid wid).status = .workDone ∨ notifiesDone qid wid s e = true := by
  cases e with
  | push r =>
    obtain ⟨started, hpush, -⟩ := step_push hwid hstep
    simp [WorkBuffer.push_workDone hpush, notifiesDone]
  | pop k r =>
    obtain ⟨-, rest, -, hw, -⟩ := step_pop hstep
    simp [hw, notifiesDone]
  | merge k r =>
    obtain ⟨-, done, hmerge, -⟩ := step_merge hstep
    simp [WorkBuffer.merge_workDone hmerge, notifiesDone, hmerge]
  | enter asked name =>
    obtain ⟨hw, -⟩ := step_enter hstep
    simp [hw, notifiesDone]
  | save snippet t offset length =>
    obtain ⟨hsave, -⟩ := step_save hstep
    simp [WorkBuffer.save_workDone hsave, notifiesDone]
  | read k =>
    obtain ⟨-, -, -, -, -, hw, -⟩ := step_read hstep
    simp [hw, notifiesDone]

theorem finished_signals (hwid : wid ≠ -1) : Protocol.Signals (finishedProtocol qid wid) where
  act s w s' a hact := by
    rw [ready_iff, ready_iff, Bool.eq_iff_iff]
    simpa [finishedProtocol] using step_workDone hwid hact
  enter s a b := by
    rw [ready_iff, ready_iff]
    have hw := (@step_enter qid wid s _ a.workId a.tableName rfl).1
    simp [finishedProtocol, hw]
  body s a r s' b hbody := by
    cases hbody
    rfl

/-! ## The whole table -/

/-- The calls of `saveTableData`, in order. -/
def saves (es : List Merging.Event) : List (SavedSnippet × TableData × Int × Int) :=
  es.filterMap fun
    | .save snippet t offset length => some (snippet, t, offset, length)
    | _ => none

/-- How work is produced, by CSD results or by one saved table, and what its
whole table is: the rows of all results in the order in which they were
merged, or what was saved. -/
inductive Produced (names : List String) : List Merging.Event → (TableData → Prop) → Prop
  | fed {types : List Int} {total : Int} {results rest : List BlockResult}
      {es : List Merging.Event} (delivery : Delivery names types total results)
      (pushed : (pushes es ++ rest).Perm results) (noSave : NoSave es) :
      Produced names es fun t => ∃ merged : List BlockResult, merged.Perm results ∧
        t.rows names = (rowsOf names.length merged).map (List.map fun v => some ⟨v, false⟩) ∧
        t.rowCount = (merged.map fun r => (r.rowCount : Int)).sum
  | saved {snippet : SavedSnippet} {table : TableData} {offset length : Int}
      {es : List Merging.Event} (noPush : pushes es = [])
      (once : saves es <+: [(snippet, table, offset, length)]) :
      Produced names es fun t => ∃ w,
        ({} : WorkBuffer).save snippet table offset length = some w ∧
          t.tableData = w.tableData ∧ t.rowCount = w.rowCount

/-- The beginning of a production is one. -/
theorem Produced.of_append {names : List String} {es₁ es₂ : List Merging.Event}
    {complete : TableData → Prop} (h : Produced names (es₁ ++ es₂) complete) :
    Produced names es₁ complete := by
  cases h with
  | @fed types total results rest _ hd hpush hsave =>
    rw [pushes, List.filterMap_append, List.append_assoc] at hpush
    exact .fed hd hpush fun e he => hsave e (List.mem_append_left _ he)
  | saved hpush honce =>
    rw [pushes, List.filterMap_append, List.append_eq_nil_iff] at hpush
    rw [saves, List.filterMap_append] at honce
    exact .saved hpush.1 ((List.prefix_append _ _).trans honce)

theorem noSave_of_saves {es : List Merging.Event} (h : saves es = []) : NoSave es := by
  rintro e he snippet t offset length rfl
  simpa using List.filterMap_eq_nil_iff.mp h _ he

/-- A work that is done without a push is what its one save stored. -/
theorem saved_of_run {es : List Merging.Event} {s₀ s : System} {snippet : SavedSnippet}
    {table : TableData} {offset length : Int} (h₀ : Fresh qid wid s₀) (hpush : pushes es = [])
    (honce : saves es <+: [(snippet, table, offset, length)])
    (hrun : run (step qid wid) s₀ es = some s) (hdone : (s.work qid wid).status = .workDone) :
    ({} : WorkBuffer).save snippet table offset length = some (s.work qid wid) := by
  cases hsaves : saves es with
  | nil =>
    -- nothing was saved, so the work is as new
    rw [(idle_of_run h₀.threads hpush (noSave_of_saves hsaves) hrun).1, h₀.work] at hdone
    cases hdone
  | cons call calls =>
    rw [hsaves] at honce
    obtain ⟨rfl, hcalls⟩ := List.cons_prefix_cons.mp honce
    obtain rfl := List.prefix_nil.mp hcalls
    obtain ⟨es₁, e, es₂, rfl, hbefore, he, hafter⟩ := List.filterMap_eq_cons_iff.mp hsaves
    cases e with
    | save snippet' table' offset' length' =>
      obtain ⟨rfl, rfl, rfl, rfl⟩ := by simpa using he
      rw [pushes, List.filterMap_append, List.append_eq_nil_iff] at hpush
      obtain ⟨s₁, s₂, hrun₁, hstep, hrun₂⟩ := run_through hrun
      have hnosave₁ : NoSave es₁ := noSave_of_saves (List.filterMap_eq_nil_iff.mpr hbefore)
      have hnosave₂ : NoSave es₂ := noSave_of_saves hafter
      -- the work is new until the save and stays as it is after it
      obtain ⟨hw₁, hthreads₁⟩ := idle_of_run h₀.threads hpush.1 hnosave₁ hrun₁
      obtain ⟨hsave, hthreads₂, -⟩ := step_save hstep
      have hpush₂ : pushes es₂ = [] := by simpa [pushes] using hpush.2
      obtain ⟨hw₂, -⟩ := idle_of_run (hthreads₂.trans hthreads₁) hpush₂ hnosave₂ hrun₂
      rw [hw₁, h₀.work] at hsave
      rw [hw₂]
      exact hsave
    | _ => simp at he

/-- A work that is done has the whole table. -/
theorem Produced.complete {names : List String} {es : List Merging.Event}
    {complete : TableData → Prop} {s₀ s : System} (h : Produced names es complete)
    (hwid : wid ≠ -1) (h₀ : Fresh qid wid s₀) (hrun : run (step qid wid) s₀ es = some s)
    (hdone : (s.work qid wid).status = .workDone) : complete (copyFinished qid wid s) := by
  cases h with
  | fed hd hpush hsave =>
    have hmain := ingested_of_run hd hwid h₀ hpush hsave hrun
    exact ⟨merges es, (hmain.done.mp hdone).2, hmain.rows, hmain.rowCount⟩
  | saved hpush honce =>
    exact ⟨_, saved_of_run h₀ hpush honce hrun hdone, rfl, rfl⟩

/-! ## Every run -/

/-- What a run of calls does to the work: the steps of the threads, and
`initializeBuffer` for each call. -/
def workEvents {C : Type} (es : List (Monitor.Event C Merging.Event FinishedCall)) :
    List Merging.Event :=
  es.flatMap (Protocol.sharedActs fun a => .enter a.workId a.tableName)

theorem workEvents_run {C : Type} [DecidableEq C]
    {s t : Monitor.State C System FinishedCall TableData}
    {es : List (Monitor.Event C Merging.Event FinishedCall)}
    (hrun : run (finishedProtocol qid wid).step s es = some t) :
    run (step qid wid) s.shared (workEvents es) = some t.shared := by
  refine Protocol.shared_run (p := finishedProtocol qid wid) (fun _ _ => rfl) ?_ hrun
  intro s a r s' h
  cases h
  rfl

/-- **When only whole tables are handed out.** In every run of the threads
around a work and any number of calls of `getFinishedTableData` for it, the
calls that return do so with a table that is done and whole exactly when no
wait ends without a notification: the wait has no second test. -/
theorem finishedTables_complete_iff {C : Type} [DecidableEq C] {names : List String}
    {complete : TableData → Prop} {shared : System}
    {s : Monitor.State C System FinishedCall TableData}
    {es : List (Monitor.Event C Merging.Event FinishedCall)} (hwid : wid ≠ -1)
    (h₀ : Fresh qid wid shared) (hproduced : Produced names (workEvents es) complete)
    (hrun : run (finishedProtocol qid wid).step { shared := shared } es = some s) :
    (∀ c a t, s.calls c = .returned a t → t.status = .workDone ∧ complete t) ↔
      Along (finishedProtocol qid wid).step
        (fun s e => ∀ c a notified, e = .wake c → s.calls c = .waiting a notified →
          notified = true)
        ({ shared := shared } : Monitor.State C System FinishedCall TableData) es := by
  have hrecorded := Protocol.recorded_of_run hrun
  constructor
  · -- the call that goes on here returns the table as it is now
    rintro hdone es₁ e es₂ s₁ rfl hrun₁ c a notified rfl hcall
    have hresult := Protocol.result_of_wake hrun hrun₁ hcall rfl
    have hstatus := (hdone c a _ ((hrecorded.results c a _).mp hresult)).1
    rw [Protocol.notifiedReady_of_run (finished_signals hwid) hrun₁ c a notified hcall, ready_iff]
    exact decide_eq_true hstatus
  · intro halong c a t hreturned
    obtain ⟨es₁, e, es₂, s₁, s₂, rfl, hrun₁, hfin, hbody⟩ :=
      Protocol.finishes_of_result hrun rfl ((hrecorded.results c a t).mpr hreturned)
    cases hbody
    have hready : (finishedProtocol qid wid).ready s₁.shared a = true := by
      cases hfin with
      | lock _ _ hready => exact hready
      | wake hcall =>
        -- a notified call that waits finds the work done
        have hnotified := halong es₁ _ es₂ s₁ rfl hrun₁ c a _ rfl hcall
        rw [← Protocol.notifiedReady_of_run (finished_signals hwid) hrun₁ c a _ hcall]
        exact hnotified
    rw [ready_iff, decide_eq_true_eq] at hready
    have hprefix : Produced names (workEvents es₁) complete := by
      rw [workEvents, List.flatMap_append] at hproduced
      exact hproduced.of_append
    exact ⟨hready, hprefix.complete hwid h₀ (workEvents_run hrun₁) hready⟩

/-- A call waits for the first of two results and is woken at the end. -/
def patientCall : List (Monitor.Event Unit Merging.Event FinishedCall) :=
  [.act (.push oneRowResult), .call () ⟨0, "t"⟩, .lock (), .act (.pop 0 oneRowResult),
    .act (.merge 0 oneRowResult), .act (.push twoRowResult), .act (.pop 0 twoRowResult),
    .act (.merge 0 twoRowResult), .wake ()]

theorem finishedTables_complete_patientCall :
    ∃ s, run (finishedProtocol 1 0).step { shared := { dataBuffer := ∅ } } patientCall = some s ∧
      ((∀ c a t, s.calls c = .returned a t → t.status = .workDone ∧
          ∃ merged : List BlockResult, merged.Perm [oneRowResult, twoRowResult] ∧
            t.rows ["a"] = (rowsOf 1 merged).map (List.map fun v => some ⟨v, false⟩) ∧
            t.rowCount = (merged.map fun r => (r.rowCount : Int)).sum) ↔
        Along (finishedProtocol 1 0).step
          (fun s e => ∀ c a notified, e = .wake c → s.calls c = .waiting a notified →
            notified = true)
          { shared := { dataBuffer := ∅ } } patientCall) := by
  have hrun : (run (finishedProtocol 1 0).step
      ({ shared := { dataBuffer := ∅ } } : Monitor.State Unit System FinishedCall TableData)
      patientCall).isSome := by decide
  obtain ⟨s, hs⟩ := Option.isSome_iff_exists.mp hrun
  have hsave : NoSave (workEvents patientCall) := noSave_of_saves rfl
  exact ⟨s, hs, finishedTables_complete_iff (by decide) ⟨rfl, rfl⟩
    (@Produced.fed _ _ _ _ [] _ twoResults_delivery (.refl _) hsave) hs⟩

/-- A wait that ends for no reason hands out the table before its first row. -/
theorem finishedTables_spurious_wake :
    ∃ s t, run (finishedProtocol 1 0).step
        ({ shared := { dataBuffer := ∅ } } : Monitor.State Unit System FinishedCall TableData)
        [.act (.push oneRowResult), .call () ⟨0, "t"⟩, .lock (), .wake ()] = some s ∧
      s.calls () = .returned ⟨0, "t"⟩ t ∧ t.status = .notFinished ∧ t.rowCount = 0 := by
  refine ⟨_, _, rfl, rfl, by decide, by decide⟩

end KetiEngine.Merging
