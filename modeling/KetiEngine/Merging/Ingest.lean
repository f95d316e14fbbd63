import KetiEngine.Merging.System
import KetiEngine.Merging.Contents
import KetiEngine.Lib.Feed

/-!
# Ingest — pushing and merging the results of one work

The work buffer, its queue and its merge thread are a feed: `pushResult`
puts a result, the thread takes and absorbs it. So every result is merged
once, in queue order, and the work is done with the last of them, whatever
the interleaving.
-/

namespace KetiEngine.Merging

open KetiEngine Runs DataBuffer

/-- The results `pushResult` was called with, in order. -/
def pushes (es : List Event) : List BlockResult :=
  es.filterMap fun
    | .push r => some r
    | _ => none

/-- The results merged, in order. -/
def merges (es : List Event) : List BlockResult :=
  es.filterMap fun
    | .merge _ r => some r
    | _ => none

/-- A table filled by CSD results only. -/
def NoSave (es : List Event) : Prop :=
  ∀ e ∈ es, ∀ snippet t offset length, e ≠ .save snippet t offset length

theorem ne_push {es : List Event} (h : pushes es = []) :
    ∀ e ∈ es, ∀ r, e ≠ .push r := by
  rintro e he r rfl
  have : r ∈ pushes es := List.mem_filterMap.mpr ⟨_, he, rfl⟩
  simp [h] at this

/-- The results of one work: the same columns, the same known types and the
same number of blocks in all, and the blocks add up to it. -/
structure Delivery (names : List String) (types : List Int) (total : Int)
    (results : List BlockResult) : Prop where
  distinct : names.Nodup
  known : KnownTypes types
  sameColumns : ∀ r ∈ results, r.columnAlias = names
  sameTypes : ∀ r ∈ results, r.returnDatatype = types
  sameTotal : ∀ r ∈ results, r.tableTotalBlockCount = total
  empty : ∀ r ∈ results, r.length = 0 → r.rowCount = 0
  blocks : ∀ r ∈ results, 1 ≤ r.resultBlockCount
  sum : (results.map (·.resultBlockCount)).sum = total

/-! ## The feed behind the buffer -/

/-- What an event is for the feed. -/
def feedActions : Event → List (Feed.Action BlockResult)
  | .push r => [.put r]
  | .pop _ r => [.take r]
  | .merge _ r => [.absorb r]
  | _ => []

theorem puts_feedActions (es : List Event) :
    Feed.puts (es.flatMap feedActions) = pushes es := by
  induction es with
  | nil => rfl
  | cons e es ih =>
    rw [List.flatMap_cons, Feed.puts, List.filterMap_append, ← Feed.puts, ← Feed.puts, ih]
    cases e <;> rfl

theorem absorbs_feedActions (es : List Event) :
    Feed.absorbs (es.flatMap feedActions) = merges es := by
  induction es with
  | nil => rfl
  | cons e es ih =>
    rw [List.flatMap_cons, Feed.absorbs, List.filterMap_append, ← Feed.absorbs,
      ← Feed.absorbs, ih]
    cases e <;> rfl

/-- The merge threads for a worker of the feed. -/
def threadsOf : Feed.Worker BlockResult → List MergeThread
  | .absent => []
  | .waiting => [.waiting]
  | .holding r => [.merging r]
  | .gone => [.finished]

/-- The status of the work for a worker of the feed. -/
def statusOf : Feed.Worker BlockResult → WorkStatus
  | .absent => .initialized
  | .waiting | .holding _ => .notFinished
  | .gone => .workDone

/-- The rows of merged results. -/
def rowsOf (colCount : Nat) (merged : List BlockResult) : List (List Value) :=
  merged.flatMap (·.decoded colCount)

section Simulation

variable {qid wid : Int} {names : List String} {types : List Int} {total : Int}
  {results : List BlockResult}

/-- The work buffer of a started feed; `first` is the result that came first. -/
structure Holds (names : List String) (types : List Int) (total : Int)
    (first : BlockResult) (f : Feed.State BlockResult) (w : WorkBuffer) : Prop where
  queue : w.workBufferQueue = f.queue
  columns : w.tableColumn = names
  total : w.tableTotalBlockCount = total
  merged : w.mergedBlockCount = (f.absorbed.map (·.resultBlockCount)).sum
  rowCount : w.rowCount = (f.absorbed.map fun r => (r.rowCount : Int)).sum
  status : w.status = statusOf f.worker
  member : ∀ name, name ∈ w.tableData ↔ name ∈ names
  column : ∀ (j : Nat) (name : String), names[j]? = some name →
    ∃ code len, types[j]? = some code ∧ first.returnOfflen[j]? = some len ∧
      w.tableData.get name =
        (typedColumn code len {}).appendValues (columnOf (rowsOf names.length f.absorbed) j)
  decodes : ∀ r ∈ f.absorbed, (decodeRows names.length r).isSome

/-- The system is in step with the feed. -/
structure Tracks (qid wid : Int) (names : List String) (types : List Int) (total : Int)
    (results : List BlockResult) (start : Int × Int) (s : System)
    (f : Feed.State BlockResult) : Prop where
  threads : s.threads = threadsOf f.worker
  counters : s.counters qid = f.absorbed.foldl DataBuffer.count start
  items : ∀ r ∈ f.absorbed ++ f.worker.held ++ f.queue, r ∈ results
  work : (f = {} ∧ s.work qid wid = {}) ∨
    (f.worker ≠ .absent ∧ ∃ first,
      (f.absorbed ++ f.worker.held ++ f.queue).head? = some first ∧
      Holds names types total first f (s.work qid wid))

/-- `pushResult` puts its result into the feed. -/
theorem Tracks.push {start : Int × Int} {s s' : System} {f : Feed.State BlockResult}
    {r : BlockResult} (hd : Delivery names types total results) (hwid : wid ≠ -1)
    (h : Tracks qid wid names types total results start s f) (hr : r ∈ results)
    (hstep : step qid wid s (.push r) = some s') :
    ∃ f', Feed.step (·.resultBlockCount) total f (.put r) = some f' ∧
      Tracks qid wid names types total results start s' f' := by
  obtain ⟨started, hpush, hthreads, -, hcounters⟩ := step_push hwid hstep
  refine ⟨_, rfl, ?_⟩
  rcases h.work with ⟨rfl, hwork⟩ | ⟨hworker, first, hfirst, hw⟩
  · have hnodup : r.columnAlias.Nodup := hd.sameColumns r hr ▸ hd.distinct
    rw [hwork] at hpush
    obtain ⟨rfl, td, hw', hmem, hcol⟩ := WorkBuffer.push_initialized rfl hnodup hpush
    refine ⟨by rw [hthreads, h.threads]; rfl, by rw [hcounters, h.counters], ?_, ?_⟩
    · simpa [Feed.Worker.come, Feed.Worker.held] using hr
    · refine .inr ⟨by simp [Feed.Worker.come], r, by simp [Feed.Worker.come, Feed.Worker.held], ?_⟩
      rw [hw']
      refine ⟨rfl, hd.sameColumns r hr, hd.sameTotal r hr, rfl, rfl, rfl, ?_, ?_, by simp⟩
      · intro name
        rw [hmem, hd.sameColumns r hr]
      · intro j name hname
        obtain ⟨code, len, hcode, hlen, hc⟩ := hcol j name ((hd.sameColumns r hr).symm ▸ hname)
        exact ⟨code, len, hd.sameTypes r hr ▸ hcode, hlen, by simp [hc, rowsOf, columnOf]⟩
  · have hstatus : (s.work qid wid).status ≠ .initialized := by
      rw [hw.status]
      cases hf : f.worker <;> simp_all [statusOf]
    obtain ⟨rfl, hw'⟩ := WorkBuffer.push_started hstatus hpush
    rw [Feed.Worker.come_of_ne hworker]
    refine ⟨by rw [hthreads, h.threads]; rfl, by rw [hcounters, h.counters], ?_, ?_⟩
    · intro r' hr'
      rw [← List.append_assoc, List.mem_append, List.mem_singleton] at hr'
      rcases hr' with hr' | rfl
      · exact h.items r' hr'
      · exact hr
    · refine .inr ⟨hworker, first, ?_, ?_⟩
      · rw [← List.append_assoc, List.head?_append, hfirst]
        rfl
      · rw [hw']
        exact ⟨by rw [hw.queue], hw.columns, hw.total, hw.merged, hw.rowCount, hw.status,
          hw.member, hw.column, hw.decodes⟩

/-- A thread that pops the queue takes the oldest item. -/
theorem Tracks.pop {start : Int × Int} {s s' : System} {f : Feed.State BlockResult}
    {k : Nat} {r : BlockResult} (h : Tracks qid wid names types total results start s f)
    (hstep : step qid wid s (.pop k r) = some s') :
    ∃ f', Feed.step (·.resultBlockCount) total f (.take r) = some f' ∧
      Tracks qid wid names types total results start s' f' := by
  obtain ⟨hthread, rest, hqueue, hw', hthreads, -, hcounters⟩ := step_pop hstep
  have hworker : k = 0 ∧ f.worker = .waiting := by
    rw [h.threads] at hthread
    cases hf : f.worker <;> cases k <;> simp_all [threadsOf]
  obtain ⟨rfl, hworker⟩ := hworker
  rcases h.work with ⟨rfl, hwork⟩ | ⟨-, first, hfirst, hw⟩
  · simp at hworker
  have hf : f.queue = r :: rest := by rw [← hw.queue, hqueue]
  refine ⟨{ f with queue := rest, worker := .holding r }, by simp [Feed.step, hworker, hf], ?_⟩
  have hitems : f.absorbed ++ (Feed.Worker.holding r).held ++ rest =
      f.absorbed ++ f.worker.held ++ f.queue := by
    simp [hworker, hf, Feed.Worker.held]
  refine ⟨?_, by rw [hcounters, h.counters], by rw [hitems]; exact h.items, ?_⟩
  · rw [hthreads, h.threads, hworker]
    rfl
  · refine .inr ⟨by simp, first, by rw [hitems]; exact hfirst, ?_⟩
    rw [hw']
    exact ⟨rfl, hw.columns, hw.total, hw.merged, hw.rowCount,
      by rw [hw.status, hworker]; rfl, hw.member, hw.column, hw.decodes⟩

/-- What a merge makes of the buffer of a started feed. -/
theorem Holds.merge {first r : BlockResult} {f : Feed.State BlockResult} {w w' : WorkBuffer}
    {done : Bool} (hd : Delivery names types total results) (hr : r ∈ results)
    (hworker : f.worker = .holding r) (hw : Holds names types total first f w)
    (hmerge : w.merge r = some (w', done)) :
    done = decide (((f.absorbed ++ [r]).map (·.resultBlockCount)).sum = total) ∧
      Holds names types total first { f with
        absorbed := f.absorbed ++ [r]
        worker := if ((f.absorbed ++ [r]).map (·.resultBlockCount)).sum = total
          then .gone else .waiting } w' := by
  have hknown : KnownTypes r.returnDatatype := hd.sameTypes r hr ▸ hd.known
  obtain ⟨hdec, hdone, hw'⟩ := WorkBuffer.merge_spec hknown hmerge
  have hsum : ((f.absorbed ++ [r]).map (·.resultBlockCount)).sum =
      w.mergedBlockCount + r.resultBlockCount := by
    simp [hw.merged]
  rw [← hsum, hw.total] at hdone hw'
  refine ⟨hdone, ?_⟩
  rw [hw']
  obtain ⟨vals, hvals⟩ := Option.isSome_iff_exists.mp hdec
  obtain ⟨-, hrows, -⟩ := decodeRows_known hknown hvals
  constructor
  case queue => exact hw.queue
  case columns => exact hw.columns
  case total => rfl
  case merged => rfl
  case rowCount => simp [hw.rowCount]
  case status =>
    rw [hw.status, hworker]
    split <;> rfl
  case member =>
    intro name
    have hsub : ∀ n ∈ w.tableColumn, n ∈ w.tableData := by
      intro n hn
      exact (hw.member n).mpr (hw.columns ▸ hn)
    exact (mem_foldl_pushRow _ _ _ hsub).trans (hw.member name)
  case column =>
    intro j name hname
    obtain ⟨code, len, hcode, hlen, hc⟩ := hw.column j name hname
    refine ⟨code, len, hcode, hlen, ?_⟩
    rw [hw.columns, get_foldl_pushRow names _ _ hd.distinct
      (fun row hrow => (hrows row (hw.columns.symm ▸ hrow)).length.trans
        (congrArg List.length hw.columns)) hname, hc, ← ColData.appendValues_append]
    simp [rowsOf, columnOf, List.filterMap_append]
  case decodes =>
    intro r' hr'
    rcases List.mem_append.mp hr' with hr' | hr'
    · exact hw.decodes r' hr'
    · rw [List.mem_singleton.mp hr', ← hw.columns]
      exact hdec

/-- A merge absorbs the item its thread holds. -/
theorem Tracks.merge {start : Int × Int} {s s' : System} {f : Feed.State BlockResult}
    {k : Nat} {r : BlockResult} (hd : Delivery names types total results)
    (h : Tracks qid wid names types total results start s f)
    (hstep : step qid wid s (.merge k r) = some s') :
    ∃ f', Feed.step (·.resultBlockCount) total f (.absorb r) = some f' ∧
      Tracks qid wid names types total results start s' f' := by
  obtain ⟨hthread, done, hmerge, hthreads, -, hcounters⟩ := step_merge hstep
  -- the one merge thread is the one that holds the item
  have hworker : k = 0 ∧ f.worker = .holding r := by
    rw [h.threads] at hthread
    cases hf : f.worker <;> cases k <;> simp_all [threadsOf]
  obtain ⟨rfl, hworker⟩ := hworker
  rcases h.work with ⟨rfl, hwork⟩ | ⟨-, first, hfirst, hw⟩
  · simp at hworker
  have hr : r ∈ results := h.items r (by simp [hworker, Feed.Worker.held])
  obtain ⟨hdone, hholds⟩ := hw.merge hd hr hworker hmerge
  refine ⟨{ f with
      absorbed := f.absorbed ++ [r]
      worker := if ((f.absorbed ++ [r]).map (·.resultBlockCount)).sum = total
        then .gone else .waiting }, by simp [Feed.step, hworker], ?_⟩
  have hheld : (if ((f.absorbed ++ [r]).map (·.resultBlockCount)).sum = total
      then Feed.Worker.gone else Feed.Worker.waiting).held = ([] : List BlockResult) := by
    split <;> rfl
  have hitems : (f.absorbed ++ [r]) ++ [] ++ f.queue =
      f.absorbed ++ f.worker.held ++ f.queue := by
    simp [hworker, Feed.Worker.held]
  constructor
  case threads =>
    rw [hthreads, h.threads, hworker, hdone]
    by_cases hgone : ((f.absorbed ++ [r]).map (·.resultBlockCount)).sum = total
    · simp only [hgone, decide_true, if_true]
      rfl
    · simp only [hgone, decide_false, if_false]
      rfl
  case counters =>
    rw [hcounters, h.counters, List.foldl_append]
    rfl
  case items =>
    rw [hheld, hitems]
    exact h.items
  case work =>
    refine .inr ⟨by split <;> simp, first, ?_, hholds⟩
    rw [hheld, hitems]
    exact hfirst

/-- Every event of a delivery is matched by the feed. -/
theorem Tracks.step {start : Int × Int} {s s' : System} {f : Feed.State BlockResult}
    {e : Event} (hd : Delivery names types total results) (hwid : wid ≠ -1)
    (he : (∀ r, e = .push r → r ∈ results) ∧
      ∀ snippet t offset length, e ≠ .save snippet t offset length)
    (h : Tracks qid wid names types total results start s f)
    (hstep : Merging.step qid wid s e = some s') :
    ∃ f', run (Feed.step (·.resultBlockCount) total) f (feedActions e) = some f' ∧
      Tracks qid wid names types total results start s' f' := by
  cases e with
  | push r =>
    obtain ⟨f', hf', h'⟩ := h.push hd hwid (he.1 r rfl) hstep
    exact ⟨f', by simp [feedActions, run_cons, hf'], h'⟩
  | pop k r =>
    obtain ⟨f', hf', h'⟩ := h.pop hstep
    exact ⟨f', by simp [feedActions, run_cons, hf'], h'⟩
  | merge k r =>
    obtain ⟨f', hf', h'⟩ := h.merge hd hstep
    exact ⟨f', by simp [feedActions, run_cons, hf'], h'⟩
  | enter asked name =>
    obtain ⟨hw, hthreads, -, hcounters⟩ := step_enter hstep
    exact ⟨f, rfl, by rw [hthreads, h.threads], by rw [hcounters, h.counters], h.items,
      by rw [hw]; exact h.work⟩
  | save snippet t offset length => exact absurd rfl (he.2 snippet t offset length)
  | read k =>
    obtain ⟨-, -, -, -, -, hw, hthreads, -, hcounters⟩ := step_read hstep
    exact ⟨f, rfl, by rw [hthreads, h.threads], by rw [hcounters, h.counters], h.items,
      by rw [hw]; exact h.work⟩

/-- Nothing has been done to the work yet. -/
structure Fresh (qid wid : Int) (s : System) : Prop where
  work : s.work qid wid = {}
  threads : s.threads = []

/-- Without merge threads nothing but a push or a save changes the work. -/
theorem idle_step {s s' : System} {e : Event} (h : s.threads = [])
    (hpush : ∀ r, e ≠ .push r)
    (hsave : ∀ snippet t offset length, e ≠ .save snippet t offset length)
    (hstep : Merging.step qid wid s e = some s') :
    s'.work qid wid = s.work qid wid ∧ s'.threads = [] := by
  cases e with
  | push r => exact absurd rfl (hpush r)
  | pop k r =>
    obtain ⟨hthread, -⟩ := step_pop hstep
    simp [h] at hthread
  | merge k r =>
    obtain ⟨hthread, -⟩ := step_merge hstep
    simp [h] at hthread
  | enter asked name =>
    obtain ⟨hw, hthreads, -⟩ := step_enter hstep
    exact ⟨hw, hthreads.trans h⟩
  | save snippet t offset length => exact absurd rfl (hsave snippet t offset length)
  | read k =>
    obtain ⟨-, -, -, -, -, hw, hthreads, -⟩ := step_read hstep
    exact ⟨hw, hthreads.trans h⟩

theorem idle_of_run {s s' : System} {es : List Event} (h : s.threads = [])
    (hpush : pushes es = []) (hsave : NoSave es)
    (hrun : run (Merging.step qid wid) s es = some s') :
    s'.work qid wid = s.work qid wid ∧ s'.threads = [] := by
  have hok : ∀ e ∈ es, (∀ r, e ≠ .push r) ∧
      ∀ snippet t offset length, e ≠ .save snippet t offset length :=
    fun e he => ⟨ne_push hpush e he, hsave e he⟩
  refine run_invariant (I := fun t : System => t.work qid wid = s.work qid wid ∧ t.threads = [])
    ?_ hok ⟨rfl, h⟩ hrun
  rintro t e t' ⟨hp, hs⟩ ⟨hw, hthreads⟩ hstep
  obtain ⟨hw', hthreads'⟩ := idle_step hthreads hp hs hstep
  exact ⟨hw'.trans hw, hthreads'⟩

/-- **Simulation**: every run that delivers some of the results is a run of
the feed. -/
theorem tracks_of_run {s₀ s : System} {es : List Event}
    (hd : Delivery names types total results) (hwid : wid ≠ -1) (h₀ : Fresh qid wid s₀)
    (hpush : ∀ r ∈ pushes es, r ∈ results) (hsave : NoSave es)
    (hrun : run (Merging.step qid wid) s₀ es = some s) :
    ∃ f, run (Feed.step (·.resultBlockCount) total) {} (es.flatMap feedActions) = some f ∧
      Tracks qid wid names types total results (s₀.counters qid) s f := by
  have hok : ∀ e ∈ es, (∀ r, e = .push r → r ∈ results) ∧
      ∀ snippet t offset length, e ≠ .save snippet t offset length := by
    intro e he
    refine ⟨?_, hsave e he⟩
    rintro r rfl
    exact hpush r (List.mem_filterMap.mpr ⟨_, he, rfl⟩)
  have hstart : Tracks qid wid names types total results (s₀.counters qid) s₀ {} :=
    ⟨h₀.threads, by simp, by simp [Feed.Worker.held], .inl ⟨rfl, h₀.work⟩⟩
  exact run_simulation feedActions (fun s f e s' he hR hs => hR.step hd hwid he hs) hok hstart
    hrun

end Simulation

/-! ## The outcome -/

/-- The state of the work after the events `es`, which delivered some of
`results`. -/
structure Ingested (qid wid : Int) (names : List String) (results : List BlockResult)
    (start : Int × Int) (es : List Event) (s : System) : Prop where
  oneThread : s.threads.length = if pushes es = [] then 0 else 1
  inOrder : merges es <+: pushes es
  done : (s.work qid wid).status = .workDone ↔ results ≠ [] ∧ (merges es).Perm results
  decodes : ∀ r ∈ merges es, (decodeRows names.length r).isSome
  rows : (s.work qid wid).table.rows names =
    (rowsOf names.length (merges es)).map (List.map fun v => some ⟨v, false⟩)
  rowCount : (s.work qid wid).rowCount = ((merges es).map fun r => (r.rowCount : Int)).sum
  counters : FitsInt32 (start.1 + (totals (merges es)).1) →
    FitsInt32 (start.2 + (totals (merges es)).2) →
    s.counters qid = (start.1 + (totals (merges es)).1, start.2 + (totals (merges es)).2)

section Outcome

variable {qid wid : Int} {names : List String} {types : List Int} {total : Int}
  {results : List BlockResult}

/-- The decoded rows of merged results are full rows, as many as announced. -/
theorem rowsOf_spec (hd : Delivery names types total results) {merged : List BlockResult}
    (hmem : ∀ r ∈ merged, r ∈ results)
    (hdec : ∀ r ∈ merged, (decodeRows names.length r).isSome) :
    (∀ row ∈ rowsOf names.length merged, RowOf types names.length row) ∧
      ((rowsOf names.length merged).length : Int) =
        (merged.map fun r => (r.rowCount : Int)).sum := by
  induction merged with
  | nil => exact ⟨by simp [rowsOf], rfl⟩
  | cons r merged ih =>
    obtain ⟨hrows, hcount⟩ := ih (fun r' hr' => hmem r' (by simp [hr']))
      (fun r' hr' => hdec r' (by simp [hr']))
    have hr := hmem r (by simp)
    obtain ⟨vals, hvals⟩ := Option.isSome_iff_exists.mp (hdec r (by simp))
    obtain ⟨-, hrow, hlen⟩ := decodeRows_known (hd.sameTypes r hr ▸ hd.known) hvals
    have hcount' : (r.decoded names.length).length = r.rowCount := by
      rw [hlen]
      split
      · rfl
      · rename_i hzero
        exact (hd.empty r hr (by simpa using hzero)).symm
    constructor
    · intro row hmem'
      rcases List.mem_append.mp hmem' with h | h
      · exact hd.sameTypes r hr ▸ hrow row h
      · exact hrows row h
    · simp only [rowsOf, List.flatMap_cons, List.length_append, List.map_cons, List.sum_cons]
      rw [← hcount, hcount']
      push_cast
      rfl

/-- A column of a started feed had the type of its values before any of them
came. -/
theorem Holds.column_typed {first : BlockResult} {f : Feed.State BlockResult} {w : WorkBuffer}
    (hd : Delivery names types total results) (h : Holds names types total first f w)
    (hmem : ∀ r ∈ f.absorbed, r ∈ results) {j : Nat} {name : String}
    (hname : names[j]? = some name) :
    ∃ type realSize, w.tableData.get name =
        ColData.appendValues { type, realSize } (columnOf (rowsOf names.length f.absorbed) j) ∧
      ∀ v ∈ columnOf (rowsOf names.length f.absorbed) j, type.Accepts v := by
  obtain ⟨hrows, -⟩ := rowsOf_spec hd hmem h.decodes
  obtain ⟨code, len, hcode, -, hcol⟩ := h.column j name hname
  obtain ⟨t, ht⟩ := Option.isSome_iff_exists.mp (hd.known code (List.mem_of_getElem? hcode))
  obtain ⟨type, realSize, hnew⟩ := @typedColumn_default code len
  have htype : type = vectorType t := by
    rw [← typedColumn_type len {} ht, hnew]
  refine ⟨type, realSize, by rw [hcol, hnew], fun v hv => ?_⟩
  obtain ⟨row, hr, hv⟩ := List.mem_filterMap.mp hv
  obtain ⟨code', hcode', t', ht', hv'⟩ := (hrows row hr).ofType j v hv
  rw [hcode] at hcode'
  cases hcode'
  rw [ht] at ht'
  cases ht'
  exact htype ▸ hv'

/-- The table of a started feed, read row by row. -/
theorem Holds.rows {first : BlockResult} {f : Feed.State BlockResult} {w : WorkBuffer}
    (hd : Delivery names types total results) (h : Holds names types total first f w)
    (hmem : ∀ r ∈ f.absorbed, r ∈ results) :
    w.table.rows names =
      (rowsOf names.length f.absorbed).map (List.map fun v => some ⟨v, false⟩) := by
  obtain ⟨hrows, hcount⟩ := rowsOf_spec hd hmem h.decodes
  have hn : w.table.rowCount.toNat = (rowsOf names.length f.absorbed).length := by
    simp only [WorkBuffer.table]
    rw [h.rowCount, ← hcount]
    rfl
  unfold TableData.rows
  rw [hn]
  apply List.ext_getElem
  · simp
  · intro i hi _
    have hi : i < (rowsOf names.length f.absorbed).length := by simpa using hi
    have hrow := hrows _ (List.getElem_mem hi)
    rw [List.getElem_map, List.getElem_map, List.getElem_range]
    apply List.ext_getElem
    · simp [hrow.length]
    · intro j hj _
      have hj : j < names.length := by simpa using hj
      have hin : ∀ row ∈ rowsOf names.length f.absorbed, j < row.length := fun row hr =>
        (hrows row hr).length.symm ▸ hj
      obtain ⟨type, realSize, hcol, hacc⟩ := h.column_typed hd hmem (List.getElem?_eq_getElem hj)
      simp only [TableData.row, List.getElem_map, WorkBuffer.table, hcol]
      rw [ColData.cell?_appendValues_new hacc, columnOf_getElem? hin,
        List.getElem?_eq_getElem hi]
      simp [hin _ (List.getElem_mem hi)]

/-- A run that delivers some of the results of a work. -/
theorem ingested_of_run {s₀ s : System} {es : List Event} {rest : List BlockResult}
    (hd : Delivery names types total results) (hwid : wid ≠ -1) (h₀ : Fresh qid wid s₀)
    (hpush : (pushes es ++ rest).Perm results) (hsave : NoSave es)
    (hrun : run (step qid wid) s₀ es = some s) :
    Ingested qid wid names results (s₀.counters qid) es s := by
  have hmem : ∀ r ∈ pushes es, r ∈ results := fun r hr =>
    hpush.mem_iff.mp (List.mem_append_left _ hr)
  obtain ⟨f, hf, h⟩ := tracks_of_run hd hwid h₀ hmem hsave hrun
  have hinv := Feed.inv_of_run _ _ hf
  have habs : f.absorbed = merges es := hinv.absorbed.trans (absorbs_feedActions es)
  have hperm : (Feed.puts (es.flatMap feedActions) ++ rest).Perm results := by
    rw [puts_feedActions]
    exact hpush
  have hgone := Feed.gone_iff hd.blocks hd.sum hinv hperm
  rw [absorbs_feedActions] at hgone
  have hitems : ∀ r ∈ f.absorbed, r ∈ results := fun r hr =>
    h.items r (List.mem_append_left _ (List.mem_append_left _ hr))
  have hstatus : (s.work qid wid).status = statusOf f.worker := by
    rcases h.work with ⟨rfl, hw⟩ | ⟨-, first, -, hw⟩
    · rw [hw]
      rfl
    · exact hw.status
  constructor
  case oneThread =>
    have habsent := hinv.absent
    rw [puts_feedActions] at habsent
    rw [h.threads]
    split
    · rename_i hnone
      rw [habsent.mpr hnone]
      rfl
    · rename_i hsome
      have hworker : f.worker ≠ .absent := fun hw => hsome (habsent.mp hw)
      cases hw : f.worker <;> simp_all [threadsOf]
  case inOrder =>
    have hfifo := hinv.fifo
    rw [puts_feedActions, absorbs_feedActions, List.append_assoc] at hfifo
    exact ⟨_, hfifo.symm⟩
  case done =>
    rw [hstatus, ← hgone]
    cases f.worker <;> simp [statusOf]
  case decodes =>
    rw [← habs]
    rcases h.work with ⟨rfl, -⟩ | ⟨-, first, -, hw⟩
    · simp
    · exact hw.decodes
  case rows =>
    rw [← habs]
    rcases h.work with ⟨rfl, hw⟩ | ⟨-, first, -, hw⟩
    · rw [hw]
      rfl
    · exact hw.rows hd hitems
  case rowCount =>
    rw [← habs]
    rcases h.work with ⟨rfl, hw⟩ | ⟨-, first, -, hw⟩
    · rw [hw]
      rfl
    · exact hw.rowCount
  case counters =>
    rw [← habs]
    intro hscanned hfiltered
    rw [h.counters, foldl_count hscanned hfiltered]

/-- The columns of an ingested table have values in the vector of their type
only. -/
theorem oneVector_of_run {s₀ s : System} {es : List Event}
    (hd : Delivery names types total results) (hwid : wid ≠ -1) (h₀ : Fresh qid wid s₀)
    (hpush : ∀ r ∈ pushes es, r ∈ results) (hsave : NoSave es)
    (hrun : run (step qid wid) s₀ es = some s) :
    ∀ name ∈ (s.work qid wid).tableData, ((s.work qid wid).tableData.get name).OneVector := by
  intro name hname
  obtain ⟨f, -, h⟩ := tracks_of_run hd hwid h₀ hpush hsave hrun
  have hitems : ∀ r ∈ f.absorbed, r ∈ results := fun r hr =>
    h.items r (List.mem_append_left _ (List.mem_append_left _ hr))
  rcases h.work with ⟨-, hw⟩ | ⟨-, first, -, hw⟩
  · rw [hw] at hname
    exact absurd hname (by simp)
  · obtain ⟨j, hj⟩ := List.getElem?_of_mem ((hw.member name).mp hname)
    obtain ⟨type, realSize, hcolumn, hacc⟩ := hw.column_typed hd hitems hj
    rw [hcolumn]
    exact ColData.oneVector_appendValues_new hacc

/-- As long as an item is left, the merge thread has a step to take. -/
theorem thread_enabled {s : System} {f : Feed.State BlockResult} {start : Int × Int}
    (h : Tracks qid wid names types total results start s f)
    (hdec : ∀ r ∈ results, (decodeRows names.length r).isSome)
    (hleft : f.worker.held ≠ [] ∨ f.worker = .waiting ∧ f.queue ≠ []) :
    (∃ r s', f.worker = .holding r ∧ step qid wid s (.merge 0 r) = some s') ∨
    ∃ r rest s', f.worker = .waiting ∧ f.queue = r :: rest ∧
      step qid wid s (.pop 0 r) = some s' := by
  have hworker : f.worker ≠ .absent := by
    intro hw
    simp [hw, Feed.Worker.held] at hleft
  rcases h.work with ⟨rfl, -⟩ | ⟨-, first, -, hw⟩
  · exact absurd rfl hworker
  have hwork : ∃ w, DataBuffer.work? s.dataBuffer qid wid = some w ∧ s.work qid wid = w := by
    cases hq : DataBuffer.work? s.dataBuffer qid wid with
    | some w => exact ⟨w, rfl, by simp [System.work, hq]⟩
    | none =>
      have hstatus := hw.status
      simp only [System.work, hq, Option.getD_none] at hstatus
      cases hf : f.worker <;> simp_all [statusOf]
  obtain ⟨w, hq, hsw⟩ := hwork
  rw [hsw] at hw
  cases hf : f.worker with
  | holding r =>
    left
    have hr : r ∈ results := h.items r (by simp [hf, Feed.Worker.held])
    obtain ⟨vals, hvals⟩ := Option.isSome_iff_exists.mp (hdec r hr)
    obtain ⟨p, hmerge⟩ : ∃ p, w.merge r = some p := by
      unfold WorkBuffer.merge
      rw [mergeRows_eq, hw.columns, hvals]
      simp only [Option.map_some, Option.bind_eq_bind, Option.bind_some]
      split <;> exact ⟨_, rfl⟩
    refine ⟨r, ?_⟩
    simp only [step, h.threads, hf, threadsOf, List.getElem?_cons_zero, if_true, mergeRound, hq,
      hmerge, Option.bind_eq_bind, Option.bind_some, Option.pure_def]
    exact ⟨_, trivial, rfl⟩
  | waiting =>
    right
    rcases hleft with hheld | ⟨-, hqueue⟩
    · simp [hf, Feed.Worker.held] at hheld
    obtain ⟨r, rest, hcons⟩ := List.exists_cons_of_ne_nil hqueue
    refine ⟨r, rest, ?_⟩
    have hwq : w.workBufferQueue = r :: rest := by rw [hw.queue, hcons]
    simp only [step, hq, h.threads, hf, threadsOf, List.getElem?_cons_zero, hwq, if_true,
      Option.bind_eq_bind, Option.bind_some, Option.pure_def]
    exact ⟨_, trivial, hcons, rfl⟩
  | absent => exact absurd hf hworker
  | gone => simp [hf, Feed.Worker.held] at hleft

theorem Tracks.done {s : System} {f : Feed.State BlockResult} {start : Int × Int}
    (h : Tracks qid wid names types total results start s f) (hgone : f.worker = .gone) :
    (s.work qid wid).status = .workDone := by
  rcases h.work with ⟨rfl, -⟩ | ⟨-, first, -, hw⟩
  · cases hgone
  · rw [hw.status, hgone]
    rfl

/-- When everything has been put into the feed, the merge thread can go on
until the work is done: each of its steps leaves fewer to do. -/
theorem Tracks.finishes {s : System} {f : Feed.State BlockResult} {start : Int × Int}
    {as : List (Feed.Action BlockResult)} (hd : Delivery names types total results)
    (hne : results ≠ []) (hdec : ∀ r ∈ results, (decodeRows names.length r).isSome)
    (hput : (Feed.puts as).Perm results)
    (hf : run (Feed.step (·.resultBlockCount) total) {} as = some f)
    (h : Tracks qid wid names types total results start s f) :
    ∃ es' s', pushes es' = [] ∧ run (Merging.step qid wid) s es' = some s' ∧
      (s'.work qid wid).status = .workDone := by
  induction hn : f.pending using Nat.strong_induction_on generalizing as s f with
  | _ n ih =>
    by_cases hleft : f.worker.held ≠ [] ∨ f.worker = .waiting ∧ f.queue ≠ []
    · rcases thread_enabled h hdec hleft with ⟨r, s', -, hs'⟩ | ⟨r, -, s', -, -, hs'⟩
      · obtain ⟨f', hf', h'⟩ := h.merge hd hs'
        obtain ⟨es', s'', hes', hrun', hdone⟩ := ih _ (hn ▸ Feed.pending_absorb hf')
          (by simpa [Feed.puts] using hput)
          (by rw [run_append, hf]; simp [run_cons, hf'] : run _ _ (as ++ [.absorb r]) = some f')
          h' rfl
        exact ⟨.merge 0 r :: es', s'', by simpa [pushes] using hes',
          by rw [run_cons, hs']; exact hrun', hdone⟩
      · obtain ⟨f', hf', h'⟩ := h.pop hs'
        obtain ⟨es', s'', hes', hrun', hdone⟩ := ih _ (hn ▸ Feed.pending_take hf')
          (by simpa [Feed.puts] using hput)
          (by rw [run_append, hf]; simp [run_cons, hf'] : run _ _ (as ++ [.take r]) = some f')
          h' rfl
        exact ⟨.pop 0 r :: es', s'', by simpa [pushes] using hes',
          by rw [run_cons, hs']; exact hrun', hdone⟩
    · simp only [not_or, not_and, not_not] at hleft
      have hgone := Feed.gone_of_idle hd.blocks hd.sum (Feed.inv_of_run _ _ hf) hput hne
        hleft.1 hleft.2
      exact ⟨[], s, rfl, rfl, h.done hgone⟩

/-- Once every result has been pushed, the merge thread can go on until the
work is done. -/
theorem completes {s₀ s : System} {es : List Event}
    (hd : Delivery names types total results) (hwid : wid ≠ -1) (h₀ : Fresh qid wid s₀)
    (hpush : (pushes es).Perm results) (hsave : NoSave es) (hne : results ≠ [])
    (hdec : ∀ r ∈ results, (decodeRows names.length r).isSome)
    (hrun : run (step qid wid) s₀ es = some s) :
    ∃ es' s', pushes es' = [] ∧ run (step qid wid) s es' = some s' ∧
      (s'.work qid wid).status = .workDone := by
  have hmem : ∀ r ∈ pushes es, r ∈ results := fun r hr => hpush.mem_iff.mp hr
  obtain ⟨f, hf, h⟩ := tracks_of_run hd hwid h₀ hmem hsave hrun
  exact h.finishes hd hne hdec (by rw [puts_feedActions]; exact hpush) hf

/-- **Ingest is exactly once in any order.** After any interleaving of pushes
and merges that delivered some of the results of a work: one merge thread
was started (with the first push), what has been merged is an initial part
of what was pushed, the work is done exactly when everything has been
merged, the table is the rows of what has been merged, and the counters of
the query have grown by the totals, as long as these are `int`s. A complete
delivery can always be finished, and two finished deliveries of the same
results give the same rows up to their order. -/
theorem ingest_exactly_once {s₀ s : System} {es : List Event} {rest : List BlockResult}
    (hd : Delivery names types total results) (hwid : wid ≠ -1) (h₀ : Fresh qid wid s₀)
    (hpush : (pushes es ++ rest).Perm results) (hsave : NoSave es)
    (hrun : run (step qid wid) s₀ es = some s) :
    Ingested qid wid names results (s₀.counters qid) es s ∧
    (rest = [] → results ≠ [] → (∀ r ∈ results, (decodeRows names.length r).isSome) →
      ∃ es' s', pushes es' = [] ∧ run (step qid wid) s es' = some s' ∧
        (s'.work qid wid).status = .workDone) ∧
    ∀ (t₀ t : System) (es' : List Event) (rest' : List BlockResult), Fresh qid wid t₀ →
      (pushes es' ++ rest').Perm results → NoSave es' →
      run (step qid wid) t₀ es' = some t →
      (s.work qid wid).status = .workDone → (t.work qid wid).status = .workDone →
      ((s.work qid wid).table.rows names).Perm ((t.work qid wid).table.rows names) := by
  have hmain := ingested_of_run hd hwid h₀ hpush hsave hrun
  refine ⟨hmain, ?_, ?_⟩
  · rintro rfl hne hdec
    rw [List.append_nil] at hpush
    exact completes hd hwid h₀ hpush hsave hne hdec hrun
  · intro t₀ t es' rest' ht₀ hpush' hsave' hrun' hdone hdone'
    have hother := ingested_of_run hd hwid ht₀ hpush' hsave' hrun'
    have hperm : (merges es).Perm (merges es') :=
      (hmain.done.mp hdone).2.trans (hother.done.mp hdone').2.symm
    rw [hmain.rows, hother.rows]
    exact (hperm.flatMap_right _).map _

end Outcome

/-- One row of a BYTE column. -/
def oneRowResult : BlockResult where
  queryId := 1
  workId := 0
  data := [5]
  length := 1
  rowOffset := [0]
  rowCount := 1
  tableTotalBlockCount := 3
  resultBlockCount := 1
  returnDatatype := [1]
  returnOfflen := [1]
  scannedRowCount := 4
  filteredRowCount := 1
  tableAlias := "t"
  columnAlias := ["a"]
  sameLength := rfl

/-- Two rows of the same column, from two blocks. -/
def twoRowResult : BlockResult where
  queryId := 1
  workId := 0
  data := [7, 8]
  length := 2
  rowOffset := [0, 1]
  rowCount := 2
  tableTotalBlockCount := 3
  resultBlockCount := 2
  returnDatatype := [1]
  returnOfflen := [1]
  scannedRowCount := 6
  filteredRowCount := 2
  tableAlias := "t"
  columnAlias := ["a"]
  sameLength := rfl

theorem twoResults_delivery : Delivery ["a"] [1] 3 [oneRowResult, twoRowResult] := by
  constructor <;> simp [KnownTypes, oneRowResult, twoRowResult]
  decide

/-- The second push comes between the merge steps of the first. -/
def twoResultRun : List Event :=
  [.push oneRowResult, .pop 0 oneRowResult, .push twoRowResult, .merge 0 oneRowResult,
    .pop 0 twoRowResult, .merge 0 twoRowResult]

theorem ingest_two_results :
    ∃ s, run (step 1 0) { dataBuffer := ∅ } twoResultRun = some s ∧
      (s.work 1 0).status = .workDone ∧
      Ingested 1 0 ["a"] [oneRowResult, twoRowResult] (0, 0) twoResultRun s := by
  have hrun : (run (step 1 0) { dataBuffer := ∅ } twoResultRun).isSome := by decide
  obtain ⟨s, hs⟩ := Option.isSome_iff_exists.mp hrun
  have h₀ : Fresh 1 0 { dataBuffer := ∅ } := ⟨rfl, rfl⟩
  have hsave : NoSave twoResultRun := by
    intro e he
    simp only [twoResultRun, List.mem_cons, List.not_mem_nil, or_false] at he
    rcases he with rfl | rfl | rfl | rfl | rfl | rfl <;> simp
  have h := (@ingest_exactly_once 1 0 ["a"] [1] 3 [oneRowResult, twoRowResult] _ s twoResultRun []
    twoResults_delivery (by decide) h₀ (List.Perm.refl _) hsave hs).1
  exact ⟨s, hs, h.done.mpr ⟨by simp, List.Perm.refl _⟩, h⟩

/-- A block of which 2^30 rows were scanned and none is left. -/
def emptyResult : BlockResult where
  queryId := 1
  workId := 0
  data := []
  length := 0
  rowOffset := []
  rowCount := 0
  tableTotalBlockCount := 2
  resultBlockCount := 1
  returnDatatype := [1]
  returnOfflen := [1]
  scannedRowCount := 2 ^ 30
  filteredRowCount := 0
  tableAlias := "t"
  columnAlias := ["a"]
  sameLength := rfl

/-- Two such blocks are counted as -2^31 rows. -/
theorem ingest_wraps :
    Delivery ["a"] [1] 2 [emptyResult, emptyResult] ∧
      (run (step 1 0) { dataBuffer := ∅ } [.push emptyResult, .pop 0 emptyResult,
        .merge 0 emptyResult, .push emptyResult, .pop 0 emptyResult, .merge 0 emptyResult]).map
          (fun s => ((s.work 1 0).status, s.counters 1)) = some (.workDone, (-2 ^ 31, 0)) ∧
      (totals [emptyResult, emptyResult]).1 = 2 ^ 31 := by
  refine ⟨?_, by decide, by decide⟩
  constructor <;> simp [KnownTypes, emptyResult]
  decide

end KetiEngine.Merging
