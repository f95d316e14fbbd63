import KetiEngine.Merging.QueryInvariant
import Mathlib.Logic.Relation

/-!
# QueryAnswer — the tables of a planned query and its answer

The threads of a work that is scanned take no notice of the other works, so
each scanned work has the rows of its results as if it were alone. With the
invariant of the query that makes every table that is done a solution of the
plan, and the answer the table at the end of it.
-/

namespace KetiEngine.Merging

open KetiEngine Runs DataBuffer

variable {qid wid : Int} {sort : SortFunction} {p : QueryPlan} {s s' : QueryState qid}
  {m : QuerySnippet} {c : Scan} {e : ScanEvent} {es : List QueryEvent}

/-! ## A scanned work by itself -/

/-- The receiver and the merge threads look at their work only. -/
theorem scan_congr_work {a b b' : System} (hwid : wid ≠ -1)
    (hwork : work? a.dataBuffer qid wid = work? b.dataBuffer qid wid)
    (hthreads : a.threads = b.threads) (h : step qid wid b e.toEvent = some b') :
    ∃ a', step qid wid a e.toEvent = some a' ∧
      work? a'.dataBuffer qid wid = work? b'.dataBuffer qid wid ∧ a'.threads = b'.threads := by
  cases e with
  | push r =>
    simp only [ScanEvent.toEvent, step, Option.ite_none_right_eq_some] at h ⊢
    obtain ⟨⟨rfl, rfl⟩, h⟩ := h
    obtain ⟨⟨db, started⟩, hpush, h⟩ := Option.bind_eq_some_iff.mp h
    cases h
    obtain ⟨w, hw, hdb, -⟩ := pushResult_spec hwid hpush
    rw [← hwork] at hw
    have hrun : ∃ db', pushResult a.dataBuffer r = some (db', started) ∧
        work? db' r.queryId r.workId = some w := by
      unfold pushResult
      simp only [work?_initializeBuffer _ _ hwid, hw, Option.bind_eq_bind, Option.bind_some]
      exact ⟨_, rfl, work?_setWork _ _ _ _⟩
    obtain ⟨db', hrun, hdb'⟩ := hrun
    simp only [hrun, Option.bind_eq_bind, Option.bind_some, hthreads]
    exact ⟨_, ⟨⟨trivial, trivial⟩, rfl⟩, hdb'.trans hdb.symm, rfl⟩
  | pop k r =>
    simp only [ScanEvent.toEvent, step, hthreads, hwork] at h ⊢
    obtain ⟨w, hw, h⟩ := Option.bind_eq_some_iff.mp h
    simp only [hw, Option.bind_eq_bind, Option.bind_some]
    split at h
    · simp only [Option.ite_none_right_eq_some, Option.pure_def, Option.some.injEq] at h
      obtain ⟨rfl, rfl⟩ := h
      simp only [if_true]
      exact ⟨_, rfl, by simp, rfl⟩
    · cases h
  | merge k r =>
    simp only [ScanEvent.toEvent, step, hthreads] at h ⊢
    split at h
    · rename_i result hthread
      simp only [Option.ite_none_right_eq_some] at h
      obtain ⟨rfl, h⟩ := h
      obtain ⟨⟨db, done⟩, hmerge, h⟩ := Option.bind_eq_some_iff.mp h
      cases h
      obtain ⟨w, w', hw, hmerge, hw', -⟩ := mergeRound_spec hmerge
      rw [← hwork] at hw
      have hrun : ∃ db', mergeRound a.dataBuffer qid wid result = some (db', done) ∧
          work? db' qid wid = some w' := by
        unfold mergeRound
        simp only [hw, hmerge, Option.bind_eq_bind, Option.bind_some]
        exact ⟨_, rfl, by simp [work?, query_insert]⟩
      obtain ⟨db', hrun, hdb'⟩ := hrun
      simp only [hrun, if_true, Option.bind_eq_bind, Option.bind_some]
      exact ⟨_, rfl, hdb'.trans hw'.symm, rfl⟩
    · cases h

/-- The work that a call asks for gets its buffer, here and in the work by
itself. -/
theorem enter_congr_work {a : System} {request : Request} (hwid : wid ≠ -1)
    (hwork : work? a.dataBuffer qid wid = s.work? wid) (hasked : request.workId = wid)
    (h : queryStep sort qid s (.enter request) = some s') :
    ∃ a', step qid wid a (.enter request.workId request.tableName) = some a' ∧
      work? a'.dataBuffer qid wid = s'.work? wid ∧ a'.threads = a.threads := by
  subst hasked
  refine ⟨_, rfl, ?_, rfl⟩
  rw [queryStep_enter h]
  show _ = DataBuffer.work? (initializeBuffer s.dataBuffer qid request.workId _) qid _
  rw [work?_initializeBuffer _ _ hwid, work?_initializeBuffer _ _ hwid, hwork]
  rfl

/-- A step elsewhere leaves the work and the threads of a scan. -/
theorem Reached.scan_frame (hp : p.WellFormed qid) (h : Reached sort p es s) {e : QueryEvent}
    (hf : Follows p (es ++ [e])) (hc : c ∈ p.scans) (he : scanEvents c.workId [e] = [])
    (hstep : queryStep sort qid s e = some s') :
    s'.work? c.workId = s.work? c.workId ∧ s'.merging c.workId = s.merging c.workId := by
  have hlast : e ∈ es ++ [e] := List.mem_append_right _ (List.mem_singleton_self e)
  cases e with
  | scan wid e =>
    obtain ⟨c', hc', rfl⟩ := hf.scans wid e hlast
    have hne : c.workId ≠ c'.workId := by
      intro heq
      simp [scanEvents, heq] at he
    obtain ⟨hscan, hmerging, -⟩ := queryStep_scan (hp.ordinary_scan hc') hstep
    obtain ⟨tableName, hname⟩ := exists_tableName e
    exact ⟨(writes_scan hname hscan).works _ hne, hmerging _ hne⟩
  | aggregation m =>
    obtain ⟨own, rfl⟩ := queryStep_aggregation hstep
    exact ⟨rfl, rfl⟩
  | snippet k =>
    obtain ⟨t, phase, hk, hnext, hmerging, -⟩ := queryStep_snippet hstep
    have hplanned := (h.inv.threads t (List.mem_of_getElem? hk)).1
    exact ⟨(writes_next hnext).works _ (hp.scan_ne_snippet hc hplanned), congrFun hmerging _⟩
  | enter request =>
    have hne : c.workId ≠ request.workId := by
      intro heq
      simp [scanEvents, heq] at he
    rw [queryStep_enter hstep]
    exact ⟨(writes_initializeBuffer _ _ _ _).works _ hne, rfl⟩
  | getQueryResult request => exact absurd hlast (hf.unanswered request)

theorem scanEvents_append (wid : Int) (es es' : List QueryEvent) :
    scanEvents wid (es ++ es') = scanEvents wid es ++ scanEvents wid es' :=
  List.filterMap_append

/-- **A scan by itself**: the events of its work are a run of that work alone,
which leaves it as the query does. -/
theorem scan_run (hp : p.WellFormed qid) (hc : c ∈ p.scans) (hf : Follows p es)
    (hrun : run (queryStep sort qid) {} es = some s) :
    ∃ a, run (step qid c.workId) { dataBuffer := ∅ } (scanEvents c.workId es) = some a ∧
      work? a.dataBuffer qid c.workId = s.work? c.workId ∧ a.threads = s.merging c.workId := by
  induction es using List.reverseRecOn generalizing s with
  | nil =>
    cases hrun
    exact ⟨_, rfl, rfl, rfl⟩
  | append_singleton es e ih =>
    obtain ⟨s₁, s₂, hrun₁, hstep, hrun₂⟩ := run_through hrun
    cases hrun₂
    obtain ⟨a, ha, hwork, hthreads⟩ := ih hf.of_append hrun₁
    have hreached := reached_of_run hp hf.of_append hrun₁
    have hwid := hp.ordinary_scan hc
    -- a step of the work is one step of the work by itself
    have hone : ∀ {e' : Event} {a' : System}, scanEvents c.workId [e] = [e'] →
        step qid c.workId a e' = some a' →
        run (step qid c.workId) { dataBuffer := ∅ } (scanEvents c.workId (es ++ [e])) =
          some a' := by
      intro e' a' hlast ha'
      rw [scanEvents_append, hlast, run_append, ha, Option.bind_some, run_cons, ha']
      rfl
    by_cases hown : scanEvents c.workId [e] = []
    · obtain ⟨hwork', hthreads'⟩ := hreached.scan_frame hp hf hc hown hstep
      refine ⟨a, ?_, hwork.trans hwork'.symm, hthreads.trans hthreads'.symm⟩
      rw [scanEvents_append, hown, List.append_nil, ha]
    cases e with
    | scan v e' =>
      obtain rfl : v = c.workId := by
        by_contra hne
        exact hown (by simp [scanEvents, hne])
      obtain ⟨hscan, -⟩ := queryStep_scan hwid hstep
      obtain ⟨a', ha', hwork', hthreads'⟩ := scan_congr_work hwid hwork hthreads hscan
      exact ⟨a', hone (by simp [scanEvents]) ha', hwork', hthreads'⟩
    | enter request =>
      have hasked : request.workId = c.workId := by
        by_contra hne
        exact hown (by simp [scanEvents, hne])
      obtain ⟨a', ha', hwork', hthreads'⟩ := enter_congr_work hwid hwork hasked hstep
      refine ⟨a', hone (by simp [scanEvents, hasked]) ha', hwork', ?_⟩
      rw [hthreads', hthreads, queryStep_enter hstep]
    | aggregation m => exact absurd rfl hown
    | snippet k => exact absurd rfl hown
    | getQueryResult request => exact absurd rfl hown

/-! ## Tables that are done -/

/-- The table of a scan with the rows of all of its results, in the order in
which they were merged. -/
def Scan.Complete (c : Scan) (t : TableData) : Prop :=
  ∃ merged : List BlockResult, merged.Perm c.results ∧
    t.rows c.names = (rowsOf c.names.length merged).map (List.map fun v => some ⟨v, false⟩) ∧
    t.rowCount = (merged.map fun r => (r.rowCount : Int)).sum

theorem noSave_scanEvents (wid : Int) (es : List QueryEvent) : NoSave (scanEvents wid es) := by
  intro e he snippet t offset length hsave
  obtain ⟨e', -, he'⟩ := List.mem_filterMap.mp he
  cases e' with
  | scan v e' =>
    obtain ⟨-, heq⟩ := Option.ite_none_right_eq_some.mp he'
    rw [← Option.some.inj heq] at hsave
    cases e' <;> cases hsave
  | enter request =>
    obtain ⟨-, heq⟩ := Option.ite_none_right_eq_some.mp he'
    rw [← Option.some.inj heq] at hsave
    cases hsave
  | aggregation m => cases he'
  | snippet k => cases he'
  | getQueryResult request => cases he'

/-- What the receiver and the merge thread of a scan have done. -/
theorem scan_ingested (hp : p.WellFormed qid) (hc : c ∈ p.scans) (hf : Follows p es)
    (hrun : run (queryStep sort qid) {} es = some s) :
    ∃ a, Ingested qid c.workId c.names c.results (0, 0) (scanEvents c.workId es) a ∧
      work? a.dataBuffer qid c.workId = s.work? c.workId ∧ a.threads = s.merging c.workId := by
  obtain ⟨a, ha, hwork, hthreads⟩ := scan_run hp hc hf hrun
  obtain ⟨rest, hrest⟩ : ∃ rest, (pushes (scanEvents c.workId es) ++ rest).Perm c.results := by
    obtain ⟨l, hperm, hsub⟩ := hf.pushes c hc
    obtain ⟨rest, hrest⟩ := hsub.exists_perm_append
    exact ⟨rest, (hperm.symm.append_right rest).trans hrest.symm⟩
  refine ⟨a, ?_, hwork, hthreads⟩
  have h := ingested_of_run (hp.delivery c hc) (hp.ordinary_scan hc) ⟨rfl, rfl⟩ hrest
    (noSave_scanEvents c.workId es) ha
  exact h

theorem Scan.complete_of_done (hp : p.WellFormed qid) (hc : c ∈ p.scans) (hf : Follows p es)
    (hrun : run (queryStep sort qid) {} es = some s) {w : WorkBuffer}
    (hw : s.work? c.workId = some w) (hdone : w.status = .workDone) :
    (merges (scanEvents c.workId es)).Perm c.results ∧ c.Complete w.table := by
  obtain ⟨a, hingested, hwork, -⟩ := scan_ingested hp hc hf hrun
  have hsame : a.work qid c.workId = w := by
    unfold System.work
    rw [hwork, hw, Option.getD_some]
  have hperm := (hingested.done.mp (by rw [hsame, hdone])).2
  refine ⟨hperm, _, hperm, ?_, ?_⟩
  · rw [← hsame]
    exact hingested.rows
  · rw [← hsame]
    exact hingested.rowCount

/-- The tables of a query that are done solve its plan. -/
structure Solved (sort : SortFunction) (p : QueryPlan) (s : QueryState qid) : Prop where
  named : ∀ q ∈ p.works, ∀ w, s.work? q.1 = some w → s.named q.2 = some q.1
  scans : ∀ c ∈ p.scans, ∀ w, s.work? c.workId = some w → w.status = .workDone →
    c.Complete w.table
  snippets : ∀ m ∈ p.snippets, ∀ w, s.work? m.workId = some w → w.status = .workDone →
    m.ComputedFrom sort s.dataBuffer w

/-- Every interleaving of the steps solves the plan. -/
theorem solved_of_run (hp : p.WellFormed qid) (hf : Follows p es)
    (hrun : run (queryStep sort qid) {} es = some s) : Solved sort p s := by
  have hinv := (reached_of_run hp hf hrun).inv
  constructor
  case named => exact fun q hq w hw => hinv.found q hq (hw ▸ rfl)
  case scans => exact fun c hc w hw hdone => (Scan.complete_of_done hp hc hf hrun hw hdone).2
  case snippets =>
    intro m hm w hw hdone
    rcases hinv.snippet_work hm hw with rfl | ⟨-, -, -, hcomputed⟩
    · cases hdone
    · exact hcomputed

/-- The two results of a scan of table `t`. -/
def twoResultScan : Scan where
  workId := 0
  tableAlias := "t"
  names := ["a"]
  types := [1]
  total := 3
  results := [oneRowResult, twoRowResult]

/-- `SELECT a AS n FROM t LIMIT 2`. -/
def firstTwo : QuerySnippet where
  queryId := 1
  workId := 2
  tableName := ["t"]
  projection := [{ value := ["a"], valueType := [.column] }]
  tableAlias := "top"
  columnAlias := ["n"]
  limit := ⟨0, 2⟩
  type := .aggregation

def firstTwoPlan : QueryPlan := ⟨[twoResultScan], [firstTwo]⟩

theorem firstTwoPlan_wellFormed : firstTwoPlan.WellFormed 1 := by
  constructor
  case ids => decide
  case names => decide
  case ordinary => decide
  case delivery =>
    intro c hc
    obtain rfl := List.mem_singleton.mp hc
    exact twoResults_delivery
  case results =>
    intro c hc
    obtain rfl := List.mem_singleton.mp hc
    decide

/-! ## The row counters of a query -/

/-- The results merged, of all works, in order. -/
def mergedResults (es : List QueryEvent) : List BlockResult :=
  es.filterMap fun
    | .scan _ (.merge _ r) => some r
    | _ => none

/-- A snippet thread leaves the counters of the query. -/
theorem counters_next {t : SnippetThread qid} {db db' : DataBuffer} {phase : Phase}
    (h : t.next sort db = some (db', phase)) : counters db' qid = counters db qid := by
  have hsame : db'.query qid = db.query qid → counters db' qid = counters db qid := by
    intro hquery
    rw [counters, counters, hquery]
  obtain ⟨m, rfl, ph⟩ := t
  unfold SnippetThread.next at h
  cases ph with
  | started =>
    cases h
    exact counters_initializeBuffer db _ _ _
  | initialized => exact hsame (fetch_spec h).1
  | reading finished rowIndex delivered => exact hsame (read_spec h).1
  | loaded finished delivered =>
    obtain ⟨db₁, hrun, h⟩ := Option.bind_eq_some_iff.mp h
    cases h
    obtain ⟨u, offset, length, hsave⟩ := runSnippetWork_save hrun
    unfold saveTableData at hsave
    obtain ⟨w, -, hsave⟩ := Option.bind_eq_some_iff.mp hsave
    obtain ⟨w', -, hsave⟩ := Option.bind_eq_some_iff.mp hsave
    cases hsave
    have hown : m.saved.queryId = m.queryId := rfl
    simp [counters, hown, query_insert]
  | saved => cases h

/-- The counters have counted the results that have been merged. -/
theorem counters_of_run (hp : p.WellFormed qid) (hf : Follows p es)
    (hrun : run (queryStep sort qid) {} es = some s) :
    counters s.dataBuffer qid = (mergedResults es).foldl count (0, 0) := by
  induction es using List.reverseRecOn generalizing s with
  | nil =>
    cases hrun
    rfl
  | append_singleton es e ih =>
    obtain ⟨s₁, s₂, hrun₁, hstep, hrun₂⟩ := run_through hrun
    cases hrun₂
    have hold := ih hf.of_append hrun₁
    have hlast : e ∈ es ++ [e] := List.mem_append_right _ (List.mem_singleton_self e)
    have hmerged : mergedResults (es ++ [e]) = mergedResults es ++ mergedResults [e] :=
      List.filterMap_append
    rw [hmerged]
    cases e with
    | scan wid e =>
      obtain ⟨c, hc, rfl⟩ := hf.scans wid e hlast
      have hwid := hp.ordinary_scan hc
      obtain ⟨hscan, -⟩ := queryStep_scan hwid hstep
      cases e with
      | push r =>
        obtain ⟨-, -, -, -, hcounters⟩ := step_push hwid hscan
        have hnone : mergedResults [.scan c.workId (.push r)] = [] := rfl
        rw [hnone, List.append_nil]
        exact hcounters.trans hold
      | pop k r =>
        obtain ⟨-, -, -, -, -, -, hcounters⟩ := step_pop hscan
        have hnone : mergedResults [.scan c.workId (.pop k r)] = [] := rfl
        rw [hnone, List.append_nil]
        exact hcounters.trans hold
      | merge k r =>
        obtain ⟨-, -, -, -, -, hcounters⟩ := step_merge hscan
        have hone : mergedResults [.scan c.workId (.merge k r)] = [r] := rfl
        have hold' : (s₁.system c.workId).counters qid = _ := hold
        rw [hone, List.foldl_append, ← hold']
        exact hcounters
    | aggregation m =>
      obtain ⟨own, rfl⟩ := queryStep_aggregation hstep
      have hnone : mergedResults [.aggregation m] = [] := rfl
      rw [hnone, List.append_nil]
      exact hold
    | snippet k =>
      obtain ⟨t, phase, -, hnext, -, -⟩ := queryStep_snippet hstep
      have hnone : mergedResults [.snippet k] = [] := rfl
      rw [hnone, List.append_nil, counters_next hnext]
      exact hold
    | enter request =>
      have hnone : mergedResults [.enter request] = [] := rfl
      rw [hnone, List.append_nil, ← hold, queryStep_enter hstep]
      exact counters_initializeBuffer _ _ _ _
    | getQueryResult request => exact absurd hlast (hf.unanswered request)

/-- The results merged, each with its work. -/
def mergedPairs (es : List QueryEvent) : List (Int × BlockResult) :=
  es.filterMap fun
    | .scan wid (.merge _ r) => some (wid, r)
    | _ => none

theorem mergedResults_eq (es : List QueryEvent) :
    mergedResults es = (mergedPairs es).map Prod.snd := by
  induction es with
  | nil => rfl
  | cons e es ih =>
    cases e with
    | scan wid e =>
      cases e with
      | merge k r => exact congrArg (r :: ·) ih
      | push r => exact ih
      | pop k r => exact ih
    | aggregation m => exact ih
    | snippet k => exact ih
    | enter request => exact ih
    | getQueryResult request => exact ih

theorem merges_scanEvents (wid : Int) (es : List QueryEvent) :
    merges (scanEvents wid es) = (Groups.group Prod.fst (mergedPairs es) wid).map Prod.snd := by
  induction es with
  | nil => rfl
  | cons e es ih =>
    cases e with
    | scan v e =>
      by_cases hv : v = wid
      · subst hv
        cases e <;>
          simpa [merges, scanEvents, mergedPairs, Groups.group, ScanEvent.toEvent] using ih
      · cases e <;> simpa [merges, scanEvents, mergedPairs, Groups.group, hv] using ih
    | enter request =>
      by_cases hasked : request.workId = wid
      · simpa [merges, scanEvents, mergedPairs, Groups.group, hasked] using ih
      · simpa [merges, scanEvents, mergedPairs, Groups.group, hasked] using ih
    | aggregation m => exact ih
    | snippet k => exact ih
    | getQueryResult request => exact ih

/-- Each merged result is merged in one of the scanned works. -/
theorem mergedResults_perm (hp : p.WellFormed qid) (hf : Follows p es) :
    (mergedResults es).Perm
      (p.scans.flatMap fun c => merges (scanEvents c.workId es)) := by
  have hids : (p.scans.map (·.workId)).Nodup := (List.nodup_append.mp hp.ids_append).1
  have hcover : ∀ q ∈ mergedPairs es, q.1 ∈ p.scans.map (·.workId) := by
    intro q hq
    obtain ⟨e, he, heq⟩ := List.mem_filterMap.mp hq
    cases e with
    | scan wid e =>
      obtain ⟨c, hc, rfl⟩ := hf.scans wid e he
      cases e with
      | merge k r =>
        obtain rfl := Option.some.inj heq
        exact List.mem_map_of_mem hc
      | push r => cases heq
      | pop k r => cases heq
    | aggregation m => cases heq
    | snippet k => cases heq
    | enter request => cases heq
    | getQueryResult request => cases heq
  have hperm := (Groups.flatMap_group_perm_of_cover Prod.fst hids hcover).map Prod.snd
  rw [mergedResults_eq]
  refine hperm.symm.trans (.of_eq ?_)
  rw [List.map_flatMap, List.flatMap_map]
  exact List.flatMap_congr fun c _ => (merges_scanEvents c.workId es).symm

/-! ## The answer -/

/-- The snippet reads the table with this name. -/
def QuerySnippet.Uses (m : QuerySnippet) (tableName : String) : Prop :=
  ∃ i, (m.finishedTable? = some i ∨ m.growingTable? = some i) ∧ m.tableName[i]? = some tableName

/-- The table `name` is computed from the table `source`. -/
def QueryPlan.Needs (p : QueryPlan) (name source : String) : Prop :=
  ∃ m ∈ p.snippets, m.tableAlias = name ∧ m.Uses source

/-- Everything in the plan is there for the table `answer`. -/
def QueryPlan.Feeds (p : QueryPlan) (answer : String) : Prop :=
  ∀ q ∈ p.works, Relation.ReflTransGen p.Needs answer q.2

theorem QuerySnippet.ComputedFrom.uses {db : DataBuffer} {w : WorkBuffer} {tableName : String}
    (h : m.ComputedFrom sort db w) (huses : m.Uses tableName) :
    ∃ w', FinishedWork db m.queryId tableName w' := by
  obtain ⟨finished, delivered, hfetched, hdelivered, -⟩ := h
  obtain ⟨i, hwhich, hname⟩ := huses
  rcases hwhich with hwaits | hreads
  · unfold QuerySnippet.Fetched at hfetched
    rw [hwaits] at hfetched
    obtain ⟨name, w', hname', hw', -⟩ := hfetched
    obtain rfl := Option.some.inj (hname.symm.trans hname')
    exact ⟨w', hw'⟩
  · unfold QuerySnippet.Delivered at hdelivered
    rw [hreads] at hdelivered
    obtain ⟨name, w', hname', hw', -⟩ := hdelivered
    obtain rfl := Option.some.inj (hname.symm.trans hname')
    exact ⟨w', hw'⟩

/-- A table that is done was computed from tables that are done. -/
theorem QueryInv.finished_of_needs (hp : p.WellFormed qid) (hinv : QueryInv sort p s)
    {name source : String} (hneeds : Relation.ReflTransGen p.Needs name source)
    (hdone : ∃ w, FinishedWork s.dataBuffer qid name w) :
    ∃ w, FinishedWork s.dataBuffer qid source w := by
  induction hneeds with
  | refl => exact hdone
  | tail _ hneeds ih =>
    obtain ⟨w, v, hv, hw, hdone⟩ := ih
    obtain ⟨m, hm, rfl, huses⟩ := hneeds
    have hid := hp.eq_of_name (hinv.named _ v hv) (QueryPlan.WellFormed.snippet_mem hm) rfl
    obtain rfl : v = m.workId := congrArg Prod.fst hid
    rcases hinv.snippet_work hm hw with rfl | ⟨-, -, hown, hcomputed⟩
    · cases hdone
    · subst hown
      exact hcomputed.uses huses

/-- The query is over: all results of its scans are merged, and no thread is
at work. -/
structure AllDone (p : QueryPlan) (es : List QueryEvent) (s : QueryState qid) : Prop where
  works : ∀ q ∈ p.works, ∃ w, s.work? q.1 = some w ∧ w.status = .workDone
  merged : ∀ c ∈ p.scans, (merges (scanEvents c.workId es)).Perm c.results
  merging : ∀ c ∈ p.scans, s.merging c.workId = [.finished]
  spawned : ∀ m ∈ p.snippets, ∃ t ∈ s.snippets, t.snippet = m
  saved : ∀ t ∈ s.snippets, t.phase = .saved

theorem allDone_of_works (hp : p.WellFormed qid) (hf : Follows p es)
    (hrun : run (queryStep sort qid) {} es = some s)
    (hworks : ∀ q ∈ p.works, ∃ w, s.work? q.1 = some w ∧ w.status = .workDone) :
    AllDone p es s := by
  have hinv := (reached_of_run hp hf hrun).inv
  constructor
  case works => exact hworks
  case merged =>
    intro c hc
    obtain ⟨w, hw, hdone⟩ := hworks _ (QueryPlan.WellFormed.scan_mem hc)
    exact (Scan.complete_of_done hp hc hf hrun hw hdone).1
  case merging =>
    intro c hc
    obtain ⟨w, hw, hdone⟩ := hworks _ (QueryPlan.WellFormed.scan_mem hc)
    have hstatus : ((s.system c.workId).work qid c.workId).status = .workDone :=
      (congrArg TableData.status (QueryState.table_of_work? hw)).trans hdone
    rcases hinv.scans c hc with hnew | ⟨hfill, -⟩
    · rw [hnew.fresh.work] at hstatus
      cases hstatus
    · rcases hfill.thread with ⟨-, hrunning⟩ | ⟨-, -, -, hrunning⟩ | ⟨hthreads, -⟩
      · cases hrunning.symm.trans hstatus
      · cases hrunning.symm.trans hstatus
      · exact hthreads
  case spawned =>
    intro m hm
    obtain ⟨w, hw, hdone⟩ := hworks _ (QueryPlan.WellFormed.snippet_mem hm)
    rcases hinv.snippet_work hm hw with rfl | ⟨-, ⟨t, ht, heq, -⟩, -⟩
    · cases hdone
    · exact ⟨t, ht, heq⟩
  case saved =>
    intro t ht
    have hm := (hinv.threads t ht).1
    obtain ⟨w, hw, hdone⟩ := hworks _ (QueryPlan.WellFormed.snippet_mem hm)
    rcases hinv.snippet_work hm hw with rfl | ⟨-, ⟨t', ht', heq, hsaved⟩, -⟩
    · cases hdone
    · -- a snippet has one thread
      have hsame : t' = t := List.inj_on_of_nodup_map hinv.distinct ht' ht
        (congrArg (fun m : QuerySnippet => m.workId) heq)
      exact hsame ▸ hsaved

/-- A call of `GetQueryResult` that returns: the table of a work that is done,
and the counters of the query. -/
theorem queryStep_answer {request : Request} {v : Int} (hv : v ≠ -1)
    (hasked : request.workId = v ∨
      request.workId = -1 ∧ ∀ v', s.named request.tableName = some v' → v' = v)
    (h : queryStep sort qid s (.getQueryResult request) = some s') :
    ∃ w, s.work? v = some w ∧ w.status = .workDone ∧
      s'.results = s.results ++ [queryResultOf { w.table with
        scannedRowCount := (counters s.dataBuffer qid).1
        filteredRowCount := (counters s.dataBuffer qid).2 }] ∧
      s'.merging = s.merging ∧ s'.snippets = s.snippets ∧ bufferOf s'.dataBuffer qid = none := by
  simp only [queryStep, Option.ite_none_right_eq_some] at h
  obtain ⟨rfl, h⟩ := h
  obtain ⟨⟨result, db⟩, hget, h⟩ := Option.bind_eq_some_iff.mp h
  cases h
  obtain ⟨t, hfinished, hget⟩ := Option.bind_eq_some_iff.mp hget
  cases hget
  obtain ⟨v', hv', hfinished⟩ := Option.bind_eq_some_iff.mp hfinished
  obtain ⟨w, hw, hfinished⟩ := Option.bind_eq_some_iff.mp hfinished
  split at hfinished
  · cases hfinished
  rename_i hstatus
  have hdone : w.status = .workDone := by
    cases hs : w.status with
    | workDone => rfl
    | initialized => exact absurd (.inr hs) hstatus
    | notFinished => exact absurd (.inl hs) hstatus
  have hcounters := counters_initializeBuffer s.dataBuffer request.queryId request.workId
    request.tableName
  have hwork : v' = v ∧ s.work? v = some w := by
    rcases hasked with rfl | ⟨hminus, hnamed⟩
    · rw [workIdOf, if_neg hv] at hv'
      obtain rfl := Option.some.inj hv'
      rw [work?_initializeBuffer _ _ hv] at hw
      refine ⟨rfl, ?_⟩
      cases hold : s.work? request.workId with
      | some w' =>
        unfold QueryState.work? at hold
        rw [hold] at hw
        exact hw
      | none =>
        unfold QueryState.work? at hold
        rw [hold] at hw
        obtain rfl := Option.some.inj hw
        cases hdone
    · rw [hminus] at hv' hw
      have hquery := query_initializeReader s.dataBuffer request.queryId request.tableName
      rw [workIdOf, if_pos rfl, hquery, ← namedWork_eq] at hv'
      obtain rfl := hnamed v' hv'
      rw [DataBuffer.work?, hquery] at hw
      exact ⟨rfl, hw⟩
  obtain ⟨rfl, hw⟩ := hwork
  cases hfinished
  rw [← hcounters]
  exact ⟨w, hw, hdone, rfl, rfl, rfl, bufferOf_endQuery _ _⟩

/-- What a planned query is answered with: a table that is done. -/
theorem answered_table {request : Request} {v : Int} {answer : String} (hp : p.WellFormed qid)
    (hf : Follows p es) (hrun : run (queryStep sort qid) {} es = some s)
    (hanswer : (v, answer) ∈ p.works)
    (hasked : request.workId = v ∨ request.workId = -1 ∧ request.tableName = answer)
    (hstep : queryStep sort qid s (.getQueryResult request) = some s') :
    ∃ w, s.work? v = some w ∧ FinishedWork s.dataBuffer qid answer w ∧
      s'.results = s.results ++ [queryResultOf { w.table with
        scannedRowCount := (counters s.dataBuffer qid).1
        filteredRowCount := (counters s.dataBuffer qid).2 }] ∧
      bufferOf s'.dataBuffer qid = none := by
  have hinv := (reached_of_run hp hf hrun).inv
  have hasked' : request.workId = v ∨
      request.workId = -1 ∧ ∀ v', s.named request.tableName = some v' → v' = v := by
    refine hasked.imp_right fun ⟨hminus, hname⟩ => ⟨hminus, fun v' hv' => ?_⟩
    exact congrArg Prod.fst (hp.eq_of_name (hinv.named _ v' hv') hanswer hname)
  obtain ⟨w, hw, hdone, hresults, -, -, hfreed⟩ :=
    queryStep_answer (hp.ordinary _ hanswer) hasked' hstep
  exact ⟨w, hw, ⟨v, hinv.found _ hanswer (hw ▸ rfl), hw, hdone⟩, hresults, hfreed⟩

/-- The table at the end of a plan is done last. -/
theorem allDone_of_finished {w : WorkBuffer} {answer : String} (hp : p.WellFormed qid)
    (hf : Follows p es) (hrun : run (queryStep sort qid) {} es = some s)
    (hfeeds : p.Feeds answer) (hfinished : FinishedWork s.dataBuffer qid answer w) :
    AllDone p es s := by
  have hinv := (reached_of_run hp hf hrun).inv
  refine allDone_of_works hp hf hrun fun q hq => ?_
  obtain ⟨w', v', hv', hw', hdone'⟩ := hinv.finished_of_needs hp (hfeeds q hq) ⟨w, hfinished⟩
  obtain rfl : v' = q.1 := congrArg Prod.fst (hp.eq_of_name (hinv.named _ v' hv') hq rfl)
  exact ⟨w', hw', hdone'⟩

/-- At the end of a query its counters are the totals over all results. -/
theorem AllDone.counters (hp : p.WellFormed qid) (hf : Follows p es)
    (hrun : run (queryStep sort qid) {} es = some s) (hall : AllDone p es s) :
    counters s.dataBuffer qid =
      (toInt32 (totals (p.scans.flatMap (·.results))).1,
        toInt32 (totals (p.scans.flatMap (·.results))).2) := by
  have htotal : (mergedResults es).Perm (p.scans.flatMap (·.results)) :=
    (mergedResults_perm hp hf).trans (List.Perm.flatMap_left _ hall.merged)
  rw [counters_of_run hp hf hrun, foldl_count_zero, totals_perm htotal]

/-- The answer of a query whose works all feed one table. -/
theorem answered_of_run {request : Request} {v : Int} {answer : String} (hp : p.WellFormed qid)
    (hf : Follows p es) (hrun : run (queryStep sort qid) {} es = some s)
    (hanswer : (v, answer) ∈ p.works) (hfeeds : p.Feeds answer)
    (hasked : request.workId = v ∨ request.workId = -1 ∧ request.tableName = answer)
    (hstep : queryStep sort qid s (.getQueryResult request) = some s') :
    AllDone p es s ∧ ∃ w, s.work? v = some w ∧ FinishedWork s.dataBuffer qid answer w ∧
      s'.results = s.results ++ [queryResultOf { w.table with
        scannedRowCount := toInt32 (totals (p.scans.flatMap (·.results))).1
        filteredRowCount := toInt32 (totals (p.scans.flatMap (·.results))).2 }] ∧
      bufferOf s'.dataBuffer qid = none := by
  obtain ⟨w, hw, hfinished, hresults, hfreed⟩ := answered_table hp hf hrun hanswer hasked hstep
  have hall := allDone_of_finished hp hf hrun hfeeds hfinished
  rw [hall.counters hp hf hrun] at hresults
  exact ⟨hall, w, hw, hfinished, hresults, hfreed⟩

theorem firstTwoPlan_feeds : firstTwoPlan.Feeds "top" := by
  intro q hq
  have hcases : q = (0, "t") ∨ q = (2, "top") := by
    simpa [firstTwoPlan, QueryPlan.works, twoResultScan, firstTwo] using hq
  rcases hcases with rfl | rfl
  · exact .single ⟨firstTwo, List.mem_singleton_self _, rfl, 0, .inl rfl, rfl⟩
  · exact .refl

end KetiEngine.Merging
