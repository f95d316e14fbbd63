import KetiEngine.Merging.QueryWaits
import KetiEngine.Merging.ScanQuery

/-!
# PlannedQuery — from the results of a query to its answer, waits included

The threads of a planned query sleep and are woken as `queryThreads` says. As
long as no wait of `getFinishedTableData` ends without a notification, every
run of them is one of the steps of the query, so what those compute is what
the query computes, and a thread that could take a step does not sleep for
ever.
-/

namespace KetiEngine.Merging

open KetiEngine Runs DataBuffer Waits

/-- The threads of a query, those that sleep included. -/
abbrev WaitState (qid : Int) := Waits.State (QueryState qid) QueryEvent Waiter

abbrev WaitEvent := Waits.Event QueryEvent Waiter

variable {qid wid : Int} {sort : SortFunction} {p : QueryPlan} {s s' t : WaitState qid}
  {es : List WaitEvent} {e : WaitEvent} {request : Request} {c : Scan} {m : QuerySnippet}
  {columns : List (String × String)}

/-- A run of the threads of a planned query in which no wait of
`getFinishedTableData` ends without a notification. -/
structure PlannedRun (sort : SortFunction) (p : QueryPlan) (es : List WaitEvent)
    (s : WaitState qid) : Prop where
  run : Runs.run (queryThreads sort qid).waitStep { shared := {} } es = some s
  patient : Along (queryThreads sort qid).waitStep (queryThreads sort qid).Patient
    { shared := {} } es
  follows : Follows p s.history

theorem PlannedRun.kept (hp : p.WellFormed qid) (h : PlannedRun sort p es s) :
    (queryThreads sort qid).Kept {} s :=
  Threads.kept_of_run (queryThreads_faithful sort hp) h.run h.patient h.follows

/-- **A query computes its plan.** In every run of the receivers, the merge
threads, the snippet threads and the calls of a planned query: a table that is
done stays as it is; a scanned table that is done has the rows of all of its
results; and the table of a snippet that is done is what the snippet computes
from tables that are done, where one that it read while it grew was delivered
in growing parts up to the whole table. -/
theorem plan_solved (hp : p.WellFormed qid) (h : PlannedRun sort p es s) :
    Solved sort p s.shared ∧
    ∀ (es₁ es₂ : List WaitEvent) (s₁ : WaitState qid), es = es₁ ++ es₂ →
      run (queryThreads sort qid).waitStep { shared := {} } es₁ = some s₁ →
      ∀ v w, s₁.shared.work? v = some w → w.status = .workDone →
        ∃ w', s.shared.work? v = some w' ∧ w'.table = w.table := by
  have hsteps := (h.kept hp).steps
  refine ⟨solved_of_run hp h.follows hsteps, ?_⟩
  rintro es₁ es₂ s₁ rfl hrun₁ v w hw hdone
  have hrun₂ := h.run
  rw [run_append, hrun₁, Option.bind_some] at hrun₂
  obtain ⟨ws, hws⟩ := Threads.history_of_run hrun₂
  have hf := h.follows
  rw [hws] at hf hsteps
  have h₁ : PlannedRun sort p es₁ s₁ := ⟨hrun₁, h.patient.of_append, hf.of_append⟩
  have hsteps₁ := (h₁.kept hp).steps
  rw [run_append, hsteps₁, Option.bind_some] at hsteps
  obtain ⟨-, hlater⟩ := (reached_of_run hp hf.of_append hsteps₁).run hp hf hsteps
  exact hlater.done hw hdone

/-- The call for the table of the snippet. -/
def topRequest : Request := ⟨1, 2, "top"⟩

/-- The results arrive and the snippet is started. Its thread comes to its wait
and so does a call, and between the results the merge thread does. -/
def arrivals (m : QuerySnippet) : List WaitEvent :=
  [.act (.aggregation m), .act (.snippet 0), .act (.scan 0 (.push oneRowResult)),
    .sleep (.snippet 0), .act (.enter topRequest), .sleep (.call topRequest),
    .act (.scan 0 (.pop 0 oneRowResult)), .act (.scan 0 (.merge 0 oneRowResult)),
    .sleep (.merge 0 0), .act (.scan 0 (.push twoRowResult))]

/-- Each thread is woken in its turn. -/
def wakings : List WaitEvent :=
  [.wake (.merge 0 0), .act (.scan 0 (.merge 0 twoRowResult)), .wake (.snippet 0),
    .act (.snippet 0), .act (.snippet 0)]

def arrivalSteps (m : QuerySnippet) : List QueryEvent :=
  [.aggregation m, .snippet 0, .scan 0 (.push oneRowResult), .enter topRequest,
    .scan 0 (.pop 0 oneRowResult), .scan 0 (.merge 0 oneRowResult), .scan 0 (.push twoRowResult)]

theorem arrivalSteps_supplied (m : QuerySnippet) (hm : (m.workId, m.tableAlias) = (2, "top")) :
    Supplied (scanPlan twoResultScan m) (arrivalSteps m) := by
  constructor
  case follows =>
    constructor
    case scans =>
      intro wid e he
      have hwid : wid = 0 := by
        simp only [arrivalSteps, List.mem_cons, QueryEvent.scan.injEq, reduceCtorEq, false_or,
          List.not_mem_nil, or_false] at he
        omega
      exact ⟨twoResultScan, List.mem_singleton_self _, hwid.symm⟩
    case pushes =>
      intro c hc
      obtain rfl := List.mem_singleton.mp hc
      exact .refl _
    case snippets => exact .refl _
    case asked =>
      intro request he
      obtain rfl : request = topRequest := by simpa [arrivalSteps] using he
      exact .inr (hm ▸ QueryPlan.WellFormed.snippet_mem (List.mem_singleton_self m))
    case unanswered =>
      intro request he
      simp [arrivalSteps] at he
  case pushed =>
    intro c hc
    obtain rfl := List.mem_singleton.mp hc
    exact .refl _
  case spawned => exact .refl _

theorem firstTwo_run :
    ∃ s s' : WaitState 1, PlannedRun mergeSortRows firstTwoPlan (arrivals firstTwo ++ wakings) s ∧
      s.asleep (.call topRequest) = some true ∧
      (queryThreads mergeSortRows 1).waitStep s (.wake (.call topRequest)) = some s' := by
  have hanswered : ((run (queryThreads mergeSortRows 1).waitStep { shared := {} }
      (arrivals firstTwo ++ wakings)).bind fun s =>
        if s.asleep (.call topRequest) = some true then
          (queryThreads mergeSortRows 1).waitStep s (.wake (.call topRequest))
        else none).isSome := by decide
  obtain ⟨s', hs'⟩ := Option.isSome_iff_exists.mp hanswered
  obtain ⟨s, hs, hwake⟩ := Option.bind_eq_some_iff.mp hs'
  obtain ⟨hnotified, hwake⟩ := Option.ite_none_right_eq_some.mp hwake
  have hhistory : ((run (queryThreads mergeSortRows 1).waitStep { shared := {} }
      (arrivals firstTwo ++ wakings)).map (·.history)) = some (arrivalSteps firstTwo ++
        [.scan 0 (.pop 0 twoRowResult)] ++ [.scan 0 (.merge 0 twoRowResult)] ++ [.snippet 0] ++
        [.snippet 0] ++ [.snippet 0]) := rfl
  rw [hs, Option.map_some, Option.some.injEq] at hhistory
  have hscan : ∃ c ∈ firstTwoPlan.scans, c.workId = 0 :=
    ⟨twoResultScan, List.mem_singleton_self _, rfl⟩
  have hpop : Internal firstTwoPlan (.scan 0 (.pop 0 twoRowResult)) := hscan
  have hmerge : Internal firstTwoPlan (.scan 0 (.merge 0 twoRowResult)) := hscan
  have hsnippet : Internal firstTwoPlan (.snippet 0) := trivial
  have hsupplied := (((((arrivalSteps_supplied firstTwo rfl).concat hpop).concat
    hmerge).concat hsnippet).concat hsnippet).concat hsnippet
  refine ⟨s, s', ⟨hs, by decide, ?_⟩, hnotified, hwake⟩
  rw [hhistory]
  exact hsupplied.follows

theorem plan_solved_firstTwo :
    ∃ s : WaitState 1, PlannedRun mergeSortRows firstTwoPlan (arrivals firstTwo ++ wakings) s ∧
      Solved mergeSortRows firstTwoPlan s.shared ∧
      ∀ (es₁ es₂ : List WaitEvent) (s₁ : WaitState 1), arrivals firstTwo ++ wakings = es₁ ++ es₂ →
        run (queryThreads mergeSortRows 1).waitStep { shared := {} } es₁ = some s₁ →
        ∀ v w, s₁.shared.work? v = some w → w.status = .workDone →
          ∃ w', s.shared.work? v = some w' ∧ w'.table = w.table := by
  obtain ⟨s, -, hrun, -⟩ := firstTwo_run
  exact ⟨s, hrun, plan_solved firstTwoPlan_wellFormed hrun⟩

/-- A wait of `getFinishedTableData` that ends by itself: the snippet is
computed from one of the two results. -/
example :
    ((run (queryThreads mergeSortRows 1).waitStep { shared := {} } ((arrivals firstTwo).take 9 ++
      [.wake (.snippet 0), .act (.snippet 0), .act (.snippet 0)])).bind fun s =>
        (s.shared.work? 2).map fun w => (w.status, w.rowCount)) = some (.workDone, 1) := by
  decide

/-! ## The answer -/

/-- A call of `GetQueryResult` returns, without a wait or when it has been
notified. -/
def Returns (s : WaitState qid) (request : Request) (e : WaitEvent) : Prop :=
  e = .act (.getQueryResult request) ∨
    e = .wake (.call request) ∧ s.asleep (.call request) = some true

/-- A call that returns takes its step. -/
theorem queryStep_of_returns (hp : p.WellFormed qid) (h : (queryThreads sort qid).Kept {} s)
    (hf : Follows p s.history) (hreturns : Returns s request e)
    (hstep : (queryThreads sort qid).waitStep s e = some s') :
    queryStep sort qid s.shared (.getQueryResult request) = some s'.shared := by
  rcases hreturns with rfl | ⟨rfl, hnotified⟩
  · obtain ⟨-, hstep⟩ := Option.ite_none_right_eq_some.mp hstep
    obtain ⟨shared, hshared, rfl⟩ := Option.map_eq_some_iff.mp hstep
    exact hshared
  · have hpatient : (queryThreads sort qid).Patient s (.wake (.call request)) := by
      rintro c hc hasleep
      cases hc
      cases hnotified.symm.trans hasleep
    rcases Threads.waitStep_cases hstep with ⟨w, shared, hact, -⟩ |
      ⟨c, ⟨hsleep, -⟩ | ⟨hwake, -, hloops⟩, -⟩ | ⟨c, w, shared, hwake, hasleep, hgo, hresume, rfl⟩
    · cases hact
    · cases hsleep
    · cases hwake
      cases hloops
    · cases hwake
      have htest := h.test_of_wake hpatient hasleep hgo
      have hfaithful := queryThreads_faithful sort hp
      obtain ⟨hwait, hshared⟩ := (hfaithful.resumes (h.reaches hf) htest).mp hresume
      obtain rfl := QueryEvent.wait_call hwait
      exact hshared

/-- The threads of a work change with its own steps only. -/
theorem merging_of_queryStep {s s' : QueryState qid} {e : QueryEvent}
    (hother : ∀ v e', e = .scan v e' → v ≠ wid) (hstep : queryStep sort qid s e = some s') :
    s'.merging wid = s.merging wid := by
  cases e with
  | scan v e' =>
    obtain ⟨a, -, hstep⟩ := Option.bind_eq_some_iff.mp hstep
    cases hstep
    exact Function.update_of_ne (hother v e' rfl).symm _ _
  | aggregation m =>
    obtain ⟨own, rfl⟩ := queryStep_aggregation hstep
    rfl
  | snippet k =>
    obtain ⟨-, -, -, -, hmerging, -⟩ := queryStep_snippet hstep
    exact congrFun hmerging wid
  | enter request =>
    rw [queryStep_enter hstep]
  | getQueryResult request =>
    obtain ⟨-, hstep⟩ := Option.ite_none_right_eq_some.mp hstep
    obtain ⟨⟨result, db⟩, -, hstep⟩ := Option.bind_eq_some_iff.mp hstep
    cases hstep
    rfl

/-- No merge thread is there for a work that is not scanned. -/
theorem merging_of_run {es : List QueryEvent} {s : QueryState qid} (hf : Follows p es)
    (hrun : run (queryStep sort qid) {} es = some s) (hwid : ∀ c ∈ p.scans, c.workId ≠ wid) :
    s.merging wid = [] := by
  have hothers : ∀ e ∈ es, ∀ v e', e = .scan v e' → v ≠ wid := by
    rintro e he v e' rfl rfl
    obtain ⟨c, hc, hid⟩ := hf.scans _ e' he
    exact hwid c hc hid
  have hkeeps : ∀ (s : QueryState qid) e s', (∀ v e', e = .scan v e' → v ≠ wid) →
      s.merging wid = [] → queryStep sort qid s e = some s' → s'.merging wid = [] :=
    fun s e s' hother hs hstep => (merging_of_queryStep hother hstep).trans hs
  exact run_invariant hkeeps hothers rfl hrun

/-- When the query is over, only calls can still be asleep. -/
theorem asleep_of_allDone (h : (queryThreads sort qid).Kept {} s) (hf : Follows p s.history)
    (hall : AllDone p s.history s.shared) {c : Waiter} (hasleep : s.asleep c ≠ none) :
    ∃ request, c = .call request := by
  obtain ⟨notified, hnotified⟩ := Option.ne_none_iff_exists'.mp hasleep
  obtain ⟨b, htest, -⟩ := h.sleepers c notified hnotified
  cases c with
  | merge wid k =>
    have hthread : (s.shared.merging wid)[k]? = some .waiting := by
      by_contra hnot
      simp [queryThreads, hnot] at htest
    by_cases hscan : ∃ c ∈ p.scans, c.workId = wid
    · obtain ⟨c, hc, rfl⟩ := hscan
      rw [hall.merging c hc] at hthread
      cases List.mem_singleton.mp (List.mem_of_getElem? hthread)
    · push Not at hscan
      rw [merging_of_run hf h.steps hscan] at hthread
      cases hthread
  | snippet k =>
    obtain ⟨t, hk, htest⟩ := Option.bind_eq_some_iff.mp htest
    have hsaved := hall.saved t (List.mem_of_getElem? hk)
    obtain ⟨-, -, -, -, -, -, ⟨-, hphase, -⟩ | ⟨-, finished, rowIndex, delivered, hphase, -⟩⟩ :=
      SnippetThread.test_cases htest
    · cases hsaved.symm.trans hphase
    · cases hsaved.symm.trans hphase
  | call request => exact ⟨request, rfl⟩

/-- **The answer of a query.** When a planned query whose works all feed one
table is answered with that table, every work is done, every result of every
CSD is merged, no thread is at work and only calls can still be asleep;
the answer is the table, and its counters are the totals over all results. -/
theorem query_answered {v : Int} {answer : String} (hp : p.WellFormed qid)
    (h : PlannedRun sort p es s) (hanswer : (v, answer) ∈ p.works) (hfeeds : p.Feeds answer)
    (hasked : request.workId = v ∨ request.workId = -1 ∧ request.tableName = answer)
    (hreturns : Returns s request e) (hstep : (queryThreads sort qid).waitStep s e = some s') :
    AllDone p s.history s.shared ∧ (∀ c, s.asleep c ≠ none → ∃ request, c = .call request) ∧
    ∃ w, s.shared.work? v = some w ∧
      s'.shared.results = s.shared.results ++ [queryResultOf { w.table with
        scannedRowCount := toInt32 (totals (p.scans.flatMap (·.results))).1
        filteredRowCount := toInt32 (totals (p.scans.flatMap (·.results))).2 }] ∧
      bufferOf s'.shared.dataBuffer qid = none := by
  have hkept := h.kept hp
  have hanswers := queryStep_of_returns hp hkept h.follows hreturns hstep
  obtain ⟨hall, w, hw, -, hresults, hfreed⟩ :=
    answered_of_run hp h.follows hkept.steps hanswer hfeeds hasked hanswers
  have hasleep : ∀ c, s.asleep c ≠ none → ∃ request, c = .call request :=
    fun c hc => asleep_of_allDone hkept h.follows hall hc
  exact ⟨hall, hasleep, w, hw, hresults, hfreed⟩

theorem query_answered_firstTwo :
    ∃ s s' : WaitState 1, PlannedRun mergeSortRows firstTwoPlan (arrivals firstTwo ++ wakings) s ∧
      (queryThreads mergeSortRows 1).waitStep s (.wake (.call topRequest)) = some s' ∧
      AllDone firstTwoPlan s.history s.shared ∧
      (∀ c, s.asleep c ≠ none → ∃ request, c = .call request) ∧
      ∃ w, s.shared.work? 2 = some w ∧
        s'.shared.results = s.shared.results ++ [queryResultOf { w.table with
          scannedRowCount := toInt32 (totals (firstTwoPlan.scans.flatMap (·.results))).1
          filteredRowCount := toInt32 (totals (firstTwoPlan.scans.flatMap (·.results))).2 }] ∧
        bufferOf s'.shared.dataBuffer 1 = none := by
  obtain ⟨s, s', hrun, hnotified, hwake⟩ := firstTwo_run
  have hanswer : ((2, "top") : Int × String) ∈ firstTwoPlan.works := by decide
  exact ⟨s, s', hrun, hwake, query_answered firstTwoPlan_wellFormed hrun hanswer firstTwoPlan_feeds
    (.inl rfl) (.inr ⟨rfl, hnotified⟩) hwake⟩

/-! ## The end of a query -/

/-- The waits of the merge threads and the snippet threads. -/
def QueryPlan.waiters (p : QueryPlan) : List Waiter :=
  p.scans.map (fun c => .merge c.workId 0) ++ (List.range p.snippets.length).map .snippet

/-- A merge thread or a snippet thread goes on: it takes a step, lies down, or
gets up when it has been notified. -/
def GoesOn (p : QueryPlan) (s : WaitState qid) : WaitEvent → Prop
  | .act w => Internal p w
  | .sleep c => c ∈ p.waiters
  | .wake c => c ∈ p.waiters ∧ s.asleep c = some true

theorem GoesOn.notified (h : GoesOn p s e) : Threads.Notified s e := by
  rintro c rfl hasleep
  cases h.2.symm.trans hasleep

theorem internal_of_waiter {w : QueryEvent} {v : Waiter} (hv : v ∈ p.waiters)
    (hw : w.wait = some v) : Internal p w := by
  rcases List.mem_append.mp hv with hscan | hsnippet
  · obtain ⟨c, hc, rfl⟩ := List.mem_map.mp hscan
    obtain ⟨r, rfl⟩ := QueryEvent.wait_merge hw
    exact ⟨c, hc, rfl⟩
  · obtain ⟨k, -, rfl⟩ := List.mem_map.mp hsnippet
    obtain rfl := QueryEvent.wait_snippet hw
    trivial

/-- A work has one merge thread. -/
theorem QueryInv.merging_length {s : QueryState qid} (h : QueryInv sort p s) (hc : c ∈ p.scans) :
    (s.merging c.workId).length ≤ 1 := by
  rcases h.scans c hc with ⟨hnew, -⟩ | ⟨hfill, -⟩
  · have hthreads : s.merging c.workId = [] := hnew.threads
    simp [hthreads]
  · rcases hfill.thread with ⟨hthreads, -⟩ | ⟨r, -, hthreads, -⟩ | ⟨hthreads, -⟩ <;>
      exact Nat.le_of_eq (congrArg List.length hthreads)

/-- Each wait of a step that the threads take is one of theirs. -/
theorem waiter_of_internal {es : List QueryEvent} {s s' : QueryState qid} {w : QueryEvent}
    {c : Waiter} (hp : p.WellFormed qid) (hsupplied : Supplied p es)
    (hrun : run (queryStep sort qid) {} es = some s) (hinternal : Internal p w)
    (hstep : queryStep sort qid s w = some s') (hw : w.wait = some c) : c ∈ p.waiters := by
  have hreached := reached_of_run hp hsupplied.follows hrun
  cases c with
  | merge wid k =>
    obtain ⟨r, rfl⟩ := QueryEvent.wait_merge hw
    obtain ⟨c, hc, rfl⟩ := hinternal
    obtain ⟨hscan, -⟩ := queryStep_scan (hp.ordinary_scan hc) hstep
    obtain ⟨hthread, -⟩ := step_pop hscan
    have hlt : k < (s.merging c.workId).length := (List.getElem?_eq_some_iff.mp hthread).1
    have hone := hreached.inv.merging_length hc
    obtain rfl : k = 0 := by omega
    exact List.mem_append_left _ (List.mem_map_of_mem hc)
  | snippet k =>
    obtain rfl := QueryEvent.wait_snippet hw
    obtain ⟨t, -, hk, -⟩ := queryStep_snippet hstep
    have hcount : s.snippets.length = p.snippets.length := by
      rw [← List.length_map (·.snippet), hreached.snippets, hsupplied.spawned.length_eq]
    refine List.mem_append_right _ (List.mem_map_of_mem (List.mem_range.mpr ?_))
    rw [← hcount]
    exact (List.getElem?_eq_some_iff.mp hk).1
  | call request =>
    obtain rfl := QueryEvent.wait_call hw
    exact hinternal.elim

/-- What holds while the threads of a query come to its end. -/
structure Ending (sort : SortFunction) (p : QueryPlan) (s : WaitState qid) : Prop where
  kept : (queryThreads sort qid).Kept {} s
  supplied : Supplied p s.history

/-- The steps that are left for the threads of a query, waits included. -/
def waitsLeft (p : QueryPlan) : WaitState qid → Nat :=
  Threads.left (stepsLeft p) p.waiters

/-- **One step** of the threads leaves fewer steps. -/
theorem Ending.step (hp : p.WellFormed qid) (e : WaitEvent) (s' : WaitState qid)
    (hgoes : GoesOn p s e) (h : Ending sort p s)
    (hstep : (queryThreads sort qid).waitStep s e = some s') :
    Ending sort p s' ∧ waitsLeft p s' < waitsLeft p s := by
  have hfaithful := queryThreads_faithful sort hp
  have hpatient : (queryThreads sort qid).Patient s e := hgoes.notified.patient
  have hmoves := h.kept.shared_step hfaithful h.supplied.follows hpatient hstep
  -- a step of a thread that goes on is one of those that are left
  have hinternal : ∀ w, e = .act w ∨ (∃ c, e = .wake c ∧ w.wait = some c) → Internal p w := by
    rintro w (rfl | ⟨c, rfl, hw⟩)
    · exact hgoes
    · exact internal_of_waiter hgoes.1 hw
  have hsupplied : Supplied p s'.history := by
    rcases hmoves with ⟨-, hsame⟩ | ⟨w, hw, -, hone⟩
    · rw [hsame]
      exact h.supplied
    · rw [hone]
      exact h.supplied.concat (hinternal w hw)
  refine ⟨⟨h.kept.step hfaithful hpatient hstep hsupplied.follows, hsupplied⟩, ?_⟩
  refine Threads.left_lt hstep hgoes.notified (fun c hc => ?_) fun w hw => ?_
  · rcases hc with rfl | rfl
    · exact hgoes
    · exact hgoes.1
  · rcases hmoves with ⟨-, hsame⟩ | ⟨w', hw', hshared, hone⟩
    · simp [hsame] at hw
    · have hf := hsupplied.follows
      rw [hone] at hf
      exact stepsLeft_lt hp hf h.kept.steps (hinternal w' hw') hshared

/-- **No thread sleeps for ever**: where none of them can go on, all the work
is done. -/
theorem Ending.allDone_of_stuck (hp : p.WellFormed qid) (hx : p.Executable sort qid)
    (h : Ending sort p s)
    (hstuck : ∀ e s', GoesOn p s e → (queryThreads sort qid).waitStep s e ≠ some s') :
    AllDone p s.history s.shared := by
  have hf := h.supplied.follows
  refine allDone_of_works hp hf h.kept.steps fun q hq => ?_
  by_contra hnot
  obtain ⟨w, shared, hinternal, hstep⟩ := exists_step hp hx h.supplied h.kept.steps hq hnot
  rcases h.kept.exists_waitStep (queryThreads_faithful sort hp) hf hstep with
    hact | ⟨c, hw, hnotified, hwake⟩
  · exact hstuck (.act w) _ hinternal hact
  · have hc := waiter_of_internal hp h.supplied h.kept.steps hinternal hstep hw
    exact hstuck (.wake c) _ ⟨hc, hnotified⟩ hwake

/-- A query whose work is done can be answered with each of its tables. -/
theorem Ending.exists_returns (hp : p.WellFormed qid) (h : Ending sort p s)
    (hall : AllDone p s.history s.shared) {q : Int × String} (hq : q ∈ p.works) :
    ∃ e s', Returns s ⟨qid, q.1, q.2⟩ e ∧ (queryThreads sort qid).waitStep s e = some s' := by
  obtain ⟨shared, hanswer⟩ := answer_enabled sort hp hq (hall.works q hq)
  have hstep : (queryThreads sort qid).step s.shared (.getQueryResult ⟨qid, q.1, q.2⟩) =
      some shared := hanswer
  rcases h.kept.exists_waitStep (queryThreads_faithful sort hp) h.supplied.follows hstep with
    hact | ⟨c, hw, hnotified, hwake⟩
  · exact ⟨_, _, .inl rfl, hact⟩
  · cases hw
    exact ⟨_, _, .inr ⟨rfl, hnotified⟩, hwake⟩

/-- **Every query comes to its end.** Once the results of an executable plan
have arrived and its snippets have been started, the merge threads and the
snippet threads take a bounded number of steps, in whatever order, with those
of lying down and getting up again; where none of them can go on, all the work
is done, and a call of `GetQueryResult` for each of the tables returns; and
such an end is reached. -/
theorem query_completes (hp : p.WellFormed qid) (hx : p.Executable sort qid)
    (h : PlannedRun sort p es s) (hsupplied : Supplied p s.history) :
    (∀ es' t, Along (queryThreads sort qid).waitStep (GoesOn p) s es' →
      run (queryThreads sort qid).waitStep s es' = some t →
      es'.length + waitsLeft p t ≤ waitsLeft p s ∧
      ((∀ e t', GoesOn p t e → (queryThreads sort qid).waitStep t e ≠ some t') →
        AllDone p t.history t.shared ∧ ∀ q ∈ p.works,
          ∃ e t', Returns t ⟨qid, q.1, q.2⟩ e ∧
            (queryThreads sort qid).waitStep t e = some t')) ∧
    ∃ es' t, Along (queryThreads sort qid).waitStep (GoesOn p) s es' ∧
      run (queryThreads sort qid).waitStep s es' = some t ∧ AllDone p t.history t.shared := by
  have hending : Ending sort p s := ⟨h.kept hp, hsupplied⟩
  have hone : ∀ s e s', GoesOn p s e → Ending sort p s →
      (queryThreads sort qid).waitStep s e = some s' →
      Ending sort p s' ∧ waitsLeft p s' < waitsLeft p s :=
    fun s e s' hgoes h => h.step hp e s' hgoes
  constructor
  · intro es' t halong hrun
    obtain ⟨ht, hle⟩ := run_length_le hone halong hending hrun
    refine ⟨hle, fun hstuck => ?_⟩
    have hall := ht.allDone_of_stuck hp hx hstuck
    exact ⟨hall, fun q hq => ht.exists_returns hp hall hq⟩
  · have hprogress : ∀ s, Ending sort p s → ¬ AllDone p s.history s.shared →
        ∃ e s', GoesOn p s e ∧ (queryThreads sort qid).waitStep s e = some s' := by
      intro s hs hnot
      by_contra hnone
      push Not at hnone
      exact hnot (hs.allDone_of_stuck hp hx hnone)
    obtain ⟨es', t, halong, hrun, -, hall⟩ := exists_run_done hone hprogress hending
    exact ⟨es', t, halong, hrun, hall⟩

theorem largestTwo_run :
    ∃ s : WaitState 1,
      PlannedRun mergeSortRows (scanPlan twoResultScan largestTwo) (arrivals largestTwo) s ∧
        Supplied (scanPlan twoResultScan largestTwo) s.history := by
  have hrun : ((run (queryThreads mergeSortRows 1).waitStep { shared := {} }
      (arrivals largestTwo)).map (·.history)) = some (arrivalSteps largestTwo) := rfl
  obtain ⟨s, hs, hhistory⟩ := Option.map_eq_some_iff.mp hrun
  have hsupplied := arrivalSteps_supplied largestTwo rfl
  rw [← hhistory] at hsupplied
  exact ⟨s, ⟨hs, by decide, hsupplied.follows⟩, hsupplied⟩

theorem query_completes_largestTwo :
    ∃ s : WaitState 1,
      PlannedRun mergeSortRows (scanPlan twoResultScan largestTwo) (arrivals largestTwo) s ∧
      (∀ es' t, Along (queryThreads mergeSortRows 1).waitStep
          (GoesOn (scanPlan twoResultScan largestTwo)) s es' →
        run (queryThreads mergeSortRows 1).waitStep s es' = some t →
        es'.length + waitsLeft (scanPlan twoResultScan largestTwo) t ≤
            waitsLeft (scanPlan twoResultScan largestTwo) s ∧
        ((∀ e t', GoesOn (scanPlan twoResultScan largestTwo) t e →
            (queryThreads mergeSortRows 1).waitStep t e ≠ some t') →
          AllDone (scanPlan twoResultScan largestTwo) t.history t.shared ∧
          ∀ q ∈ (scanPlan twoResultScan largestTwo).works,
            ∃ e t', Returns t ⟨1, q.1, q.2⟩ e ∧
              (queryThreads mergeSortRows 1).waitStep t e = some t')) ∧
      ∃ es' t, Along (queryThreads mergeSortRows 1).waitStep
          (GoesOn (scanPlan twoResultScan largestTwo)) s es' ∧
        run (queryThreads mergeSortRows 1).waitStep s es' = some t ∧
        AllDone (scanPlan twoResultScan largestTwo) t.history t.shared := by
  obtain ⟨s, hrun, hsupplied⟩ := largestTwo_run
  have hx := scanPlan_executable sorts_mergeSortRows largestTwo_wellFormed largestTwo_shows rfl
  exact ⟨s, hrun, query_completes largestTwo_wellFormed hx hrun hsupplied⟩

/-! ## A query over one scan -/

end KetiEngine.Merging
