import KetiEngine.Merging.QueryAnswer

/-!
# QueryProgress — a planned query comes to its end

Once all results have arrived and all snippets have been started, every step
of a merge thread or a snippet thread leaves fewer steps, and as long as a
work is not done one of them can take a step: of the works that are not done,
one needs only works that are.
-/

namespace KetiEngine.Merging

open KetiEngine Runs DataBuffer

variable {qid wid : Int} {sort : SortFunction} {p : QueryPlan} {s s' : QueryState qid}
  {m : QuerySnippet} {c : Scan} {es : List QueryEvent} {e : QueryEvent}

/-! ## Steps of the threads that are there -/

/-- A step of a merge thread or of a snippet thread. -/
def Internal (p : QueryPlan) : QueryEvent → Prop
  | .scan wid (.pop _ _) | .scan wid (.merge _ _) => ∃ c ∈ p.scans, c.workId = wid
  | .snippet _ => True
  | .scan _ (.push _) | .aggregation _ | .enter _ | .getQueryResult _ => False

/-- All results have arrived, and all snippets have been started. -/
structure Supplied (p : QueryPlan) (es : List QueryEvent) : Prop where
  follows : Follows p es
  pushed : ∀ c ∈ p.scans, (pushes (scanEvents c.workId es)).Perm c.results
  spawned : (spawned es).Perm p.snippets

theorem pushes_internal (he : Internal p e) (wid : Int) : pushes (scanEvents wid [e]) = [] := by
  cases e with
  | scan v e =>
    by_cases hv : v = wid
    · subst hv
      cases e with
      | push r => exact he.elim
      | pop k r => simp [scanEvents, pushes, ScanEvent.toEvent]
      | merge k r => simp [scanEvents, pushes, ScanEvent.toEvent]
    · simp [scanEvents, pushes, hv]
  | aggregation m => exact he.elim
  | snippet k => rfl
  | enter request => exact he.elim
  | getQueryResult request => exact he.elim

theorem spawned_internal (he : Internal p e) : spawned [e] = [] := by
  cases e with
  | aggregation m => exact he.elim
  | scan wid e => rfl
  | snippet k => rfl
  | enter request => rfl
  | getQueryResult request => rfl

theorem Supplied.concat (h : Supplied p es) (he : Internal p e) : Supplied p (es ++ [e]) := by
  have hpushes : ∀ wid, pushes (scanEvents wid (es ++ [e])) = pushes (scanEvents wid es) := by
    intro wid
    rw [scanEvents_append, pushes, List.filterMap_append]
    show _ ++ pushes (scanEvents wid [e]) = _
    rw [pushes_internal he, List.append_nil]
    rfl
  have hspawned : Merging.spawned (es ++ [e]) = Merging.spawned es := by
    rw [Merging.spawned, List.filterMap_append]
    show _ ++ Merging.spawned [e] = _
    rw [spawned_internal he, List.append_nil]
    rfl
  constructor
  case follows =>
    constructor
    case scans =>
      intro wid e' hmem
      rcases List.mem_append.mp hmem with hold | hlast
      · exact h.follows.scans wid e' hold
      · obtain rfl := List.mem_singleton.mp hlast
        cases e' with
        | push r => exact he.elim
        | pop k r => exact he
        | merge k r => exact he
    case pushes =>
      intro c hc
      rw [hpushes]
      exact h.follows.pushes c hc
    case snippets =>
      rw [hspawned]
      exact h.follows.snippets
    case asked =>
      intro request hmem
      rcases List.mem_append.mp hmem with hold | hlast
      · exact h.follows.asked request hold
      · obtain rfl := List.mem_singleton.mp hlast
        exact he.elim
    case unanswered =>
      intro request hmem
      rcases List.mem_append.mp hmem with hold | hlast
      · exact h.follows.unanswered request hold
      · obtain rfl := List.mem_singleton.mp hlast
        exact he
  case pushed =>
    intro c hc
    rw [hpushes]
    exact h.pushed c hc
  case spawned =>
    rw [hspawned]
    exact h.spawned

/-! ## The steps that are left -/

/-- The steps left for the merge thread of a work. -/
def MergeThread.steps : MergeThread → Nat
  | .merging _ => 1
  | .waiting | .finished => 0

def QueryState.mergeSteps (s : QueryState qid) (wid : Int) : Nat :=
  2 * ((s.system wid).work qid wid).workBufferQueue.length +
    ((s.merging wid).map MergeThread.steps).sum

/-- The steps left for a snippet thread, when no table has more than `rows`
rows. -/
def Phase.steps (rows : Nat) : Phase → Nat
  | .started => rows + 4
  | .initialized => rows + 3
  | .reading _ rowIndex _ => (rows - rowIndex).toNat + 2
  | .loaded _ _ => 1
  | .saved => 0

/-- More rows than any table of a scan has. -/
def QueryPlan.rowBound (p : QueryPlan) : Nat :=
  ((p.scans.flatMap (·.results)).map (·.rowCount)).sum

def stepsLeft (p : QueryPlan) (s : QueryState qid) : Nat :=
  (p.scans.map fun c => s.mergeSteps c.workId).sum +
    (s.snippets.map fun t => t.phase.steps p.rowBound).sum

theorem sum_map_set {α : Type*} (f : α → Nat) {l : List α} {k : Nat} {a : α} (b : α)
    (h : l[k]? = some a) : ((l.set k b).map f).sum + f a = (l.map f).sum + f b := by
  induction l generalizing k with
  | nil => simp at h
  | cons x l ih =>
    cases k with
    | zero =>
      obtain rfl : x = a := by simpa using h
      simp only [List.set_cons_zero, List.map_cons, List.sum_cons]
      omega
    | succ k =>
      have hrest := ih (by simpa using h)
      simp only [List.set_cons_succ, List.map_cons, List.sum_cons]
      omega

/-- A step of a merge thread leaves fewer steps for it. -/
theorem mergeSteps_lt {e : ScanEvent} (hwid : wid ≠ -1) (hpush : ∀ r, e ≠ .push r)
    (h : queryStep sort qid s (.scan wid e) = some s') :
    s'.mergeSteps wid < s.mergeSteps wid := by
  obtain ⟨hstep, -, -⟩ := queryStep_scan hwid h
  unfold QueryState.mergeSteps
  cases e with
  | push r => exact absurd rfl (hpush r)
  | pop k r =>
    obtain ⟨hthread, rest, hqueue, hwork, hthreads, -, -⟩ := step_pop hstep
    have hthread : (s.merging wid)[k]? = some .waiting := hthread
    have hthreads : s'.merging wid = (s.merging wid).set k (.merging r) := hthreads
    have hsum := sum_map_set MergeThread.steps (.merging r) hthread
    rw [hwork, hqueue, hthreads]
    simp only [MergeThread.steps, List.length_cons] at hsum ⊢
    omega
  | merge k r =>
    obtain ⟨hthread, done, hmerge, hthreads, -, -⟩ := step_merge hstep
    have hthread : (s.merging wid)[k]? = some (.merging r) := hthread
    have hthreads : s'.merging wid =
        (s.merging wid).set k (if done then .finished else .waiting) := hthreads
    have hsum := sum_map_set MergeThread.steps (if done then .finished else .waiting) hthread
    have hqueue := WorkBuffer.merge_queue hmerge
    have hnone : (if done then MergeThread.finished else .waiting).steps = 0 := by
      cases done <;> rfl
    rw [hqueue, hthreads]
    rw [hnone] at hsum
    simp only [MergeThread.steps] at hsum
    omega

theorem sum_rowCount (rs : List BlockResult) :
    (rs.map fun r => (r.rowCount : Int)).sum = ((rs.map (·.rowCount)).sum : Nat) := by
  induction rs with
  | nil => rfl
  | cons r rs ih => simp only [List.map_cons, List.sum_cons, ih, Nat.cast_add]

/-- No table of a scan has more rows than its results. -/
theorem rowCount_le (hp : p.WellFormed qid) (hf : Follows p es)
    (hrun : run (queryStep sort qid) {} es = some s) (hc : c ∈ p.scans) :
    (s.table c.workId).rowCount ≤ p.rowBound := by
  obtain ⟨a, hingested, hwork, -⟩ := scan_ingested hp hc hf hrun
  have hsame : s.table c.workId = (a.work qid c.workId).table := by
    have hsystem : DataBuffer.work? (s.system c.workId).dataBuffer qid c.workId =
        work? a.dataBuffer qid c.workId := hwork.symm
    unfold QueryState.table System.work
    rw [hsystem]
  have hcount : (s.table c.workId).rowCount =
      ((merges (scanEvents c.workId es)).map fun r => (r.rowCount : Int)).sum := by
    rw [hsame]
    exact hingested.rowCount
  obtain ⟨l, hperm, hsub⟩ :=
    hingested.inOrder.sublist.subperm.trans (hf.pushes c hc)
  have hresults : c.results.Sublist (p.scans.flatMap (·.results)) := by
    rw [List.flatMap_def]
    exact List.sublist_flatten_of_mem (List.mem_map_of_mem hc)
  have hle : ((merges (scanEvents c.workId es)).map (·.rowCount)).sum ≤ p.rowBound := by
    rw [← (hperm.map _).sum_eq]
    exact ((hsub.trans hresults).map _).sum_le_sum fun _ _ => Nat.zero_le _
  rw [hcount]
  rw [sum_rowCount]
  exact_mod_cast hle

/-- A step of a snippet thread leaves fewer steps for it. -/
theorem phase_steps_lt {db' : DataBuffer} {phase : Phase} {rows : Nat}
    (hinv : QueryInv sort p s) (hrows : ∀ c ∈ p.scans, (s.table c.workId).rowCount ≤ rows)
    {t : SnippetThread qid} (ht : t ∈ s.snippets)
    (h : t.next sort s.dataBuffer = some (db', phase)) :
    phase.steps rows < t.phase.steps rows := by
  obtain ⟨-, hphase⟩ := hinv.threads t ht
  unfold SnippetThread.next at h
  cases hp : t.phase with
  | started =>
    rw [hp] at h
    cases h
    simp [Phase.steps]
  | initialized =>
    rw [hp] at h
    obtain ⟨-, finished, rfl, -⟩ := fetch_spec h
    simp [Phase.steps]
  | reading finished rowIndex delivered =>
    rw [hp] at h hphase
    obtain ⟨-, -, hread⟩ := hphase
    rcases hinv.read t.own hread h with ⟨delivered', rfl, -⟩ | ⟨next, delivered', rfl, hlt, hread'⟩
    · simp [Phase.steps]
    · have hlower : 0 ≤ rowIndex := by
        rcases hread with ⟨rfl, -⟩ | ⟨_, _, _, -, -, -, -, -, hgrowing⟩
        · exact Int.le_refl 0
        · exact hgrowing.lower
      have hupper : next ≤ rows := by
        rcases hread' with ⟨hzero, -⟩ | ⟨_, _, c, -, -, hc, -, -, hgrowing⟩
        · omega
        · exact Int.le_trans hgrowing.upper (hrows c hc)
      simp only [Phase.steps]
      omega
  | loaded finished delivered =>
    rw [hp] at h
    obtain ⟨db, -, h⟩ := Option.bind_eq_some_iff.mp h
    cases h
    simp [Phase.steps]
  | saved =>
    rw [hp] at h
    cases h

/-- **Every step leaves fewer steps.** -/
theorem stepsLeft_lt (hp : p.WellFormed qid) (hf : Follows p (es ++ [e]))
    (hrun : run (queryStep sort qid) {} es = some s) (he : Internal p e)
    (hstep : queryStep sort qid s e = some s') : stepsLeft p s' < stepsLeft p s := by
  have hreached := reached_of_run hp hf.of_append hrun
  have hframe : ∀ c ∈ p.scans, scanEvents c.workId [e] = [] →
      s'.mergeSteps c.workId = s.mergeSteps c.workId := by
    intro c hc hother
    obtain ⟨hwork, hmerging⟩ := hreached.scan_frame hp hf hc hother hstep
    have hsystem : DataBuffer.work? (s'.system c.workId).dataBuffer qid c.workId =
        DataBuffer.work? (s.system c.workId).dataBuffer qid c.workId := hwork
    unfold QueryState.mergeSteps System.work
    rw [hsystem, hmerging]
  have hscan : ∀ wid e', e = .scan wid e' → (∃ c ∈ p.scans, c.workId = wid) ∧
      ∀ r, e' ≠ .push r := by
    rintro wid e' rfl
    cases e' with
    | push r => exact he.elim
    | pop k r => exact ⟨he, fun _ h => by cases h⟩
    | merge k r => exact ⟨he, fun _ h => by cases h⟩
  unfold stepsLeft
  cases e with
  | scan wid e =>
    obtain ⟨⟨c, hc, rfl⟩, hpush⟩ := hscan wid e rfl
    have hwid := hp.ordinary_scan hc
    obtain ⟨-, -, hsnippets⟩ := queryStep_scan hwid hstep
    have hlt := mergeSteps_lt hwid hpush hstep
    rw [hsnippets]
    refine Nat.add_lt_add_right (List.sum_lt_sum _ _ (fun c' hc' => ?_) ⟨c, hc, hlt⟩) _
    by_cases heq : c'.workId = c.workId
    · exact heq ▸ Nat.le_of_lt hlt
    · exact Nat.le_of_eq (hframe c' hc' (by simp [scanEvents, Ne.symm heq]))
  | aggregation m => exact he.elim
  | snippet k =>
    obtain ⟨t, phase, hk, hnext, -, hsnippets⟩ := queryStep_snippet hstep
    have hlt := phase_steps_lt hreached.inv (fun c hc => rowCount_le hp hf.of_append hrun hc)
      (List.mem_of_getElem? hk) hnext
    have hsum := sum_map_set (fun t : SnippetThread qid => t.phase.steps p.rowBound)
      { t with phase } hk
    have hsame : (p.scans.map fun c => s'.mergeSteps c.workId) =
        p.scans.map fun c => s.mergeSteps c.workId :=
      List.map_congr_left fun c hc => hframe c hc rfl
    rw [hsame, hsnippets]
    simp only at hsum
    omega
  | enter request => exact he.elim
  | getQueryResult request => exact he.elim

/-! ## A step that can be taken -/

/-- What a plan must be like to be executed: each scan has results, which can
be decoded; snippets name works of the plan, without a cycle; and what a
snippet computes from the tables it can get is defined. -/
structure QueryPlan.Executable (sort : SortFunction) (qid : Int) (p : QueryPlan) : Prop where
  results : ∀ c ∈ p.scans, c.results ≠ []
  decodes : ∀ c ∈ p.scans, ∀ r ∈ c.results, (decodeRows c.names.length r).isSome
  sources : ∀ m ∈ p.snippets, ∀ i, m.finishedTable? = some i ∨ m.growingTable? = some i →
    ∃ q ∈ p.works, m.tableName[i]? = some q.2
  acyclic : ∃ rank : String → Nat, ∀ name source, p.Needs name source → rank source < rank name
  defined : ∀ (es : List QueryEvent) (s : QueryState qid), Follows p es →
    run (queryStep sort qid) {} es = some s → ∀ m ∈ p.snippets, ∀ finished delivered,
      m.Fetched s.dataBuffer finished → m.Delivered s.dataBuffer delivered →
        (m.savedWork sort finished delivered).isSome

/-- The work is done. -/
def QueryState.Done (s : QueryState qid) (wid : Int) : Prop :=
  ∃ w, s.work? wid = some w ∧ w.status = .workDone

/-- The merge thread of a scan can go on until its work is done. -/
theorem scan_enabled (hp : p.WellFormed qid) (hx : p.Executable sort qid) (h : Supplied p es)
    (hrun : run (queryStep sort qid) {} es = some s) (hc : c ∈ p.scans)
    (hnot : ¬ s.Done c.workId) : ∃ e s', Internal p e ∧ queryStep sort qid s e = some s' := by
  have hwid := hp.ordinary_scan hc
  have hd := hp.delivery c hc
  obtain ⟨a, ha, hwork, hthreads⟩ := scan_run hp hc h.follows hrun
  have hpushed := h.pushed c hc
  obtain ⟨f, hf, htracks⟩ := tracks_of_run hd hwid ⟨rfl, rfl⟩ (fun r hr => hpushed.subset hr)
    (noSave_scanEvents c.workId es) ha
  -- a step of the work by itself is one of the query
  have hstep : ∀ (e : ScanEvent) (b : System), step qid c.workId a e.toEvent = some b →
      ∃ s', queryStep sort qid s (.scan c.workId e) = some s' := by
    intro e b hb
    obtain ⟨b', hb', -⟩ := scan_congr_work (a := s.system c.workId) hwid hwork.symm
      hthreads.symm hb
    simp only [queryStep, hb', Option.bind_eq_bind, Option.bind_some]
    exact ⟨_, rfl⟩
  by_cases hleft : f.worker.held ≠ [] ∨ f.worker = .waiting ∧ f.queue ≠ []
  · rcases thread_enabled htracks (hx.decodes c hc) hleft with ⟨r, b, -, hb⟩ | ⟨r, -, b, -, -, hb⟩
    · obtain ⟨s', hs'⟩ := hstep (.merge 0 r) b hb
      exact ⟨.scan c.workId (.merge 0 r), s', ⟨c, hc, rfl⟩, hs'⟩
    · obtain ⟨s', hs'⟩ := hstep (.pop 0 r) b hb
      exact ⟨.scan c.workId (.pop 0 r), s', ⟨c, hc, rfl⟩, hs'⟩
  · simp only [not_or, not_and, not_not] at hleft
    have hgone := Feed.gone_of_idle hd.blocks hd.sum (Feed.inv_of_run _ _ hf)
      (by rw [puts_feedActions]; exact hpushed) (hx.results c hc) hleft.1 hleft.2
    have hdone := htracks.done hgone
    cases hw : s.work? c.workId with
    | some w =>
      refine absurd ⟨w, hw, ?_⟩ hnot
      have hsame : a.work qid c.workId = w := by
        unfold System.work
        rw [hwork, hw, Option.getD_some]
      exact hsame ▸ hdone
    | none =>
      have hnew : a.work qid c.workId = {} := by
        unfold System.work
        rw [hwork, hw, Option.getD_none]
      rw [hnew] at hdone
      cases hdone

theorem runSnippetWork_isSome {db : DataBuffer} {finished : TableData}
    {delivered : List TableData} (hwork : db.work? m.queryId m.workId = some {})
    (h : (m.savedWork sort finished delivered).isSome) :
    (runSnippetWork sort db m finished delivered).isSome := by
  obtain ⟨w, hw⟩ := Option.isSome_iff_exists.mp h
  unfold QuerySnippet.savedWork at hw
  obtain ⟨target, htarget, hw⟩ := Option.bind_eq_some_iff.mp hw
  obtain ⟨result, hresult, hw⟩ := Option.bind_eq_some_iff.mp hw
  obtain ⟨t, ht, hw⟩ := Option.bind_eq_some_iff.mp hw
  have hsaves : ∀ offset length, WorkBuffer.save {} m.saved t offset length = some w →
      (saveTableData db m.saved t offset length).isSome := by
    intro offset length hsave
    obtain ⟨db', hdb', -⟩ := saveTableData_of_save hwork hsave
    rw [hdb']
    rfl
  simp only [runSnippetWork, htarget, hresult, ht, Option.bind_eq_bind, Option.bind_some,
    saveResult]
  split at hw
  · rename_i hlimit
    rw [if_pos hlimit]
    exact hsaves _ _ hw
  · rename_i hlimit
    rw [if_neg hlimit]
    exact hsaves _ _ hw

/-- A snippet whose sources are done need not wait for them. -/
theorem next_isSome (hx : p.Executable sort qid) (hf : Follows p es)
    (hrun : run (queryStep sort qid) {} es = some s) (hinv : QueryInv sort p s)
    {t : SnippetThread qid} (ht : t ∈ s.snippets) (hnot : t.phase ≠ .saved)
    (hsources : ∀ name, t.snippet.Uses name → ∃ w, FinishedWork s.dataBuffer qid name w) :
    (t.next sort s.dataBuffer).isSome := by
  obtain ⟨hplanned, hphase⟩ := hinv.threads t ht
  obtain ⟨m, rfl, phase⟩ := t
  have hname : ∀ i, m.finishedTable? = some i ∨ m.growingTable? = some i →
      ∃ name v w, m.tableName[i]? = some name ∧
        (query s.dataBuffer m.queryId).tablenameWorkidMap.lookup name = some v ∧
        DataBuffer.work? s.dataBuffer m.queryId v = some w ∧ w.status = .workDone := by
    intro i hwhich
    obtain ⟨q, -, hq⟩ := hx.sources m hplanned i hwhich
    obtain ⟨w, v, hv, hw, hdone⟩ := hsources q.2 ⟨i, hwhich, hq⟩
    rw [namedWork_eq] at hv
    exact ⟨q.2, v, w, hq, hv, hw, hdone⟩
  unfold SnippetThread.next
  cases phase with
  | started => rfl
  | initialized =>
    show (m.fetch s.dataBuffer).isSome
    unfold QuerySnippet.fetch
    cases hwaits : m.finishedTable? with
    | none => rfl
    | some i =>
      obtain ⟨name, v, w, hname, hv, hw, hdone⟩ := hname i (.inl hwaits)
      have hreader := query_initializeReader s.dataBuffer m.queryId name
      have hstatus : ¬ (w.status = .notFinished ∨ w.status = .initialized) := by simp [hdone]
      have hw' : DataBuffer.work? (initializeBuffer s.dataBuffer m.queryId (-1) name)
          m.queryId v = some w := by
        rw [DataBuffer.work?, hreader]
        exact hw
      simp only [hname, getFinishedTableData, workIdOf, if_true, hreader, hv, hw', if_neg hstatus,
        Option.bind_eq_bind, Option.bind_some]
      rfl
  | reading finished rowIndex delivered =>
    show (m.read s.dataBuffer finished rowIndex delivered).isSome
    unfold QuerySnippet.read
    cases hreads : m.growingTable? with
    | none => rfl
    | some i =>
      obtain ⟨name, v, w, hname, hv, hw, hdone⟩ := hname i (.inr hreads)
      have hreader := query_initializeReader s.dataBuffer m.queryId name
      have hready : ¬ (w.rowCount - rowIndex < 1000000 ∧ w.status ≠ .workDone) := by simp [hdone]
      have hw' : DataBuffer.work? (initializeBuffer s.dataBuffer m.queryId (-1) name)
          m.queryId v = some w := by
        rw [DataBuffer.work?, hreader]
        exact hw
      have hdone' : w.table.status = .workDone := hdone
      simp only [hname, getTableData, workIdOf, if_true, hreader, hv, hw', WorkBuffer.read,
        if_neg hready, Option.bind_eq_bind, Option.bind_some, if_pos hdone']
      rfl
  | loaded finished delivered =>
    obtain ⟨hnew, hfetched, hdelivered⟩ := hphase
    have hrun' : (runSnippetWork sort s.dataBuffer m finished delivered).isSome :=
      runSnippetWork_isSome hnew
        (hx.defined es s hf hrun m hplanned finished delivered hfetched hdelivered)
    obtain ⟨db, hdb⟩ := Option.isSome_iff_exists.mp hrun'
    show ((runSnippetWork sort s.dataBuffer m finished delivered).bind _).isSome
    rw [hdb]
    rfl
  | saved => exact absurd rfl hnot

/-- **Some thread can go on** as long as a work is not done. -/
theorem exists_step (hp : p.WellFormed qid) (hx : p.Executable sort qid) (h : Supplied p es)
    (hrun : run (queryStep sort qid) {} es = some s) {q : Int × String} (hq : q ∈ p.works)
    (hnot : ¬ s.Done q.1) : ∃ e s', Internal p e ∧ queryStep sort qid s e = some s' := by
  have hreached := reached_of_run hp h.follows hrun
  obtain ⟨rank, hrank⟩ := hx.acyclic
  induction hn : rank q.2 using Nat.strong_induction_on generalizing q with
  | _ n ih =>
    rcases QueryPlan.WellFormed.mem_works.mp hq with ⟨c, hc, rfl⟩ | ⟨m, hm, rfl⟩
    · exact scan_enabled hp hx h hrun hc hnot
    by_cases hsources : ∀ q' ∈ p.works, m.Uses q'.2 → s.Done q'.1
    · -- everything the snippet needs is there
      have hthread : ∃ t ∈ s.snippets, t.snippet = m := by
        have hmem : m ∈ s.snippets.map (·.snippet) := by
          rw [hreached.snippets]
          exact h.spawned.symm.subset hm
        obtain ⟨t, ht, heq⟩ := List.mem_map.mp hmem
        exact ⟨t, ht, heq⟩
      obtain ⟨t, ht, rfl⟩ := hthread
      have hunsaved : t.phase ≠ .saved := by
        intro hsaved
        obtain ⟨-, hphase⟩ := hreached.inv.threads t ht
        rw [hsaved] at hphase
        obtain ⟨w, hw, hcomputed⟩ := hphase
        exact hnot ⟨w, hw, savedWork_status hcomputed.choose_spec.choose_spec.2.2⟩
      have hfinished : ∀ name, t.snippet.Uses name →
          ∃ w, FinishedWork s.dataBuffer qid name w := by
        intro name huses
        obtain ⟨i, hwhich, hname⟩ := huses
        obtain ⟨q', hq', hname'⟩ := hx.sources _ hm i hwhich
        obtain rfl := Option.some.inj (hname.symm.trans hname')
        obtain ⟨w, hw, hdone⟩ := hsources q' hq' ⟨i, hwhich, hname⟩
        exact ⟨w, q'.1, hreached.inv.found q' hq' (hw ▸ rfl), hw, hdone⟩
      have hnext := next_isSome hx h.follows hrun hreached.inv ht hunsaved hfinished
      obtain ⟨⟨db, phase⟩, hdb⟩ := Option.isSome_iff_exists.mp hnext
      obtain ⟨k, hk⟩ := List.getElem?_of_mem ht
      refine ⟨.snippet k,
        { s with dataBuffer := db, snippets := s.snippets.set k { t with phase } }, trivial, ?_⟩
      simp only [queryStep, hk, hdb, Option.bind_eq_bind, Option.bind_some]
      rfl
    · push Not at hsources
      obtain ⟨q', hq', huses, hnot'⟩ := hsources
      exact ih _ (hn ▸ hrank _ _ ⟨m, hm, rfl, huses⟩) hq' hnot' rfl

/-! ## The end of a query -/

/-- A finished query can be answered with each of its tables. -/
theorem answer_enabled (sort : SortFunction) (hp : p.WellFormed qid) {q : Int × String}
    (hq : q ∈ p.works) (hdone : s.Done q.1) :
    ∃ s', queryStep sort qid s (.getQueryResult ⟨qid, q.1, q.2⟩) = some s' := by
  obtain ⟨w, hw, hstatus⟩ := hdone
  obtain ⟨t, result, hrun, -⟩ := @getQueryResult_spec s.dataBuffer ⟨qid, q.1, q.2⟩ q.1 w
    (if_neg (hp.ordinary q hq)) hw hstatus
  simp only [queryStep, if_true, hrun, Option.bind_eq_bind, Option.bind_some]
  exact ⟨_, rfl⟩

end KetiEngine.Merging
