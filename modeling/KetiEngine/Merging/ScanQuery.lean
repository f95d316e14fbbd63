import KetiEngine.Merging.QueryProgress

/-!
# ScanQuery — a query over one scan

A plan of one scan and one snippet that shows columns of it, with HAVING,
ORDER BY and LIMIT. Such a plan can be executed, and a table with the rows of
all results gives what the snippet says about them.
-/

namespace KetiEngine.Merging

open KetiEngine Runs DataBuffer

variable {qid : Int} {sort : SortFunction} {s s' : QueryState qid} {c : Scan} {m : QuerySnippet}
  {columns : List (String × String)} {es : List QueryEvent}

/-- The plan of a scan and a snippet over it. -/
def scanPlan (c : Scan) (m : QuerySnippet) : QueryPlan := ⟨[c], [m]⟩

/-- A snippet shows columns of a scan that has rows. -/
structure ShowsScan (c : Scan) (m : QuerySnippet) (columns : List (String × String)) : Prop where
  type : m.type = .aggregation
  source : m.tableName = [c.tableAlias]
  ungrouped : m.groupBy = []
  bare : BareColumns m.toSnippetRequest columns
  nonempty : columns ≠ []
  distinct : (columns.map Prod.fst).Nodup
  known : ∀ q ∈ columns, q.2 ∈ c.names
  results : c.results ≠ []
  rows : 0 < (c.results.map (·.rowCount)).sum
  decodes : ∀ r ∈ c.results, (decodeRows c.names.length r).isSome
  answers : ∀ t n, c.Complete t → t.WellFormed n → ∀ result,
    columnProjection t [] m.projection m.columnAlias = some result → Answers m result
  offset : m.limit.offset = 0
  length : 0 ≤ m.limit.length

/-- `answer` is what the snippet says about the table `source`. -/
def AnswerOf (m : QuerySnippet) (columns : List (String × String)) (source answer : TableData) :
    Prop :=
  ∃ n result rows, source.WellFormed n ∧ Renamed source columns result ∧ result.WellFormed n ∧
    rows.Perm (havingRows m result n) ∧
    (m.orderBy.columnName = [] → rows = havingRows m result n) ∧
    (m.orderBy.columnName ≠ [] →
      rows.Pairwise fun i j => rowOrder result.tableData m.orderBy i j ≠ .gt) ∧
    HoldsTable result.tableData (m.limit.asks rows) answer

/-! ## The table of the scan -/

/-- A complete table has as many rows as the results. -/
theorem Scan.Complete.count {t : TableData} (h : c.Complete t) :
    t.rowCount = ((c.results.map (·.rowCount)).sum : Nat) := by
  obtain ⟨merged, hperm, -, hcount⟩ := h
  rw [hcount, sum_rowCount, (hperm.map _).sum_eq]

/-- The first cell of a column, when there are rows. -/
theorem Scan.Complete.exists_cell {t : TableData} (h : c.Complete t)
    (hrows : 0 < (c.results.map (·.rowCount)).sum) {j : Nat} {name : String}
    (hj : c.names[j]? = some name) :
    ∃ values ∈ rowsOf c.names.length c.results, ∃ v, values[j]? = some v ∧
      (t.tableData.get name).cell? 0 = some ⟨v, false⟩ := by
  have hcount := h.count
  obtain ⟨merged, hperm, hall, -⟩ := h
  have hrow : t.row c.names 0 ∈ t.rows c.names :=
    List.mem_map_of_mem (List.mem_range.mpr (by omega))
  rw [hall] at hrow
  obtain ⟨values, hvalues, heq⟩ := List.mem_map.mp hrow
  have hcell : (t.row c.names 0)[j]? = some ((t.tableData.get name).cell? 0) := by
    simp [TableData.row, hj]
  rw [← heq, List.getElem?_map] at hcell
  obtain ⟨v, hv, hcell⟩ := Option.map_eq_some_iff.mp hcell
  exact ⟨values, (List.Perm.flatMap_right _ hperm).subset hvalues, v, hv, hcell.symm⟩

/-- A complete table with rows has its columns. -/
theorem Scan.Complete.mem {t : TableData} (h : c.Complete t)
    (hrows : 0 < (c.results.map (·.rowCount)).sum) {name : String} (hname : name ∈ c.names) :
    name ∈ t.tableData := by
  obtain ⟨j, hj⟩ := List.getElem?_of_mem hname
  obtain ⟨-, -, v, -, hcell⟩ := h.exists_cell hrows hj
  by_contra hmem
  rw [ColMap.get_of_notMem hmem] at hcell
  cases hcell

theorem Scan.Complete.isTableOf {t : TableData} {w : WorkBuffer} (h : c.Complete w.table)
    (ht : IsTableOf t w) : c.Complete t := by
  obtain ⟨scanned, filtered, rfl⟩ := ht
  exact h

/-! ## What the snippet computes -/

/-- From a whole table of the scan the snippet computes its answer. -/
theorem ShowsScan.computes (hsort : Sorts sort) (h : ShowsScan c m columns)
    {finished : TableData} {n : Nat} (hcomplete : c.Complete finished) (hwell : finished.WellFormed n) :
    ∃ w, m.savedWork sort finished [] = some w ∧ w.status = .workDone ∧
      AnswerOf m columns finished w.table := by
  have hn : 0 < n := by
    have hrows := h.rows
    have hcount := hcomplete.count
    rw [hwell.count] at hcount
    omega
  let db : DataBuffer := setWork ∅ m.queryId m.workId {}
  have hwork : db.work? m.queryId m.workId = some {} := work?_setWork _ _ _ _
  obtain ⟨result, hproject, hwell', hrenamed⟩ := columnProjection_bare hwell hn h.bare h.nonempty
    h.distinct fun q hq => hcomplete.mem h.rows (h.known q hq)
  have htarget : m.targetTable finished [] = some finished := by
    simp [QuerySnippet.targetTable, h.type]
  have hanswer := h.answers finished n hcomplete hwell result hproject
  rw [← h.ungrouped] at hproject
  have halias : ∀ name ∈ m.columnAlias, name ∈ result.tableData := fun name hname =>
    (hrenamed.names name).mpr (h.bare.aliases ▸ hname)
  obtain ⟨rows, db', w, hperm, hsame, hsorted, hrun, hw, hstatus, hholds⟩ :=
    runSnippetWork_of_result hsort htarget hproject hwell' hanswer halias h.offset h.length hwork
  obtain ⟨-, w', hsaved, hw'⟩ := runSnippetWork_spec hwork hrun
  obtain rfl := Option.some.inj (hw.symm.trans hw')
  exact ⟨w, hsaved, hstatus, n, result, rows, hwell, hrenamed, hwell', hperm, hsame, hsorted,
    hholds⟩

/-! ## The query -/

theorem ShowsScan.finishedTable? (h : ShowsScan c m columns) : m.finishedTable? = some 0 := by
  unfold QuerySnippet.finishedTable?
  rw [h.type]

theorem ShowsScan.growingTable? (h : ShowsScan c m columns) : m.growingTable? = none := by
  unfold QuerySnippet.growingTable?
  rw [h.type]

/-- The snippet needs the scan and nothing else. -/
theorem ShowsScan.uses_iff (h : ShowsScan c m columns) (name : String) :
    m.Uses name ↔ name = c.tableAlias := by
  constructor
  · rintro ⟨i, hwhich, hname⟩
    rw [h.finishedTable?, h.growingTable?] at hwhich
    obtain rfl : 0 = i := by simpa using hwhich
    rw [h.source] at hname
    exact (Option.some.inj hname).symm
  · rintro rfl
    exact ⟨0, .inl h.finishedTable?, by rw [h.source]; rfl⟩

/-- What the snippet waits for is the whole table of the scan. -/
theorem scanPlan_fetched (hp : (scanPlan c m).WellFormed qid) (h : ShowsScan c m columns)
    (hf : Follows (scanPlan c m) es)
    (hrun : run (queryStep sort qid) {} es = some s) (hown : m.queryId = qid)
    {finished : TableData} (hfetched : m.Fetched s.dataBuffer finished) :
    c.Complete finished ∧ ∃ n, finished.WellFormed n := by
  subst hown
  have hinv := (reached_of_run hp hf hrun).inv
  have hc : c ∈ (scanPlan c m).scans := List.mem_singleton_self c
  unfold QuerySnippet.Fetched at hfetched
  rw [h.finishedTable?] at hfetched
  obtain ⟨name, w, hname, ⟨v, hv, hw, hdone⟩, htable⟩ := hfetched
  rw [h.source] at hname
  obtain rfl := Option.some.inj hname
  have hid := hp.eq_of_name (hinv.named _ v hv) (QueryPlan.WellFormed.scan_mem hc) rfl
  obtain rfl : v = c.workId := congrArg Prod.fst hid
  have hcomplete := (Scan.complete_of_done hp hc hf hrun hw hdone).2
  refine ⟨hcomplete.isTableOf htable, ?_⟩
  have hsame := QueryState.table_of_work? hw
  rcases hinv.scans c hc with hnew | ⟨hfill, -⟩
  · have hstatus : ((s.system c.workId).work m.queryId c.workId).table.status = .workDone :=
      (congrArg TableData.status hsame).trans hdone
    rw [hnew.fresh.work] at hstatus
    cases hstatus
  · have hwell := hfill.wellFormed
    unfold QueryState.table at hsame
    rw [hsame] at hwell
    obtain ⟨scanned, filtered, rfl⟩ := htable
    exact ⟨_, hwell.count, hwell.column, hwell.stored⟩

theorem scanPlan_executable (hsort : Sorts sort) (hp : (scanPlan c m).WellFormed qid)
    (h : ShowsScan c m columns) (hown : m.queryId = qid) :
    (scanPlan c m).Executable sort qid := by
  have hc : c ∈ (scanPlan c m).scans := List.mem_singleton_self c
  have hm : m ∈ (scanPlan c m).snippets := List.mem_singleton_self m
  constructor
  case results =>
    intro c' hc'
    obtain rfl := List.mem_singleton.mp hc'
    exact h.results
  case decodes =>
    intro c' hc'
    obtain rfl := List.mem_singleton.mp hc'
    exact h.decodes
  case sources =>
    intro m' hm' i hwhich
    obtain rfl := List.mem_singleton.mp hm'
    rw [h.finishedTable?, h.growingTable?] at hwhich
    obtain rfl : 0 = i := by simpa using hwhich
    exact ⟨_, QueryPlan.WellFormed.scan_mem hc, by rw [h.source]; rfl⟩
  case acyclic =>
    have hne : c.tableAlias ≠ m.tableAlias := by
      intro heq
      have hid := hp.eq_of_name (QueryPlan.WellFormed.scan_mem hc)
        (QueryPlan.WellFormed.snippet_mem hm) heq
      exact hp.scan_ne_snippet hc hm (congrArg Prod.fst hid)
    refine ⟨fun name => if name = m.tableAlias then 1 else 0, ?_⟩
    rintro name source ⟨m', hm', rfl, huses⟩
    obtain rfl := List.mem_singleton.mp hm'
    rw [(h.uses_iff source).mp huses]
    show (if c.tableAlias = m'.tableAlias then 1 else 0) <
      (if m'.tableAlias = m'.tableAlias then 1 else 0)
    rw [if_neg hne, if_pos rfl]
    exact Nat.one_pos
  case defined =>
    intro es s hf hrun m' hm' finished delivered hfetched hdelivered
    obtain rfl := List.mem_singleton.mp hm'
    obtain ⟨hcomplete, n, hwell⟩ := scanPlan_fetched hp h hf hrun hown hfetched
    unfold QuerySnippet.Delivered at hdelivered
    rw [h.growingTable?] at hdelivered
    subst hdelivered
    obtain ⟨w, hw, -⟩ := h.computes hsort hcomplete hwell
    rw [hw]
    rfl

/-- Everything in the plan is there for the snippet. -/
theorem scanPlan_feeds (h : ShowsScan c m columns) : (scanPlan c m).Feeds m.tableAlias := by
  intro q hq
  rcases QueryPlan.WellFormed.mem_works.mp hq with ⟨c', hc', rfl⟩ | ⟨m', hm', rfl⟩
  · obtain rfl := List.mem_singleton.mp hc'
    exact .single ⟨m, List.mem_singleton_self m, rfl, (h.uses_iff _).mpr rfl⟩
  · obtain rfl := List.mem_singleton.mp hm'
    exact .refl

/-- The answer of the query is what the snippet says about the rows of all
results, with the totals of their row counters. -/
theorem scanPlan_answered (hsort : Sorts sort) (hp : (scanPlan c m).WellFormed qid)
    (h : ShowsScan c m columns) (hf : Follows (scanPlan c m) es)
    (hrun : run (queryStep sort qid) {} es = some s)
    (hstep : queryStep sort qid s (.getQueryResult ⟨qid, m.workId, m.tableAlias⟩) = some s') :
    ∃ (source : TableData) (w : WorkBuffer), c.Complete source ∧
      AnswerOf m columns source w.table ∧
      s'.results = s.results ++ [queryResultOf { w.table with
        scannedRowCount := toInt32 (totals c.results).1
        filteredRowCount := toInt32 (totals c.results).2 }] := by
  have hm : m ∈ (scanPlan c m).snippets := List.mem_singleton_self m
  obtain ⟨-, w, hw, ⟨-, -, -, hdone⟩, hresults, -⟩ :=
    answered_of_run hp hf hrun (QueryPlan.WellFormed.snippet_mem hm) (scanPlan_feeds h) (.inl rfl)
      hstep
  rcases (reached_of_run hp hf hrun).inv.snippet_work hm hw with rfl | ⟨-, -, hown, hcomputed⟩
  · cases hdone
  obtain ⟨finished, delivered, hfetched, hdelivered, hsaved⟩ := hcomputed
  obtain ⟨hcomplete, n, hwell⟩ := scanPlan_fetched hp h hf hrun hown hfetched
  unfold QuerySnippet.Delivered at hdelivered
  rw [h.growingTable?] at hdelivered
  subst hdelivered
  obtain ⟨w', hsaved', -, hanswer⟩ := h.computes hsort hcomplete hwell
  obtain rfl := Option.some.inj (hsaved.symm.trans hsaved')
  refine ⟨finished, w, hcomplete, hanswer, ?_⟩
  rw [hresults]
  simp [scanPlan]

/-- `SELECT a AS n FROM t ORDER BY n DESC LIMIT 2`. -/
def largestTwo : QuerySnippet := { firstTwo with orderBy := ⟨[.desc], ["n"]⟩ }

theorem largestTwo_wellFormed : (scanPlan twoResultScan largestTwo).WellFormed 1 :=
  ⟨firstTwoPlan_wellFormed.ids, firstTwoPlan_wellFormed.names, firstTwoPlan_wellFormed.ordinary,
    firstTwoPlan_wellFormed.delivery, firstTwoPlan_wellFormed.results⟩

/-- The results have numbers in their column. -/
theorem twoResultScan_type {t : TableData} (h : twoResultScan.Complete t) :
    (t.tableData.get "a").type ≠ .float := by
  intro hfloat
  have ha : twoResultScan.names[0]? = some "a" := rfl
  obtain ⟨values, hvalues, v, hv, hcell⟩ := h.exists_cell (by decide) ha
  obtain ⟨x, rfl⟩ : ∃ x, v = .float x := by
    simp only [ColData.cell?, ColData.value?, hfloat] at hcell
    cases hx : (t.tableData.get "a").floatvec[0]? with
    | none => simp [hx] at hcell
    | some x =>
      cases hnull : (t.tableData.get "a").isnull[0]? with
      | none => simp [hx, hnull] at hcell
      | some b =>
        simp only [hx, hnull, Option.map_some, Option.some.injEq, Cell.mk.injEq] at hcell
        exact ⟨x, hcell.1.symm⟩
  have hrows : rowsOf 1 twoResultScan.results = [[.int 5], [.int 7], [.int 8]] := by rfl
  have hvalues' : values ∈ rowsOf 1 twoResultScan.results := hvalues
  rw [hrows] at hvalues'
  simp only [List.mem_cons, List.not_mem_nil, or_false] at hvalues'
  rcases hvalues' with rfl | rfl | rfl <;> cases hv

theorem largestTwo_shows : ShowsScan twoResultScan largestTwo [("n", "a")] := by
  constructor
  case type => rfl
  case source => rfl
  case ungrouped => rfl
  case bare => exact ⟨rfl, rfl⟩
  case nonempty => decide
  case distinct => decide
  case known => decide
  case results => decide
  case rows => decide
  case decodes => decide
  case offset => decide
  case length => decide
  case answers =>
    intro t n hcomplete hwell result hresult
    have hn : 0 < n := by
      have hcount := hcomplete.count
      have hthree : ((twoResultScan.results.map (·.rowCount)).sum : Nat) = 3 := by decide
      rw [hwell.count] at hcount
      omega
    have hin : ∀ q ∈ [("n", "a")], q.2 ∈ t.tableData := by
      intro q hq
      obtain rfl := List.mem_singleton.mp hq
      exact hcomplete.mem (by decide) (by decide)
    obtain ⟨result', hproject, -, hrenamed⟩ :=
      @columnProjection_bare _ _ largestTwo.toSnippetRequest [("n", "a")] hwell hn ⟨rfl, rfl⟩
        (by decide) (by decide) hin
    obtain rfl := Option.some.inj (hresult.symm.trans hproject)
    refine ⟨.inl rfl, .inr ?_, by simp [comparedColumns, conjuncts, largestTwo, firstTwo],
      by simp [comparedColumns, conjuncts, largestTwo, firstTwo]⟩
    show OrdersBy result.tableData ⟨[.desc], ["n"]⟩
    constructor
    case directions => rfl
    case columns => exact fun name hname => (hrenamed.names name).mpr hname
    case noNaN =>
      intro name hname hfloat
      obtain rfl := List.mem_singleton.mp hname
      rw [hrenamed.type ("n", "a") (by decide)] at hfloat
      exact absurd hfloat (twoResultScan_type hcomplete)

end KetiEngine.Merging
