import KetiEngine.Merging.QueryPlan

/-!
# QueryInvariant — what every step of a planned query keeps

A work that is done keeps its table, a table that CSDs fill only grows, and a
name leads to the work that the plan gives it. From that each snippet thread
is where it should be: its own work is new until it saves, and what it got
from other works are tables that are done.
-/

namespace KetiEngine.Merging

open KetiEngine Runs DataBuffer

variable {qid wid : Int} {sort : SortFunction} {p : QueryPlan} {s s' : QueryState qid}
  {m : QuerySnippet} {c : Scan} {e : ScanEvent} {phase : Phase}
  {db' : DataBuffer}

namespace QueryState

def work? (s : QueryState qid) (wid : Int) : Option WorkBuffer := s.dataBuffer.work? qid wid

/-- The work that made a table. -/
def named (s : QueryState qid) (tableName : String) : Option Int :=
  namedWork s.dataBuffer qid tableName

/-- The table of a work as it is now. -/
def table (s : QueryState qid) (wid : Int) : TableData := ((s.system wid).work qid wid).table

/-- Nothing has been written to the buffer of the work, if it is there. -/
def Unwritten (s : QueryState qid) (wid : Int) : Prop := (s.work? wid).getD {} = {}

theorem Unwritten.same (h : s.Unwritten wid) (hwork : s'.work? wid = s.work? wid) :
    s'.Unwritten wid := by
  rw [Unwritten, hwork]
  exact h

theorem table_of_work? {w : WorkBuffer} (h : s.work? wid = some w) : s.table wid = w.table := by
  unfold table System.work
  have hw : DataBuffer.work? (s.system wid).dataBuffer qid wid = some w := h
  rw [hw, Option.getD_some]

end QueryState

/-! ## Works of a plan -/

namespace QueryPlan.WellFormed

variable {q q' : Int × String}

theorem eq_of_id (hp : p.WellFormed qid) (hq : q ∈ p.works) (hq' : q' ∈ p.works)
    (h : q.1 = q'.1) : q = q' :=
  List.inj_on_of_nodup_map hp.ids hq hq' h

theorem eq_of_name (hp : p.WellFormed qid) (hq : q ∈ p.works) (hq' : q' ∈ p.works)
    (h : q.2 = q'.2) : q = q' :=
  List.inj_on_of_nodup_map hp.names hq hq' h

theorem scan_mem (hc : c ∈ p.scans) : (c.workId, c.tableAlias) ∈ p.works :=
  List.mem_append_left _ (List.mem_map.mpr ⟨c, hc, rfl⟩)

theorem snippet_mem (hm : m ∈ p.snippets) : (m.workId, m.tableAlias) ∈ p.works :=
  List.mem_append_right _ (List.mem_map.mpr ⟨m, hm, rfl⟩)

theorem mem_works : q ∈ p.works ↔ (∃ c ∈ p.scans, (c.workId, c.tableAlias) = q) ∨
    ∃ m ∈ p.snippets, (m.workId, m.tableAlias) = q := by
  rw [works, List.mem_append, List.mem_map, List.mem_map]

theorem ids_append (hp : p.WellFormed qid) :
    (p.scans.map (·.workId) ++ p.snippets.map (·.workId)).Nodup := by
  have hids := hp.ids
  rwa [works, List.map_append, List.map_map, List.map_map] at hids

theorem scan_ne_snippet (hp : p.WellFormed qid) (hc : c ∈ p.scans) (hm : m ∈ p.snippets) :
    c.workId ≠ m.workId := by
  have hdisjoint := (List.nodup_append.mp hp.ids_append).2.2
  exact hdisjoint _ (List.mem_map_of_mem hc) _ (List.mem_map_of_mem hm)

theorem snippet_ids (hp : p.WellFormed qid) : (p.snippets.map (·.workId)).Nodup :=
  (List.nodup_append.mp hp.ids_append).2.1

theorem scan_eq (hp : p.WellFormed qid) {c' : Scan} (hc : c ∈ p.scans) (hc' : c' ∈ p.scans)
    (h : c.workId = c'.workId) : c = c' :=
  List.inj_on_of_nodup_map (List.nodup_append.mp hp.ids_append).1 hc hc' h

theorem snippet_eq (hp : p.WellFormed qid) {m' : QuerySnippet} (hm : m ∈ p.snippets)
    (hm' : m' ∈ p.snippets) (h : m.workId = m'.workId) : m = m' :=
  List.inj_on_of_nodup_map hp.snippet_ids hm hm' h

theorem ordinary_scan (hp : p.WellFormed qid) (hc : c ∈ p.scans) : c.workId ≠ -1 :=
  hp.ordinary _ (scan_mem hc)

theorem ordinary_snippet (hp : p.WellFormed qid) (hm : m ∈ p.snippets) : m.workId ≠ -1 :=
  hp.ordinary _ (snippet_mem hm)

theorem fits (hp : p.WellFormed qid) (hc : c ∈ p.scans) {r : BlockResult} (hr : r ∈ c.results) :
    Fits c.types r := by
  have hd := hp.delivery c hc
  exact ⟨hd.sameColumns r hr ▸ hd.distinct, hd.sameTypes r hr, hd.empty r hr⟩

end QueryPlan.WellFormed

/-! ## What a step does -/

theorem queryStep_scan (hwid : wid ≠ -1)
    (h : queryStep sort qid s (.scan wid e) = some s') :
    step qid wid (s.system wid) e.toEvent = some (s'.system wid) ∧
      (∀ v, v ≠ wid → s'.merging v = s.merging v) ∧ s'.snippets = s.snippets := by
  obtain ⟨t, hstep, h⟩ := Option.bind_eq_some_iff.mp h
  cases h
  have hreaders : t.readers = [] := by
    cases e with
    | push r => exact (step_push hwid hstep).choose_spec.2.2.1
    | pop k r =>
      obtain ⟨-, -, -, -, -, hreaders, -⟩ := step_pop hstep
      exact hreaders
    | merge k r =>
      obtain ⟨-, -, -, -, hreaders, -⟩ := step_merge hstep
      exact hreaders
  refine ⟨?_, fun v hv => Function.update_of_ne hv _ _, rfl⟩
  rw [hstep]
  obtain ⟨db, threads, readers⟩ := t
  obtain rfl : readers = [] := hreaders
  simp [QueryState.system]

theorem queryStep_aggregation
    (h : queryStep sort qid s (.aggregation m) = some s') :
    ∃ own, s' = { s with snippets := s.snippets ++ [⟨m, own, .started⟩] } := by
  simp only [queryStep] at h
  split at h
  · rename_i own
    cases h
    exact ⟨own, rfl⟩
  · cases h

theorem queryStep_snippet {k : Nat} (h : queryStep sort qid s (.snippet k) = some s') :
    ∃ t phase, s.snippets[k]? = some t ∧
      t.next sort s.dataBuffer = some (s'.dataBuffer, phase) ∧ s'.merging = s.merging ∧
      s'.snippets = s.snippets.set k { t with phase } := by
  obtain ⟨t, ht, h⟩ := Option.bind_eq_some_iff.mp h
  obtain ⟨⟨db, phase⟩, hnext, h⟩ := Option.bind_eq_some_iff.mp h
  cases h
  exact ⟨t, phase, ht, hnext, rfl, rfl⟩

/-! ## Tables that grow -/

/-- What was read so far of a table that is now `t`. -/
structure Growing (delivered : List TableData) (rowIndex : Int) (t : TableData) : Prop where
  unfinished : ∀ u ∈ delivered, u.status ≠ .workDone
  growing : (delivered ++ [t]).Pairwise TableData.Extends
  parts : ∀ u ∈ delivered, ∃ k, u.WellFormed k
  columns : ∀ u ∈ delivered, ∀ name ∈ t.tableData, name ∈ u.tableData
  lower : 0 ≤ rowIndex
  upper : rowIndex ≤ t.rowCount

section
variable {delivered : List TableData} {rowIndex : Int} {t u : TableData} {n : Nat}

theorem Growing.nil (h : 0 ≤ t.rowCount) : Growing [] 0 t :=
  ⟨by simp, by simp, by simp, by simp, Int.le_refl 0, h⟩

theorem Growing.grow (h : Growing delivered rowIndex t) (hext : t.Extends u)
    (hnames : ∀ name ∈ u.tableData, name ∈ t.tableData) : Growing delivered rowIndex u := by
  constructor
  case unfinished => exact h.unfinished
  case growing =>
    obtain ⟨hbefore, -, hlast⟩ := List.pairwise_append.mp h.growing
    refine List.pairwise_append.mpr ⟨hbefore, List.pairwise_singleton _ _, ?_⟩
    intro v hv u' hu'
    obtain rfl := List.mem_singleton.mp hu'
    exact (hlast v hv t (List.mem_singleton_self t)).trans hext
  case parts => exact h.parts
  case columns => exact fun v hv name hname => h.columns v hv name (hnames name hname)
  case lower => exact h.lower
  case upper => exact Int.le_trans h.upper hext.count

/-- The next table that is read, before the end. -/
theorem Growing.read (h : Growing delivered rowIndex t) (hwell : t.WellFormed n)
    (hstatus : t.status ≠ .workDone) : Growing (delivered ++ [t]) t.rowCount t := by
  have hmem : ∀ {P : TableData → Prop}, (∀ v ∈ delivered, P v) → P t →
      ∀ v ∈ delivered ++ [t], P v := by
    intro P hall ht v hv
    rcases List.mem_append.mp hv with hv | hv
    · exact hall v hv
    · exact List.mem_singleton.mp hv ▸ ht
  constructor
  case unfinished => exact hmem h.unfinished hstatus
  case growing =>
    refine List.pairwise_append.mpr ⟨h.growing, List.pairwise_singleton _ _, ?_⟩
    intro v hv u' hu'
    obtain rfl := List.mem_singleton.mp hu'
    have hlast := (List.pairwise_append.mp h.growing).2.2
    exact hmem (P := fun v => v.Extends u') (fun v hv => hlast v hv u' (List.mem_singleton_self u'))
      (.refl u') v hv
  case parts => exact hmem h.parts ⟨n, hwell⟩
  case columns => exact hmem h.columns fun _ hname => hname
  case lower => exact Int.le_trans h.lower h.upper
  case upper => exact Int.le_refl _

/-- The finished table, after what was read before. -/
theorem Growing.growsTo (h : Growing delivered rowIndex t) (hwell : t.WellFormed n)
    (hstatus : t.status = .workDone) : GrowsTo (delivered ++ [t]) t := by
  refine .inr ⟨n, ?_⟩
  constructor
  case wellFormed => exact hwell
  case finished => exact hstatus
  case last => exact ⟨delivered, rfl⟩
  case unfinished =>
    rw [List.dropLast_concat]
    exact h.unfinished
  case growing => exact h.growing
  case parts =>
    intro v hv
    rcases List.mem_append.mp hv with hv | hv
    · exact h.parts v hv
    · exact List.mem_singleton.mp hv ▸ ⟨n, hwell⟩
  case columns =>
    intro v hv _ name hname
    rcases List.mem_append.mp hv with hv | hv
    · exact h.columns v hv name hname
    · exact List.mem_singleton.mp hv ▸ hname

end

/-! ## Works that are scanned -/

/-- The table of a work that CSDs fill is well-formed. -/
theorem Filling.wellFormed {types : List Int} {a : System} (h : Filling qid wid types a) :
    (a.work qid wid).table.WellFormed (a.work qid wid).rowCount.toNat := by
  have hcolumn : ∀ name ∈ (a.work qid wid).tableData, ∃ t,
      ((a.work qid wid).tableData.get name).type = vectorType t ∧
      ((a.work qid wid).tableData.get name).HasLength (a.work qid wid).rowCount.toNat := by
    intro name hname
    obtain ⟨j, hj⟩ := List.getElem?_of_mem ((h.member name).mp hname)
    obtain ⟨-, t, -, -, htype, hlength⟩ := h.column j name hj
    exact ⟨t, htype, hlength⟩
  constructor
  case count => exact (Int.toNat_of_nonneg h.count).symm
  case column =>
    intro name hname
    obtain ⟨-, -, hlength⟩ := hcolumn name hname
    exact hlength
  case stored =>
    intro name hname
    obtain ⟨t, htype, -⟩ := hcolumn name hname
    show ColData.Stored _
    unfold ColData.Stored
    rw [WorkBuffer.table, htype]
    cases t <;> decide

/-- A step leaves the table of a work that is done, and adds rows to one that
is not. -/
theorem Filling.scan {types : List Int} {a a' : System} (hwid : wid ≠ -1)
    (hknown : KnownTypes types) (h : Filling qid wid types a)
    (hpush : ∀ r, e = .push r → Fits types r) (hstep : step qid wid a e.toEvent = some a') :
    Filling qid wid types a' ∧ (a.work qid wid).table.Extends (a'.work qid wid).table ∧
      (∀ name ∈ (a'.work qid wid).tableData, name ∈ (a.work qid wid).tableData) ∧
      ((a.work qid wid).status = .workDone → (a'.work qid wid).table = (a.work qid wid).table) := by
  have hsame : ∀ {w w' : WorkBuffer}, w'.table = w.table → w.table.Extends w'.table ∧
      ∀ name ∈ w'.tableData, name ∈ w.tableData := by
    intro w w' htable
    refine ⟨htable ▸ .refl _, fun name hname => ?_⟩
    have hdata : w'.tableData = w.tableData := congrArg TableData.tableData htable
    rwa [← hdata]
  cases e with
  | push r =>
    obtain ⟨hfill, htable, -⟩ := h.push hwid (hpush r rfl) hstep
    exact ⟨hfill, (hsame htable).1, (hsame htable).2, fun _ => htable⟩
  | pop k r =>
    obtain ⟨hfill, htable, -⟩ := h.pop hstep
    exact ⟨hfill, (hsame htable).1, (hsame htable).2, fun _ => htable⟩
  | merge k r =>
    obtain ⟨hfill, hext, hnames, hstatus⟩ := h.merge hknown hstep
    exact ⟨hfill, hext, hnames, fun hdone => absurd hdone hstatus⟩

/-- A step that leaves a work and its threads. -/
theorem Fed.same {types : List Int} {a a' : System} (h : Fed qid wid types a)
    (hwork : a'.work qid wid = a.work qid wid) (hthreads : a'.threads = a.threads)
    (hreaders : a'.readers = a.readers) : Fed qid wid types a' := by
  rcases h with ⟨⟨hw, ht⟩, hstart⟩ | ⟨hfill, hok⟩
  · exact .inl ⟨⟨hwork.trans hw, hthreads.trans ht⟩, hreaders ▸ hstart⟩
  · exact .inr ⟨hfill.same hwork hthreads, hok.same hreaders (by rw [hwork])⟩

/-! ## What snippet threads rely on -/

/-- `s'` comes later in a run: names lead to the works they led to, works that
are done keep their tables, and works that are scanned only grow. -/
structure Later (p : QueryPlan) (s s' : QueryState qid) : Prop where
  named : ∀ {name v}, s.named name = some v → s'.named name = some v
  done : ∀ {v w}, s.work? v = some w → w.status = .workDone →
    ∃ w', s'.work? v = some w' ∧ w'.table = w.table
  filling : ∀ c ∈ p.scans, Filling qid c.workId c.types (s.system c.workId) →
    Filling qid c.workId c.types (s'.system c.workId) ∧
      (s.table c.workId).Extends (s'.table c.workId) ∧
      ∀ name ∈ (s'.table c.workId).tableData, name ∈ (s.table c.workId).tableData

theorem Later.refl (p : QueryPlan) (s : QueryState qid) : Later p s s :=
  ⟨fun h => h, fun h _ => ⟨_, h, rfl⟩, fun _ _ h => ⟨h, .refl _, fun _ h => h⟩⟩

theorem Later.finishedWork {tableName : String} {w : WorkBuffer} (h : Later p s s')
    (hw : FinishedWork s.dataBuffer qid tableName w) :
    ∃ w', FinishedWork s'.dataBuffer qid tableName w' ∧ w'.table = w.table := by
  obtain ⟨v, hv, hwork, hdone⟩ := hw
  obtain ⟨w', hwork', htable⟩ := h.done hwork hdone
  exact ⟨w', ⟨v, h.named hv, hwork', (congrArg TableData.status htable).trans hdone⟩, htable⟩

theorem Later.fetched {finished : TableData} (h : Later p s s') (hown : m.queryId = qid)
    (hf : m.Fetched s.dataBuffer finished) : m.Fetched s'.dataBuffer finished := by
  subst hown
  unfold QuerySnippet.Fetched at hf ⊢
  cases hwaits : m.finishedTable? with
  | none =>
    rw [hwaits] at hf
    exact hf
  | some i =>
    rw [hwaits] at hf
    obtain ⟨name, w, hname, hw, htable⟩ := hf
    obtain ⟨w', hw', hsame⟩ := h.finishedWork hw
    refine ⟨name, w', hname, hw', ?_⟩
    unfold IsTableOf
    rw [hsame]
    exact htable

theorem Later.delivered {delivered : List TableData} (h : Later p s s') (hown : m.queryId = qid)
    (hd : m.Delivered s.dataBuffer delivered) : m.Delivered s'.dataBuffer delivered := by
  subst hown
  unfold QuerySnippet.Delivered at hd ⊢
  cases hreads : m.growingTable? with
  | none =>
    rw [hreads] at hd
    exact hd
  | some i =>
    rw [hreads] at hd
    obtain ⟨name, w, hname, hw, hgrows⟩ := hd
    obtain ⟨w', hw', hsame⟩ := h.finishedWork hw
    exact ⟨name, w', hname, hw', hsame ▸ hgrows⟩

/-- What a thread read so far: nothing, or the beginning of a table that CSDs
fill. A table that a snippet saves is read as a whole. -/
def ReadSoFar (p : QueryPlan) (s : QueryState qid) (m : QuerySnippet) (rowIndex : Int)
    (delivered : List TableData) : Prop :=
  rowIndex = 0 ∧ delivered = [] ∨
    ∃ i tableName c, m.growingTable? = some i ∧ m.tableName[i]? = some tableName ∧
      c ∈ p.scans ∧ s.named tableName = some c.workId ∧
      Filling qid c.workId c.types (s.system c.workId) ∧
      Growing delivered rowIndex (s.table c.workId)

theorem ReadSoFar.later {rowIndex : Int} {delivered : List TableData}
    (hr : ReadSoFar p s m rowIndex delivered) (h : Later p s s') :
    ReadSoFar p s' m rowIndex delivered := by
  rcases hr with hnothing | ⟨i, name, c, hreads, hname, hc, hnamed, hfill, hgrowing⟩
  · exact .inl hnothing
  · obtain ⟨hfill', hext, hnames⟩ := h.filling c hc hfill
    exact .inr ⟨i, name, c, hreads, hname, hc, h.named hnamed, hfill', hgrowing.grow hext hnames⟩

/-- A snippet thread is where it should be. -/
def PhaseOk (sort : SortFunction) (p : QueryPlan) (s : QueryState qid) (m : QuerySnippet) :
    Phase → Prop
  | .started => s.Unwritten m.workId
  | .initialized => s.work? m.workId = some {}
  | .reading finished rowIndex delivered =>
      s.work? m.workId = some {} ∧ m.Fetched s.dataBuffer finished ∧
        ReadSoFar p s m rowIndex delivered
  | .loaded finished delivered =>
      s.work? m.workId = some {} ∧ m.Fetched s.dataBuffer finished ∧
        m.Delivered s.dataBuffer delivered
  | .saved => ∃ w, s.work? m.workId = some w ∧ m.ComputedFrom sort s.dataBuffer w

/-- The work of a snippet thread has a buffer from its first step on. -/
theorem PhaseOk.work?_isSome (h : PhaseOk sort p s m phase) (hphase : phase ≠ .started) :
    ∃ w, s.work? m.workId = some w := by
  cases phase with
  | started => exact absurd rfl hphase
  | initialized => exact ⟨_, h⟩
  | reading finished rowIndex delivered => exact ⟨_, h.1⟩
  | loaded finished delivered => exact ⟨_, h.1⟩
  | saved => exact ⟨h.choose, h.choose_spec.1⟩

/-- A step elsewhere leaves a snippet thread where it should be. -/
theorem PhaseOk.later (ht : PhaseOk sort p s m phase) (h : Later p s s') (hown : m.queryId = qid)
    (hwork : s'.work? m.workId = s.work? m.workId) : PhaseOk sort p s' m phase := by
  cases phase with
  | started => exact QueryState.Unwritten.same ht hwork
  | initialized => exact hwork.trans ht
  | reading finished rowIndex delivered =>
    obtain ⟨hnew, hfetched, hread⟩ := ht
    exact ⟨hwork.trans hnew, h.fetched hown hfetched, hread.later h⟩
  | loaded finished delivered =>
    obtain ⟨hnew, hfetched, hdelivered⟩ := ht
    exact ⟨hwork.trans hnew, h.fetched hown hfetched, h.delivered hown hdelivered⟩
  | saved =>
    obtain ⟨w, hw, finished, delivered, hfetched, hdelivered, hsaved⟩ := ht
    exact ⟨w, hwork.trans hw, finished, delivered, h.fetched hown hfetched,
      h.delivered hown hdelivered, hsaved⟩

/-- What holds in every state of a planned query. -/
structure QueryInv (sort : SortFunction) (p : QueryPlan) (s : QueryState qid) : Prop where
  scans : ∀ c ∈ p.scans, Fed qid c.workId c.types (s.system c.workId)
  threads : ∀ t ∈ s.snippets, t.snippet ∈ p.snippets ∧ PhaseOk sort p s t.snippet t.phase
  distinct : (s.snippets.map (·.snippet.workId)).Nodup
  unspawned : ∀ m ∈ p.snippets, (∀ t ∈ s.snippets, t.snippet ≠ m) → s.Unwritten m.workId
  named : ∀ name v, s.named name = some v → (v, name) ∈ p.works
  found : ∀ q ∈ p.works, (s.work? q.1).isSome → s.named q.2 = some q.1

/-- Before anything has happened. -/
theorem QueryInv.initial : QueryInv sort p ({} : QueryState qid) := by
  constructor
  case scans =>
    intro c hc
    exact .inl ⟨⟨rfl, rfl⟩, by simp [QueryState.system]⟩
  case threads => simp
  case distinct => simp
  case unspawned => exact fun _ _ _ => rfl
  case named =>
    intro name v h
    cases h
  case found =>
    intro q hq h
    cases h

/-- A step that writes one work, and what it leaves of that work. -/
structure WritesWork (p : QueryPlan) (wid : Int) (tableName : String) (s s' : QueryState qid) :
    Prop where
  planned : (wid, tableName) ∈ p.works
  writes : Writes qid wid tableName s.dataBuffer s'.dataBuffer
  merging : ∀ v, v ≠ wid → s'.merging v = s.merging v
  found : (s'.work? wid).isSome → s'.named tableName = some wid
  done : ∀ w, s.work? wid = some w → w.status = .workDone →
    ∃ w', s'.work? wid = some w' ∧ w'.table = w.table
  filling : ∀ c ∈ p.scans, c.workId = wid → Filling qid c.workId c.types (s.system c.workId) →
    Filling qid c.workId c.types (s'.system c.workId) ∧
      (s.table c.workId).Extends (s'.table c.workId) ∧
      ∀ name ∈ (s'.table c.workId).tableData, name ∈ (s.table c.workId).tableData

section
variable {tableName : String}

theorem WritesWork.work?_ne (h : WritesWork p wid tableName s s') {v : Int} (hv : v ≠ wid) :
    s'.work? v = s.work? v :=
  h.writes.works v hv

theorem WritesWork.system_ne (h : WritesWork p wid tableName s s') {v : Int} (hv : v ≠ wid) :
    (s'.system v).work qid v = (s.system v).work qid v ∧
      (s'.system v).threads = (s.system v).threads := by
  refine ⟨?_, h.merging v hv⟩
  unfold System.work
  exact congrArg (Option.getD · {}) (h.work?_ne hv)

/-- Names lead to the works they led to: a name that is written is that of the
work. -/
theorem QueryInv.later (hp : p.WellFormed qid) (hinv : QueryInv sort p s)
    (h : WritesWork p wid tableName s s') : Later p s s' := by
  constructor
  case named =>
    intro name v hv
    rcases h.writes.names name with hsame | ⟨hname, hnew⟩
    · exact hsame.trans hv
    · have heq := hp.eq_of_name (hinv.named name v hv) h.planned hname
      rw [Prod.mk.injEq] at heq
      rw [heq.1]
      exact hnew
  case done =>
    intro v w hw hdone
    by_cases hv : v = wid
    · subst hv
      exact h.done w hw hdone
    · exact ⟨w, (h.work?_ne hv).trans hw, rfl⟩
  case filling =>
    intro c hc hfill
    by_cases hv : c.workId = wid
    · exact h.filling c hc hv hfill
    · obtain ⟨hwork, hthreads⟩ := h.system_ne hv
      have htable : s'.table c.workId = s.table c.workId := congrArg WorkBuffer.table hwork
      rw [htable]
      exact ⟨hfill.same hwork hthreads, .refl _, fun _ hname => hname⟩

/-- **One step** that writes a work keeps the invariant, when the work and the
threads on it are as they should be. -/
theorem QueryInv.writes (hp : p.WellFormed qid) (hinv : QueryInv sort p s)
    (h : WritesWork p wid tableName s s')
    (hscan : ∀ c ∈ p.scans, c.workId = wid → Fed qid c.workId c.types (s'.system c.workId))
    (hthreads : ∀ t ∈ s'.snippets, (t ∈ s.snippets ∧ t.snippet.workId ≠ wid) ∨
      t.snippet ∈ p.snippets ∧ PhaseOk sort p s' t.snippet t.phase)
    (hsnippets : s'.snippets.map (·.snippet) = s.snippets.map (·.snippet))
    (hspawned : ∀ m ∈ p.snippets, m.workId = wid → ∃ t ∈ s.snippets, t.snippet = m) :
    QueryInv sort p s' := by
  have hlater := hinv.later hp h
  constructor
  case scans =>
    intro c hc
    by_cases hv : c.workId = wid
    · exact hscan c hc hv
    · obtain ⟨hwork, hmerging⟩ := h.system_ne hv
      exact (hinv.scans c hc).same hwork hmerging rfl
  case threads =>
    intro t ht
    rcases hthreads t ht with ⟨hold, hne⟩ | hnew
    · obtain ⟨hplanned, hphase⟩ := hinv.threads t hold
      exact ⟨hplanned, hphase.later hlater t.own (h.work?_ne hne)⟩
    · exact hnew
  case distinct =>
    have hids := congrArg (List.map fun m : QuerySnippet => m.workId) hsnippets
    rw [List.map_map, List.map_map] at hids
    exact hids ▸ hinv.distinct
  case unspawned =>
    intro m hm hnone
    have hnone' : ∀ t ∈ s.snippets, t.snippet ≠ m := by
      intro t ht heq
      have hin : m ∈ s'.snippets.map (·.snippet) := by
        rw [hsnippets]
        exact List.mem_map.mpr ⟨t, ht, heq⟩
      obtain ⟨t', ht', heq'⟩ := List.mem_map.mp hin
      exact hnone t' ht' heq'
    have hne : m.workId ≠ wid := by
      intro heq
      obtain ⟨t, ht, hm'⟩ := hspawned m hm heq
      exact hnone' t ht hm'
    exact (hinv.unspawned m hm hnone').same (h.work?_ne hne)
  case named =>
    intro name v hv
    rcases h.writes.names name with hsame | ⟨rfl, hnew⟩
    · exact hinv.named name v (hsame.symm.trans hv)
    · obtain rfl := Option.some.inj (hnew.symm.trans hv)
      exact h.planned
  case found =>
    intro q hq hsome
    by_cases hv : q.1 = wid
    · have heq := hp.eq_of_id hq h.planned hv
      subst heq
      exact h.found hsome
    · rw [h.work?_ne hv] at hsome
      exact hlater.named (hinv.found q hq hsome)

end

/-! ## Each step -/

/-- A work that CSDs fill and that has been started has a buffer. -/
theorem work?_isSome_of_status {w : WorkStatus} (h : (s.table wid).status = w)
    (hw : w ≠ .initialized) : ∃ b, s.work? wid = some b := by
  cases hb : s.work? wid with
  | some b => exact ⟨b, rfl⟩
  | none =>
    have hstatus : (s.table wid).status = .initialized := by
      unfold QueryState.table System.work
      have hb : DataBuffer.work? (s.system wid).dataBuffer qid wid = none := hb
      rw [hb]
      rfl
    exact absurd (h.symm.trans hstatus) hw

/-- A step of the receiver or of a merge thread. -/
theorem QueryInv.scan (hp : p.WellFormed qid) (hinv : QueryInv sort p s) (hc : c ∈ p.scans)
    (hpush : ∀ r, e = .push r → r ∈ c.results)
    (h : queryStep sort qid s (.scan c.workId e) = some s') :
    QueryInv sort p s' ∧ Later p s s' := by
  have hwid := hp.ordinary_scan hc
  have hknown := (hp.delivery c hc).known
  have hfits : ∀ r, e = .push r → Fits c.types r := fun r hr => hp.fits hc (hpush r hr)
  have halias : ∀ r, e = .push r → r.tableAlias = c.tableAlias := fun r hr =>
    hp.results c hc r (hpush r hr)
  obtain ⟨hstep, hmerging, hsnippets⟩ := queryStep_scan hwid h
  have hwrites := writes_scan halias hstep
  have hpushed : ∀ r, e.toEvent = .push r → Fits c.types r := by
    intro r hr
    cases e with
    | push r' =>
      cases hr
      exact hfits r rfl
    | pop k r' => cases hr
    | merge k r' => cases hr
  have hnosave : ∀ snippet t offset length, e.toEvent ≠ .save snippet t offset length := by
    intro snippet t offset length hsave
    cases e <;> cases hsave
  have hfed := (hinv.scans c hc).step hwid hknown hpushed hnosave hstep
  have hwork : WritesWork p c.workId c.tableAlias s s' := by
    constructor
    case planned => exact QueryPlan.WellFormed.scan_mem hc
    case writes => exact hwrites
    case merging => exact hmerging
    case found =>
      intro _
      cases hw : s.work? c.workId with
      | some w =>
        have hold := hinv.found _ (QueryPlan.WellFormed.scan_mem hc) (hw ▸ rfl)
        rcases hwrites.names c.tableAlias with hsame | ⟨-, hnew⟩
        · exact hsame.trans hold
        · exact hnew
      | none =>
        -- the first result brings the buffer with its name
        cases e with
        | push r =>
          simp only [ScanEvent.toEvent, step, Option.ite_none_right_eq_some] at hstep
          obtain ⟨⟨hqid, hrwid⟩, hstep⟩ := hstep
          obtain ⟨⟨db, started⟩, hrun, hstep⟩ := Option.bind_eq_some_iff.mp hstep
          have hdb : db = s'.dataBuffer := congrArg System.dataBuffer (Option.some.inj hstep)
          subst hdb
          have hnone : DataBuffer.work? s.dataBuffer r.queryId r.workId = none := by
            rw [hqid, hrwid]
            exact hw
          have hnamed := namedWork_pushResult (hrwid ▸ hwid) hnone hrun
          rw [hqid, hrwid, halias r rfl] at hnamed
          exact hnamed
        | pop k r =>
          obtain ⟨w, hsome, -⟩ := Option.bind_eq_some_iff.mp hstep
          cases hw.symm.trans hsome
        | merge k r =>
          simp only [ScanEvent.toEvent, step] at hstep
          split at hstep
          · simp only [Option.ite_none_right_eq_some] at hstep
            obtain ⟨-, hstep⟩ := hstep
            obtain ⟨⟨db, done⟩, hrun, -⟩ := Option.bind_eq_some_iff.mp hstep
            obtain ⟨w, -, hsome, -⟩ := mergeRound_spec hrun
            cases hw.symm.trans hsome
          · cases hstep
    case done =>
      intro w hw hdone
      have htable := QueryState.table_of_work? hw
      rcases hinv.scans c hc with hnew | ⟨hfill, -⟩
      · have hstatus := congrArg TableData.status htable
        unfold QueryState.table at hstatus
        rw [hnew.fresh.work] at hstatus
        have hcontra : WorkStatus.initialized = .workDone := hstatus.trans hdone
        cases hcontra
      · obtain ⟨-, -, -, hkeep⟩ := hfill.scan hwid hknown hfits hstep
        have hstatus : ((s.system c.workId).work qid c.workId).status = .workDone :=
          (congrArg TableData.status htable).trans hdone
        have htable' : s'.table c.workId = w.table := (hkeep hstatus).trans htable
        obtain ⟨w', hw'⟩ := work?_isSome_of_status
          ((congrArg TableData.status htable').trans hdone) (by decide)
        exact ⟨w', hw', (QueryState.table_of_work? hw').symm.trans htable'⟩
    case filling =>
      intro c' hc' heq hfill
      obtain rfl := hp.scan_eq hc' hc heq
      obtain ⟨hfill', hext, hnames, -⟩ := hfill.scan hwid hknown hfits hstep
      exact ⟨hfill', hext, hnames⟩
  refine ⟨hinv.writes hp hwork ?_ ?_ (by rw [hsnippets]) ?_, hinv.later hp hwork⟩
  · intro c' hc' heq
    obtain rfl := hp.scan_eq hc' hc heq
    exact hfed.1
  · intro t ht
    rw [hsnippets] at ht
    exact .inl ⟨ht, (hp.scan_ne_snippet hc (hinv.threads t ht).1).symm⟩
  · intro m hm heq
    exact absurd heq.symm (hp.scan_ne_snippet hc hm)

/-- The start of a snippet thread. -/
theorem QueryInv.aggregation (hinv : QueryInv sort p s) (hp : p.WellFormed qid)
    (hm : m ∈ p.snippets) (hnew : ∀ t ∈ s.snippets, t.snippet ≠ m)
    (h : queryStep sort qid s (.aggregation m) = some s') :
    QueryInv sort p s' ∧ Later p s s' := by
  obtain ⟨own, rfl⟩ := queryStep_aggregation h
  have hlater : Later p s { s with snippets := s.snippets ++ [⟨m, own, .started⟩] } :=
    ⟨fun h => h, fun h _ => ⟨_, h, rfl⟩, fun _ _ h => ⟨h, .refl _, fun _ h => h⟩⟩
  refine ⟨?_, hlater⟩
  constructor
  case scans => exact hinv.scans
  case threads =>
    intro t ht
    rcases List.mem_append.mp ht with hold | hlast
    · obtain ⟨hplanned, hphase⟩ := hinv.threads t hold
      exact ⟨hplanned, hphase.later hlater t.own rfl⟩
    · obtain rfl := List.mem_singleton.mp hlast
      exact ⟨hm, hinv.unspawned m hm hnew⟩
  case distinct =>
    show (List.map (fun t : SnippetThread qid => t.snippet.workId)
      (s.snippets ++ [⟨m, own, .started⟩])).Nodup
    rw [List.map_append, List.nodup_append]
    refine ⟨hinv.distinct, List.nodup_singleton _, ?_⟩
    intro v hv v' hv' heq
    obtain ⟨t, ht, rfl⟩ := List.mem_map.mp hv
    obtain rfl := List.mem_singleton.mp hv'
    exact hnew t ht (hp.snippet_eq (hinv.threads t ht).1 hm heq)
  case unspawned =>
    intro m' hm' hnone
    exact hinv.unspawned m' hm' fun t ht => hnone t (List.mem_append_left _ ht)
  case named => exact hinv.named
  case found => exact hinv.found

/-- The work of a snippet is new until its thread has saved what the snippet
computes. -/
theorem QueryInv.snippet_work (hinv : QueryInv sort p s) (hm : m ∈ p.snippets) {w : WorkBuffer}
    (hw : s.work? m.workId = some w) :
    w = {} ∨ w.status = .workDone ∧ (∃ t ∈ s.snippets, t.snippet = m ∧ t.phase = .saved) ∧
      m.queryId = qid ∧ m.ComputedFrom sort s.dataBuffer w := by
  have hunwritten : s.Unwritten m.workId → w = {} := by
    intro hnew
    rwa [QueryState.Unwritten, hw, Option.getD_some] at hnew
  by_cases hspawned : ∀ t ∈ s.snippets, t.snippet ≠ m
  · exact .inl (hunwritten (hinv.unspawned m hm hspawned))
  push Not at hspawned
  obtain ⟨t, ht, rfl⟩ := hspawned
  obtain ⟨-, hphase⟩ := hinv.threads t ht
  have hnew : s.work? t.snippet.workId = some {} → w = {} := fun hnew =>
    (Option.some.inj (hnew.symm.trans hw)).symm
  cases hp : t.phase with
  | started =>
    rw [hp] at hphase
    exact .inl (hunwritten hphase)
  | initialized =>
    rw [hp] at hphase
    exact .inl (hnew hphase)
  | reading finished rowIndex delivered =>
    rw [hp] at hphase
    exact .inl (hnew hphase.1)
  | loaded finished delivered =>
    rw [hp] at hphase
    exact .inl (hnew hphase.1)
  | saved =>
    rw [hp] at hphase
    obtain ⟨w', hw', hcomputed⟩ := hphase
    obtain rfl := Option.some.inj (hw'.symm.trans hw)
    have hsaved := hcomputed.choose_spec.choose_spec.2.2
    exact .inr ⟨savedWork_status hsaved, ⟨t, ht, rfl, hp⟩, t.own, hcomputed⟩

/-- A table that has rows and is not finished is one that CSDs fill. -/
theorem QueryInv.unfinished (hinv : QueryInv sort p s) {tableName : String} {v : Int}
    {w : WorkBuffer} (hnamed : s.named tableName = some v) (hw : s.work? v = some w)
    (hstatus : w.status ≠ .workDone) (hrows : 0 < w.rowCount) :
    ∃ c ∈ p.scans, v = c.workId ∧ Filling qid c.workId c.types (s.system c.workId) := by
  rcases QueryPlan.WellFormed.mem_works.mp (hinv.named _ v hnamed) with
    ⟨c, hc, heq⟩ | ⟨m, hm, heq⟩
  · cases heq
    rcases hinv.scans c hc with hnew | ⟨hfill, -⟩
    · have htable := QueryState.table_of_work? hw
      unfold QueryState.table at htable
      rw [hnew.fresh.work] at htable
      have hcount : (0 : Int) = w.rowCount := congrArg TableData.rowCount htable
      omega
    · exact ⟨c, hc, rfl, hfill⟩
  · cases heq
    rcases hinv.snippet_work hm hw with rfl | ⟨hdone, -⟩
    · exact absurd hrows (by decide)
    · exact absurd hdone hstatus

/-- One round of the loop over the second table. -/
theorem QueryInv.read (hinv : QueryInv sort p s) (hown : m.queryId = qid) {finished : TableData}
    {rowIndex : Int} {delivered : List TableData}
    (hread : ReadSoFar p s m rowIndex delivered)
    (h : m.read s.dataBuffer finished rowIndex delivered = some (db', phase)) :
    (∃ delivered', phase = .loaded finished delivered' ∧ m.Delivered s.dataBuffer delivered') ∨
    ∃ rowIndex' delivered', phase = .reading finished rowIndex' delivered' ∧
      rowIndex < rowIndex' ∧ ReadSoFar p s m rowIndex' delivered' := by
  subst hown
  obtain ⟨-, ⟨hnone, rfl⟩ | ⟨i, name, v, w, hreads, hname, hv, hw, hcase⟩⟩ := read_spec h
  · refine .inl ⟨delivered, rfl, ?_⟩
    unfold QuerySnippet.Delivered
    rw [hnone]
    rcases hread with ⟨-, hnothing⟩ | ⟨i, name, c, hreads, -⟩
    · exact hnothing
    · cases hnone.symm.trans hreads
  have hv : s.named name = some v := hv
  have hw : s.work? v = some w := hw
  -- what was read before is of the same table
  have hbefore : rowIndex = 0 ∧ delivered = [] ∨ ∃ c ∈ p.scans, v = c.workId ∧
      Filling m.queryId c.workId c.types (s.system c.workId) ∧
      Growing delivered rowIndex w.table := by
    rcases hread with hnothing | ⟨i', name', c, hreads', hname', hc, hnamed, hfill, hgrowing⟩
    · exact .inl hnothing
    · obtain rfl := Option.some.inj (hreads.symm.trans hreads')
      obtain rfl := Option.some.inj (hname.symm.trans hname')
      obtain rfl := Option.some.inj (hv.symm.trans hnamed)
      exact .inr ⟨c, hc, rfl, hfill, QueryState.table_of_work? hw ▸ hgrowing⟩
  rcases hcase with ⟨hdone, rfl⟩ | ⟨hstatus, hahead, rfl⟩
  · refine .inl ⟨_, rfl, ?_⟩
    unfold QuerySnippet.Delivered
    rw [hreads]
    refine ⟨name, w, hname, ⟨v, hv, hw, hdone⟩, ?_⟩
    rcases hbefore with ⟨-, rfl⟩ | ⟨c, hc, rfl, hfill, hgrowing⟩
    · exact .inl rfl
    · have hwell := hfill.wellFormed
      have htable := QueryState.table_of_work? hw
      unfold QueryState.table at htable
      rw [htable] at hwell
      exact hgrowing.growsTo hwell hdone
  · have hlower : 0 ≤ rowIndex := by
      rcases hbefore with ⟨rfl, -⟩ | ⟨-, -, -, -, hgrowing⟩
      · exact Int.le_refl 0
      · exact hgrowing.lower
    refine .inr ⟨_, _, rfl, by omega, ?_⟩
    obtain ⟨c, hc, rfl, hfill⟩ := hinv.unfinished hv hw hstatus (by omega)
    have htable := QueryState.table_of_work? hw
    have hgrowing : Growing delivered rowIndex w.table := by
      rcases hbefore with ⟨rfl, rfl⟩ | ⟨-, -, -, -, hgrowing⟩
      · exact .nil (by show 0 ≤ w.rowCount; omega)
      · exact hgrowing
    have hwell := hfill.wellFormed
    unfold QueryState.table at htable
    rw [htable] at hwell
    refine .inr ⟨i, name, c, hreads, hname, hc, hv, hfill, ?_⟩
    unfold QueryState.table
    rw [htable]
    exact hgrowing.read hwell hstatus

/-- A snippet thread that goes on has a new work from `InitializeBuffer` on. -/
theorem QueryInv.work_of_next (hinv : QueryInv sort p s) {t : SnippetThread qid}
    (ht : t ∈ s.snippets) (h : t.next sort s.dataBuffer = some (db', phase)) :
    t.phase = .started ∧ s.Unwritten t.snippet.workId ∨
      t.phase ≠ .started ∧ s.work? t.snippet.workId = some {} := by
  obtain ⟨-, hphase⟩ := hinv.threads t ht
  unfold SnippetThread.next at h
  cases hp : t.phase with
  | started =>
    rw [hp] at hphase
    exact .inl ⟨rfl, hphase⟩
  | initialized =>
    rw [hp] at hphase
    exact .inr ⟨by simp, hphase⟩
  | reading finished rowIndex delivered =>
    rw [hp] at hphase
    exact .inr ⟨by simp, hphase.1⟩
  | loaded finished delivered =>
    rw [hp] at hphase
    exact .inr ⟨by simp, hphase.1⟩
  | saved =>
    rw [hp] at h
    cases h

/-- What the next step of a snippet thread writes. -/
theorem QueryInv.writes_next (hp : p.WellFormed qid) (hinv : QueryInv sort p s)
    {t : SnippetThread qid} (ht : t ∈ s.snippets)
    (h : t.next sort s.dataBuffer = some (s'.dataBuffer, phase))
    (hmerging : s'.merging = s.merging) :
    WritesWork p t.snippet.workId t.snippet.tableAlias s s' := by
  have hplanned := (hinv.threads t ht).1
  have hmem := QueryPlan.WellFormed.snippet_mem hplanned
  have hwrites := Merging.writes_next h
  constructor
  case planned => exact hmem
  case writes => exact hwrites
  case merging => exact fun v _ => congrFun hmerging v
  case found =>
    intro _
    cases hw : s.work? t.snippet.workId with
    | none =>
      -- the first step brings the buffer with its name
      rcases hinv.work_of_next ht h with ⟨hstarted, -⟩ | ⟨-, hnew⟩
      · simp only [SnippetThread.next, hstarted, Option.some.injEq, Prod.mk.injEq] at h
        unfold QueryState.named
        rw [← h.1]
        exact namedWork_initializeBuffer _ (hp.ordinary_snippet hplanned) hw
      · cases hw.symm.trans hnew
    | some w =>
      rcases hwrites.names t.snippet.tableAlias with hsame | ⟨-, hwritten⟩
      · exact hsame.trans (hinv.found _ hmem (hw ▸ rfl))
      · exact hwritten
  case done =>
    intro w hw hdone
    rcases hinv.work_of_next ht h with ⟨-, hunwritten⟩ | ⟨-, hnew⟩
    · rw [QueryState.Unwritten, hw, Option.getD_some] at hunwritten
      subst hunwritten
      cases hdone
    · obtain rfl := Option.some.inj (hnew.symm.trans hw)
      cases hdone
  case filling => exact fun c hc heq => absurd heq (hp.scan_ne_snippet hc hplanned)

/-- **The next step of a snippet thread** takes it where it should be. -/
theorem QueryInv.phaseOk_next (hp : p.WellFormed qid) (hinv : QueryInv sort p s)
    {t : SnippetThread qid} (ht : t ∈ s.snippets)
    (h : t.next sort s.dataBuffer = some (s'.dataBuffer, phase))
    (hmerging : s'.merging = s.merging) : PhaseOk sort p s' t.snippet phase := by
  have hlater := hinv.later hp (hinv.writes_next hp ht h hmerging)
  obtain ⟨hplanned, hphase⟩ := hinv.threads t ht
  have hown := t.own
  -- a step that reads leaves the work of the snippet
  have hsame : s'.dataBuffer.query qid = s.dataBuffer.query qid →
      s'.work? t.snippet.workId = s.work? t.snippet.workId := by
    intro hquery
    unfold QueryState.work? DataBuffer.work?
    rw [hquery]
  unfold SnippetThread.next at h
  cases hp' : t.phase with
  | started =>
    rw [hp'] at h hphase
    have hunwritten : (DataBuffer.work? s.dataBuffer qid t.snippet.workId).getD {} = {} := hphase
    simp only [Option.some.injEq, Prod.mk.injEq] at h
    obtain ⟨hdb, rfl⟩ := h
    show s'.work? t.snippet.workId = some {}
    unfold QueryState.work?
    rw [← hdb, work?_initializeBuffer _ _ (hp.ordinary_snippet hplanned), hunwritten]
  | initialized =>
    rw [hp'] at h hphase
    obtain ⟨hquery, finished, rfl, hfetched⟩ := fetch_spec h
    rw [hown] at hquery
    exact ⟨(hsame hquery).trans hphase, hlater.fetched hown hfetched, .inl ⟨rfl, rfl⟩⟩
  | reading finished rowIndex delivered =>
    rw [hp'] at h hphase
    obtain ⟨hnew, hfetched, hread⟩ := hphase
    obtain ⟨hquery, -⟩ := read_spec h
    rw [hown] at hquery
    have hnew' := (hsame hquery).trans hnew
    rcases hinv.read hown hread h with ⟨delivered', rfl, hdelivered⟩ |
      ⟨rowIndex', delivered', rfl, -, hread'⟩
    · exact ⟨hnew', hlater.fetched hown hfetched, hlater.delivered hown hdelivered⟩
    · exact ⟨hnew', hlater.fetched hown hfetched, hread'.later hlater⟩
  | loaded finished delivered =>
    rw [hp'] at h hphase
    obtain ⟨hnew, hfetched, hdelivered⟩ := hphase
    obtain ⟨db, hrun, h⟩ := Option.bind_eq_some_iff.mp h
    simp only [Option.pure_def, Option.some.injEq, Prod.mk.injEq] at h
    obtain ⟨rfl, rfl⟩ := h
    have hwork : DataBuffer.work? s.dataBuffer t.snippet.queryId t.snippet.workId = some {} := by
      rw [hown]
      exact hnew
    obtain ⟨-, w, hsaved, hw⟩ := runSnippetWork_spec hwork hrun
    rw [hown] at hw
    exact ⟨w, hw, finished, delivered, hlater.fetched hown hfetched,
      hlater.delivered hown hdelivered, hsaved⟩
  | saved =>
    rw [hp'] at h
    cases h

/-- The threads after one of them went on. -/
theorem mem_set_thread {ts : List (SnippetThread qid)} {k : Nat} {t t' u : SnippetThread qid}
    (hdistinct : (ts.map (·.snippet.workId)).Nodup) (hk : ts[k]? = some t)
    (hu : u ∈ ts.set k t') : u = t' ∨ u ∈ ts ∧ u.snippet.workId ≠ t.snippet.workId := by
  obtain ⟨j, hj⟩ := List.getElem?_of_mem hu
  rw [List.getElem?_set] at hj
  by_cases hjk : k = j
  · rw [if_pos hjk] at hj
    split at hj
    · exact .inl (Option.some.inj hj).symm
    · cases hj
  · rw [if_neg hjk] at hj
    refine .inr ⟨List.mem_of_getElem? hj, fun heq => hjk ?_⟩
    obtain ⟨hlt, rfl⟩ := List.getElem?_eq_some_iff.mp hk
    obtain ⟨hlt', rfl⟩ := List.getElem?_eq_some_iff.mp hj
    have hk' : k < (ts.map (·.snippet.workId)).length := by simpa using hlt
    have hj' : j < (ts.map (·.snippet.workId)).length := by simpa using hlt'
    have hids : (ts.map (·.snippet.workId))[k] = (ts.map (·.snippet.workId))[j] := by
      simpa using heq.symm
    exact hdistinct.getElem_inj_iff.mp hids

/-- A step of a thread leaves it its snippet. -/
theorem snippet_map {k : Nat} (h : queryStep sort qid s (.snippet k) = some s') :
    s'.snippets.map (·.snippet) = s.snippets.map (·.snippet) := by
  obtain ⟨t, phase, hk, -, -, hsnippets⟩ := queryStep_snippet h
  have hsame : (s.snippets.map (·.snippet))[k]? = some t.snippet := by simp [hk]
  obtain ⟨hlt, hget⟩ := List.getElem?_eq_some_iff.mp hsame
  rw [hsnippets, List.map_set]
  show (s.snippets.map (·.snippet)).set k t.snippet = _
  rw [← hget, List.set_getElem_self]

/-- The next step of a snippet thread. -/
theorem QueryInv.snippet (hp : p.WellFormed qid) (hinv : QueryInv sort p s) {k : Nat}
    (h : queryStep sort qid s (.snippet k) = some s') :
    QueryInv sort p s' ∧ Later p s s' := by
  obtain ⟨t, phase, hk, hnext, hmerging, hsnippets⟩ := queryStep_snippet h
  have ht := List.mem_of_getElem? hk
  have hplanned := (hinv.threads t ht).1
  have hwork := hinv.writes_next hp ht hnext hmerging
  have hphase := hinv.phaseOk_next hp ht hnext hmerging
  refine ⟨hinv.writes hp hwork ?_ ?_ ?_ ?_, hinv.later hp hwork⟩
  · exact fun c hc heq => absurd heq (hp.scan_ne_snippet hc hplanned)
  · intro u hu
    rw [hsnippets] at hu
    rcases mem_set_thread hinv.distinct hk hu with rfl | hold
    · exact .inr ⟨hplanned, hphase⟩
    · exact .inl hold
  · exact snippet_map h
  · exact fun m hm heq => ⟨t, ht, hp.snippet_eq hplanned hm heq.symm⟩

/-- What `initializeBuffer` does for a call that asks for a work. -/
theorem queryStep_enter {request : Request}
    (h : queryStep sort qid s (.enter request) = some s') :
    s' = { s with
      dataBuffer := initializeBuffer s.dataBuffer qid request.workId request.tableName } := by
  simp only [queryStep] at h
  split at h
  · cases h
    rfl
  · cases h

/-- The arrival of a call that asks for a work of the plan. -/
theorem QueryInv.enter (hp : p.WellFormed qid) (hinv : QueryInv sort p s) {request : Request}
    (hasked : request.workId = -1 ∨ (request.workId, request.tableName) ∈ p.works)
    (h : queryStep sort qid s (.enter request) = some s') :
    QueryInv sort p s' ∧ Later p s s' := by
  obtain rfl := queryStep_enter h
  let s' : QueryState qid := { s with
    dataBuffer := initializeBuffer s.dataBuffer qid request.workId request.tableName }
  have hwrites : Writes qid request.workId request.tableName s.dataBuffer s'.dataBuffer :=
    writes_initializeBuffer _ _ _ _
  have hkept : ∀ {v w}, s.work? v = some w → s'.work? v = some w := fun hw =>
    work?_initializeBuffer_of_some _ _ hw
  have hwork : ∀ v, (s'.system v).work qid v = (s.system v).work qid v := fun v =>
    getD_work?_initializeBuffer _ _ _ _ _
  have hnames : ∀ name, s'.named name = s.named name ∨
      (request.workId, name) ∈ p.works ∧ s'.named name = some request.workId := by
    intro name
    rcases hasked with hminus | hplanned
    · refine .inl ?_
      show namedWork s'.dataBuffer qid name = namedWork s.dataBuffer qid name
      rw [namedWork_eq, namedWork_eq, query_initializeBuffer, QueryBuffer.initialized,
        if_pos (.inl hminus)]
    · rcases hwrites.names name with hsame | ⟨rfl, hnew⟩
      · exact .inl hsame
      · exact .inr ⟨hplanned, hnew⟩
  have hlater : Later p s s' := by
    constructor
    case named =>
      intro name v hv
      rcases hnames name with hsame | ⟨hplanned, hnew⟩
      · exact hsame.trans hv
      · have heq := hp.eq_of_name (hinv.named name v hv) hplanned rfl
        rw [Prod.mk.injEq] at heq
        rw [heq.1]
        exact hnew
    case done => exact fun hw _ => ⟨_, hkept hw, rfl⟩
    case filling =>
      intro c hc hfill
      have htable : s'.table c.workId = s.table c.workId := congrArg WorkBuffer.table (hwork _)
      rw [htable]
      exact ⟨hfill.same (hwork _) rfl, .refl _, fun _ hname => hname⟩
  refine ⟨?_, hlater⟩
  constructor
  case scans => exact fun c hc => (hinv.scans c hc).same (hwork _) rfl rfl
  case threads =>
    intro t ht
    obtain ⟨hplanned, hphase⟩ := hinv.threads t ht
    refine ⟨hplanned, ?_⟩
    by_cases hstarted : t.phase = .started
    · rw [hstarted] at hphase ⊢
      exact (hwork _).trans hphase
    · obtain ⟨w, hw⟩ := hphase.work?_isSome hstarted
      exact hphase.later hlater t.own ((hkept hw).trans hw.symm)
  case distinct => exact hinv.distinct
  case unspawned => exact fun m hm hnone => (hwork _).trans (hinv.unspawned m hm hnone)
  case named =>
    intro name v hv
    rcases hnames name with hsame | ⟨hplanned, hnew⟩
    · exact hinv.named name v (hsame.symm.trans hv)
    · obtain rfl := Option.some.inj (hnew.symm.trans hv)
      exact hplanned
  case found =>
    intro q hq hsome
    cases hw : s.work? q.1 with
    | some w => exact hlater.named (hinv.found q hq (hw ▸ rfl))
    | none =>
      -- the call brings the buffer with its name
      have hid : q.1 = request.workId := by
        by_contra hne
        have hsame : s'.work? q.1 = s.work? q.1 := hwrites.works _ hne
        rw [show QueryState.work? _ q.1 = _ from hsame, hw] at hsome
        cases hsome
      have hminus : request.workId ≠ -1 := hid ▸ hp.ordinary q hq
      have hname : q.2 = request.tableName :=
        congrArg Prod.snd (hp.eq_of_id hq (hasked.resolve_left hminus) hid)
      rw [hid, hname]
      exact namedWork_initializeBuffer _ hminus (hid ▸ hw)

/-! ## Every run -/

theorem Later.trans {s'' : QueryState qid} (h : Later p s s') (h' : Later p s' s'') :
    Later p s s'' := by
  constructor
  case named => exact fun hv => h'.named (h.named hv)
  case done =>
    intro v w hw hdone
    obtain ⟨w', hw', htable⟩ := h.done hw hdone
    obtain ⟨w'', hw'', htable'⟩ := h'.done hw' ((congrArg TableData.status htable).trans hdone)
    exact ⟨w'', hw'', htable'.trans htable⟩
  case filling =>
    intro c hc hfill
    obtain ⟨hfill', hext, hnames⟩ := h.filling c hc hfill
    obtain ⟨hfill'', hext', hnames'⟩ := h'.filling c hc hfill'
    exact ⟨hfill'', hext.trans hext', fun name hname => hnames name (hnames' name hname)⟩

/-- What holds after the events `es` of a planned query. -/
structure Reached (sort : SortFunction) (p : QueryPlan) (es : List QueryEvent)
    (s : QueryState qid) : Prop where
  inv : QueryInv sort p s
  snippets : s.snippets.map (·.snippet) = spawned es

theorem pushes_concat {es : List QueryEvent} {r : BlockResult}
    (he : e = .push r) :
    pushes (scanEvents wid (es ++ [.scan wid e])) = pushes (scanEvents wid es) ++ [r] := by
  subst he
  simp [scanEvents, pushes, ScanEvent.toEvent]

/-- **One step** of a planned query. -/
theorem Reached.step {es : List QueryEvent} {e : QueryEvent} (hp : p.WellFormed qid)
    (h : Reached sort p es s) (hf : Follows p (es ++ [e]))
    (hstep : queryStep sort qid s e = some s') :
    Reached sort p (es ++ [e]) s' ∧ Later p s s' := by
  have hlast : e ∈ es ++ [e] := List.mem_append_right _ (List.mem_singleton_self e)
  cases e with
  | scan wid e =>
    obtain ⟨c, hc, rfl⟩ := hf.scans wid e hlast
    have hpush : ∀ r, e = .push r → r ∈ c.results := by
      intro r hr
      refine (hf.pushes c hc).subset ?_
      rw [pushes_concat hr]
      exact List.mem_append_right _ (List.mem_singleton_self r)
    obtain ⟨hinv, hlater⟩ := h.inv.scan hp hc hpush hstep
    obtain ⟨-, -, hsnippets⟩ := queryStep_scan (hp.ordinary_scan hc) hstep
    refine ⟨⟨hinv, ?_⟩, hlater⟩
    rw [hsnippets, h.snippets]
    simp [spawned]
  | aggregation m =>
    have hspawned : spawned (es ++ [.aggregation m]) = spawned es ++ [m] := by simp [spawned]
    have hsub := hf.snippets
    rw [hspawned] at hsub
    have hm : m ∈ p.snippets := hsub.subset (by simp)
    obtain ⟨l, hperm, hsublist⟩ := hsub
    have hnodup : (spawned es ++ [m]).Nodup :=
      hperm.nodup_iff.mp (hsublist.nodup hp.snippet_ids.of_map)
    have hnew : ∀ t ∈ s.snippets, t.snippet ≠ m := by
      intro t ht heq
      have hin : m ∈ spawned es := by
        rw [← h.snippets]
        exact List.mem_map.mpr ⟨t, ht, heq⟩
      exact (List.nodup_append.mp hnodup).2.2 m hin m (List.mem_singleton_self m) rfl
    obtain ⟨hinv, hlater⟩ := h.inv.aggregation hp hm hnew hstep
    refine ⟨⟨hinv, ?_⟩, hlater⟩
    obtain ⟨own, rfl⟩ := queryStep_aggregation hstep
    rw [hspawned, ← h.snippets]
    exact List.map_append
  | snippet k =>
    obtain ⟨hinv, hlater⟩ := h.inv.snippet hp hstep
    refine ⟨⟨hinv, ?_⟩, hlater⟩
    rw [snippet_map hstep, h.snippets]
    simp [spawned]
  | enter request =>
    obtain ⟨hinv, hlater⟩ := h.inv.enter hp (hf.asked request hlast) hstep
    refine ⟨⟨hinv, ?_⟩, hlater⟩
    rw [queryStep_enter hstep, h.snippets]
    simp [spawned]
  | getQueryResult request => exact absurd hlast (hf.unanswered request)

/-- **Every run** of a planned query. -/
theorem Reached.run {es es' : List QueryEvent} (hp : p.WellFormed qid) (h : Reached sort p es s)
    (hf : Follows p (es ++ es')) (hrun : Runs.run (queryStep sort qid) s es' = some s') :
    Reached sort p (es ++ es') s' ∧ Later p s s' := by
  induction es' generalizing es s with
  | nil =>
    cases hrun
    rw [List.append_nil]
    exact ⟨h, .refl p _⟩
  | cons e es' ih =>
    obtain ⟨t, hstep, hrest⟩ := run_cons_some hrun
    rw [List.append_cons] at hf ⊢
    obtain ⟨ht, hlater⟩ := h.step hp hf.of_append hstep
    obtain ⟨hs', hlater'⟩ := ih ht hf hrest
    exact ⟨hs', hlater.trans hlater'⟩

theorem reached_of_run {es : List QueryEvent} (hp : p.WellFormed qid) (hf : Follows p es)
    (hrun : Runs.run (queryStep sort qid) {} es = some s) : Reached sort p es s := by
  have hinitial : Reached sort p [] ({} : QueryState qid) := ⟨.initial, rfl⟩
  exact (hinitial.run hp hf hrun).1

end KetiEngine.Merging
