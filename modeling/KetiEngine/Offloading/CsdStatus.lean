import KetiEngine.Offloading.Scheduler
import Mathlib.Data.List.ReduceOption

/-!
# CsdStatus — what the scheduler knows about the CSDs

`CSDStatusManager`: the status of a CSD is the last one that was pushed or
pulled. A CSD that is only asked for gets an entry of zeros, so DCS leaves the
scores as they are.
-/

namespace KetiEngine.Offloading

open KetiEngine

/-! ## The status manager -/

structure CsdInfo where
  csdIp : String := ""
  cpuUsage : ℚ := 0
  memoryUsage : ℚ := 0
  diskUsage : ℚ := 0
  network : ℚ := 0
  workingBlockCount : ℚ := 0
  analysisScore : ℚ := 0
  deriving DecidableEq

/-- `CSDStatusManager_`. -/
abbrev CsdStatusManager := AList (fun _ : String => CsdInfo)

def setCsdInfo (status : CsdStatusManager) (id : String) (csdInfo : CsdInfo) : CsdStatusManager :=
  status.insert id csdInfo

/-- `CSDStatusManager_[id]` makes an entry where there is none. -/
def getCsdInfo (status : CsdStatusManager) (id : String) : CsdInfo × CsdStatusManager :=
  match status.lookup id with
  | some csdInfo => (csdInfo, status)
  | none => ({}, status.insert id {})

/-- `CSDMetricList.CSDMetric`. -/
structure CsdMetric where
  id : String
  ip : String
  cpuUsage : ℚ
  memoryUsage : ℚ
  diskUsage : ℚ
  network : ℚ
  workingBlockCount : Int
  score : ℚ
  deriving DecidableEq

/-- The `csdInfo` of a metric; the IP is not taken over. -/
def CsdMetric.csdInfo (entry : CsdMetric) : CsdInfo where
  cpuUsage := entry.cpuUsage
  memoryUsage := entry.memoryUsage
  diskUsage := entry.diskUsage
  network := entry.network
  workingBlockCount := entry.workingBlockCount
  analysisScore := entry.score

/-- `PushCSDMetric`. -/
def pushCsdMetric (status : CsdStatusManager) (metric : List CsdMetric) : CsdStatusManager :=
  metric.foldl (fun status entry => setCsdInfo status entry.id entry.csdInfo) status

/-- An object in an array of `csdList`: the members that have the type asked
for. -/
structure CsdElement where
  id : Option String := none
  ip : Option String := none
  cpuUtilization : Option ℚ := none
  memoryUtilization : Option ℚ := none
  diskUtilization : Option ℚ := none
  networkBandwidth : Option ℚ := none
  csdWorkingBlockCount : Option ℚ := none
  csdMetricScore : Option ℚ := none
  deriving DecidableEq

def CsdElement.csdInfo (elem : CsdElement) : CsdInfo where
  csdIp := elem.ip.getD ""
  cpuUsage := elem.cpuUtilization.getD 0
  memoryUsage := elem.memoryUtilization.getD 0
  diskUsage := elem.diskUtilization.getD 0
  network := elem.networkBandwidth.getD 0
  workingBlockCount := elem.csdWorkingBlockCount.getD 0
  analysisScore := elem.csdMetricScore.getD 0

/-- The object `csdList`: an array of objects for each key, where it is one. -/
abbrev CsdList := List (String × Option (List (Option CsdElement)))

/-- `pullCSDStatus` from the document on; `none` has no object `csdList`. -/
def pullCsdStatus (status : CsdStatusManager) (doc : Option CsdList) : CsdStatusManager :=
  (doc.getD []).foldl (fun status itr =>
    (itr.2.getD []).foldl (fun status elem =>
      match elem with
      | none => status
      | some elem => status.insert (elem.id.getD itr.1) elem.csdInfo) status) status

/-! ## DCS with the status manager -/

/-- `csd_score` of a replica. -/
def dcsScoreOn (csdPenaltyMap : CsdMap) (status : CsdStatusManager) (csdId : String) :
    ℚ × CsdStatusManager :=
  let (csdInfo, status) := getCsdInfo status ("csd" ++ csdId)
  match csdPenaltyMap.lookup csdId with
  | none => (csdInfo.analysisScore, status)
  | some penalty => (csdInfo.analysisScore / penalty, status)

def dcsSelectOn (csdPenaltyMap : CsdMap) (csd : List SstCsd) (status : CsdStatusManager) :
    String × CsdStatusManager :=
  let csdMaxScore : ℚ := -1
  csd.foldl (fun st c =>
    let (csdScore, status) := dcsScoreOn csdPenaltyMap st.2 c.csdId
    (if csdMaxScore < csdScore then c.csdId else st.1, status)) ("", status)

def dcsStepOn (st : (SortedMap String String × CsdMap) × CsdStatusManager) (sst : SstInfo) :
    (SortedMap String String × CsdMap) × CsdStatusManager :=
  match sst.csd with
  | [c] =>
      ((st.1.1.insert sst.sstName c.csdId,
        st.1.2.insert c.csdId ((st.1.2.lookup c.csdId).elim 2 (· + 1))), st.2)
  | csd =>
      let (selectedCsd, status) := dcsSelectOn st.1.2 csd st.2
      ((st.1.1.insert sst.sstName selectedCsd, st.1.2), status)

def dcsAlgorithmOn (status : CsdStatusManager) (sstInfo : List SstInfo) :
    SortedMap String String × CsdStatusManager :=
  let ((bestcsd, _), status) := sstInfo.foldl dcsStepOn ((∅, ∅), status)
  (bestcsd, status)

def runAlgorithmOn (rounds : Nat) (status : CsdStatusManager) (sstInfo : List SstInfo) :
    Algorithm → Except Failure (SortedMap String String × CsdStatusManager)
  | .dcs => .ok (dcsAlgorithmOn status sstInfo)
  | .dsi => (dsiAlgorithm sstInfo).elim (.error .emptyStack) fun bestcsd => .ok (bestcsd, status)
  | .dfa => (dfaAlgorithm rounds sstInfo).map fun bestcsd => (bestcsd, status)

/-- `getBestCSD`. -/
def getBestCsdOn (rounds : Nat) (status : CsdStatusManager) (sstInfo : List SstInfo) :
    SchedulingType → Except Failure (SortedMap String String × CsdStatusManager)
  | .fixed algorithm => runAlgorithmOn rounds status sstInfo algorithm
  | .autoSelection => do
      let algorithm ← selectAlgorithm sstInfo
      runAlgorithmOn rounds status sstInfo algorithm

/-! ## Scores -/

/-- The score DCS finds for a key. -/
def CsdStatusManager.score (status : CsdStatusManager) (csdKey : String) : ℚ :=
  (status.lookup csdKey).elim 0 (·.analysisScore)

/-- The status after a key has been asked for. -/
def CsdStatusManager.ask (status : CsdStatusManager) (csdKey : String) : CsdStatusManager :=
  (getCsdInfo status csdKey).2

theorem getCsdInfo_analysisScore (status : CsdStatusManager) (csdKey : String) :
    (getCsdInfo status csdKey).1.analysisScore = CsdStatusManager.score status csdKey := by
  unfold getCsdInfo CsdStatusManager.score
  cases status.lookup csdKey <;> rfl

/-- Asking changes no score. -/
theorem score_ask (status : CsdStatusManager) (csdKey : String) :
    CsdStatusManager.score (CsdStatusManager.ask status csdKey) =
      CsdStatusManager.score status := by
  funext key
  unfold CsdStatusManager.ask getCsdInfo
  cases h : status.lookup csdKey with
  | some csdInfo => rfl
  | none =>
    unfold CsdStatusManager.score
    by_cases hkey : key = csdKey
    · subst hkey
      rw [AList.lookup_insert, h]
      rfl
    · rw [AList.lookup_insert_ne hkey]

/-- The keys DCS asks for. -/
def dcsKeys (sstInfo : List SstInfo) : List String :=
  sstInfo.flatMap fun sst =>
    if sst.csd.length = 1 then [] else sst.csd.map fun c => "csd" ++ c.csdId

theorem score_foldl_ask (status : CsdStatusManager) (keys : List String) :
    CsdStatusManager.score (keys.foldl CsdStatusManager.ask status) =
      CsdStatusManager.score status := by
  induction keys generalizing status with
  | nil => rfl
  | cons key keys ih =>
    rw [List.foldl_cons, ih, score_ask]

theorem dcsScoreOn_eq (csdPenaltyMap : CsdMap) (status : CsdStatusManager) (csdId : String) :
    dcsScoreOn csdPenaltyMap status csdId =
      (dcsScore (CsdStatusManager.score status) csdPenaltyMap csdId,
        CsdStatusManager.ask status ("csd" ++ csdId)) := by
  have hscore := getCsdInfo_analysisScore status ("csd" ++ csdId)
  unfold dcsScoreOn dcsScore CsdStatusManager.ask
  cases csdPenaltyMap.lookup csdId with
  | none => simp only [hscore]
  | some penalty => simp only [hscore]

theorem dcsSelectOn_eq (csdPenaltyMap : CsdMap) (csd : List SstCsd) (status : CsdStatusManager) :
    dcsSelectOn csdPenaltyMap csd status =
      (dcsSelect (CsdStatusManager.score status) csdPenaltyMap csd,
        (csd.map fun c => "csd" ++ c.csdId).foldl CsdStatusManager.ask status) := by
  simp only [dcsSelectOn, dcsSelect, dcsScoreOn_eq]
  generalize "" = selectedCsd
  induction csd generalizing selectedCsd status with
  | nil => rfl
  | cons c csd ih =>
    rw [List.foldl_cons, ih, score_ask]
    rfl

/-- One SST: the same choice, and its keys have been asked for. -/
theorem dcsStepOn_eq (st : SortedMap String String × CsdMap) (status : CsdStatusManager)
    (sst : SstInfo) :
    dcsStepOn (st, status) sst =
      (dcsStep (CsdStatusManager.score status) st sst,
        (dcsKeys [sst]).foldl CsdStatusManager.ask status) := by
  unfold dcsStepOn dcsStep dcsKeys
  match hcsd : sst.csd with
  | [c] => simp [hcsd]
  | [] => simp [hcsd, dcsSelectOn_eq]
  | c :: d :: rest => simp [hcsd, dcsSelectOn_eq]

/-- DCS decides by the scores as they are when it starts. -/
theorem dcsAlgorithmOn_eq (status : CsdStatusManager) (sstInfo : List SstInfo) :
    dcsAlgorithmOn status sstInfo =
      (dcsAlgorithm (CsdStatusManager.score status) sstInfo,
        (dcsKeys sstInfo).foldl CsdStatusManager.ask status) := by
  have hfold : ∀ st : SortedMap String String × CsdMap,
      sstInfo.foldl dcsStepOn (st, status) =
        (sstInfo.foldl (dcsStep (CsdStatusManager.score status)) st,
          (dcsKeys sstInfo).foldl CsdStatusManager.ask status) := by
    induction sstInfo generalizing status with
    | nil => exact fun _ => rfl
    | cons sst rest ih =>
      intro st
      have hkeys : dcsKeys (sst :: rest) = dcsKeys [sst] ++ dcsKeys rest := by simp [dcsKeys]
      rw [List.foldl_cons, dcsStepOn_eq, ih, score_foldl_ask, List.foldl_cons, hkeys,
        List.foldl_append]
  unfold dcsAlgorithmOn dcsAlgorithm
  rw [hfold]

/-- **`getBestCSD` decides by the scores as they are**, whichever algorithm
runs; it adds entries for the CSDs it asked for. -/
theorem getBestCsdOn_eq (rounds : Nat) (status : CsdStatusManager) (sstInfo : List SstInfo)
    (type : SchedulingType) : ∃ keys : List String,
      getBestCsdOn rounds status sstInfo type =
        (getBestCsd rounds (CsdStatusManager.score status) sstInfo type).map fun bestcsd =>
          (bestcsd, keys.foldl CsdStatusManager.ask status) := by
  have hrun : ∀ algorithm, ∃ keys : List String,
      runAlgorithmOn rounds status sstInfo algorithm =
        (runAlgorithm rounds (CsdStatusManager.score status) sstInfo algorithm).map fun bestcsd =>
          (bestcsd, keys.foldl CsdStatusManager.ask status) := by
    intro algorithm
    cases algorithm with
    | dcs =>
      refine ⟨dcsKeys sstInfo, ?_⟩
      rw [runAlgorithmOn, dcsAlgorithmOn_eq]
      rfl
    | dsi =>
      refine ⟨[], ?_⟩
      unfold runAlgorithmOn runAlgorithm
      cases dsiAlgorithm sstInfo <;> rfl
    | dfa => exact ⟨[], rfl⟩
  cases type with
  | fixed algorithm => exact hrun algorithm
  | autoSelection =>
    unfold getBestCsdOn getBestCsd
    cases selectAlgorithm sstInfo with
    | error failure => exact ⟨[], rfl⟩
    | ok algorithm => exact hrun algorithm

/-! ## Reports -/

/-- The reports of `PushCSDMetric`. -/
def pushReports (metric : List CsdMetric) : List (String × CsdInfo) :=
  metric.map fun entry => (entry.id, entry.csdInfo)

/-- The reports of `pullCSDStatus`: an object without an `id` is about the CSD
of its key. -/
def pullReports (doc : Option CsdList) : List (String × CsdInfo) :=
  (doc.getD []).flatMap fun itr =>
    ((itr.2.getD []).reduceOption).map fun elem => (elem.id.getD itr.1, elem.csdInfo)

/-- The last report about a CSD. -/
def lastReport (reports : List (String × CsdInfo)) (id : String) : Option CsdInfo :=
  (reports.reverse.find? (·.1 = id)).map Prod.snd

theorem lastReport_append (reports more : List (String × CsdInfo)) (id : String) :
    lastReport (reports ++ more) id = (lastReport more id).or (lastReport reports id) := by
  unfold lastReport
  rw [List.reverse_append, List.find?_append]
  cases more.reverse.find? (·.1 = id) <;> rfl

/-- The status with reports taken over one after the other. -/
def CsdStatusManager.record (status : CsdStatusManager) (reports : List (String × CsdInfo)) :
    CsdStatusManager :=
  reports.foldl (fun status r => status.insert r.1 r.2) status

theorem pushCsdMetric_eq (status : CsdStatusManager) (metric : List CsdMetric) :
    pushCsdMetric status metric = CsdStatusManager.record status (pushReports metric) := by
  unfold pushCsdMetric CsdStatusManager.record pushReports
  rw [List.foldl_map]
  rfl

theorem pullCsdStatus_eq (status : CsdStatusManager) (doc : Option CsdList) :
    pullCsdStatus status doc = CsdStatusManager.record status (pullReports doc) := by
  unfold pullCsdStatus CsdStatusManager.record pullReports
  induction doc.getD [] generalizing status with
  | nil => rfl
  | cons itr rest ih =>
    rw [List.foldl_cons, ih, List.flatMap_cons, List.foldl_append]
    congr 1
    induction itr.2.getD [] generalizing status with
    | nil => rfl
    | cons elem elems ihe =>
      rw [List.foldl_cons, ihe]
      cases elem with
      | none => rfl
      | some elem => rfl

theorem lookup_record (status : CsdStatusManager) (reports : List (String × CsdInfo))
    (id : String) :
    (CsdStatusManager.record status reports).lookup id =
      (lastReport reports id).or (status.lookup id) := by
  induction reports generalizing status with
  | nil => rfl
  | cons r reports ih =>
    show (CsdStatusManager.record (status.insert r.1 r.2) reports).lookup id = _
    have hone : lastReport [r] id = if r.1 = id then some r.2 else none := by
      by_cases hr : r.1 = id <;> simp [lastReport, hr]
    rw [ih, ← List.singleton_append, lastReport_append, hone, Option.or_assoc]
    congr 1
    by_cases hr : r.1 = id
    · subst hr
      rw [if_pos rfl, AList.lookup_insert]
      rfl
    · rw [if_neg hr, AList.lookup_insert_ne (Ne.symm hr)]
      rfl

end KetiEngine.Offloading
