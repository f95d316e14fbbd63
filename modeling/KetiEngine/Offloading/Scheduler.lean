import KetiEngine.Snippet
import KetiEngine.Double
import KetiEngine.Lib.SortedMap
import Mathlib.Data.List.AList
import Mathlib.Data.String.Basic

/-!
# Scheduler — which replica of an SST is scanned

The scheduling algorithms of `snippet_scheduler.cc`: by the status of the CSDs
(DCS), by a search over all placements (DSI), the first CSD that is available
(DFA), and the choice among the three.
-/

namespace KetiEngine.Offloading

open KetiEngine

/-- How a piece of the source fails to come to a result. -/
inductive Failure where
  | outOfRange
  | emptyStack
  | divisionByZero
  | overflow
  /-- It has not ended after the rounds it was given. -/
  | running
  deriving DecidableEq, Repr

/-- `csd_penalty_map` and `csd_count_map`, an `unordered_map<string, int>`. -/
abbrev CsdMap := AList (fun _ : String => Int)

/-! ## DCS -/

/-- `csd_score` of a replica. The status manager is asked for the score of a
CSD by its key. -/
def dcsScore (analysisScore : String → ℚ) (csdPenaltyMap : CsdMap) (csdId : String) : ℚ :=
  match csdPenaltyMap.lookup csdId with
  | none => analysisScore ("csd" ++ csdId)
  | some penalty => analysisScore ("csd" ++ csdId) / penalty

/-- The loop over the replicas. `csd_max_score` is never assigned in it. -/
def dcsSelect (analysisScore : String → ℚ) (csdPenaltyMap : CsdMap) (csd : List SstCsd) :
    String :=
  let csdMaxScore : ℚ := -1
  csd.foldl (fun selectedCsd c =>
    if csdMaxScore < dcsScore analysisScore csdPenaltyMap c.csdId then c.csdId
    else selectedCsd) ""

def dcsStep (analysisScore : String → ℚ) (st : SortedMap String String × CsdMap)
    (sst : SstInfo) : SortedMap String String × CsdMap :=
  match sst.csd with
  | [c] =>
      (st.1.insert sst.sstName c.csdId,
        st.2.insert c.csdId ((st.2.lookup c.csdId).elim 2 (· + 1)))
  | csd => (st.1.insert sst.sstName (dcsSelect analysisScore st.2 csd), st.2)

def dcsAlgorithm (analysisScore : String → ℚ) (sstInfo : List SstInfo) :
    SortedMap String String :=
  (sstInfo.foldl (dcsStep analysisScore) (∅, ∅)).1

/-! ## DSI -/

def csdCountMap (selectedCsd : List String) : CsdMap :=
  selectedCsd.foldl (fun m top => m.insert top ((m.lookup top).elim 1 (· + 1))) ∅

/-- The CSDs in use over the SSTs on the CSD that has most of them; both are
converted to `float` first. -/
def varianceScore (selectedCsd : List String) : Double :=
  let csdCount := csdCountMap selectedCsd
  let maxDuplication := (csdCount.entries.map Sigma.snd).foldl max 0
  ((Double.ofInt csdCount.entries.length).toFloat.div
    (Double.ofInt maxDuplication).toFloat).toFloat

/-- `dfs_for_dsi_algorithm` from the SSTs `sst_info[si..]` on, where
`selected_csd` holds one CSD for each SST before. The tops of the stacks come
first. Each level compares with its own best score and writes the
`global_csd` of all of them. -/
def dfsForDsi : List SstInfo → List String → List String → Double × List String
  | [], selectedCsd, globalCsd => (varianceScore selectedCsd, globalCsd)
  | sst :: rest, selectedCsd, globalCsd =>
      sst.csd.foldl (fun st c =>
        let selectedCsd := c.csdId :: selectedCsd
        let (score, globalCsd) := dfsForDsi rest selectedCsd st.2
        if st.1.blt score then (score, selectedCsd) else (st.1, globalCsd))
        (.fin (-1), globalCsd)

/-- One round of the loop that pops `global_csd`. -/
def dsiPop (st : List String × SortedMap String String) (sst : SstInfo) :
    Option (List String × SortedMap String String) :=
  match st.1 with
  | [] => none
  | csd :: globalCsd => some (globalCsd, st.2.insertNew sst.sstName csd)

/-- `DSI_Algorithm`; `none` when it pops the empty stack. -/
def dsiAlgorithm (sstInfo : List SstInfo) : Option (SortedMap String String) :=
  let globalCsd := (dfsForDsi sstInfo [] []).2
  (sstInfo.reverse.foldlM dsiPop (globalCsd, ∅)).map Prod.snd

/-! ## DFA -/

/-- The rounds of the inner loop from a replica on; nothing ends the loop but
a replica it takes. -/
def dfaScan (csdPenaltyMap : CsdMap) (minAllocated : Int) :
    List SstCsd → Except Failure (String × CsdMap)
  | [] => .error .outOfRange
  | c :: rest =>
      match csdPenaltyMap.lookup c.csdId with
      | none => .ok (c.csdId, csdPenaltyMap.insert c.csdId 1)
      | some n =>
          if n < minAllocated then .ok (c.csdId, csdPenaltyMap.insert c.csdId (n + 1))
          else dfaScan csdPenaltyMap minAllocated rest

/-- `while(flag)` for the SST at index `i`, in at most so many rounds. The
condition of the inner loop is `i < csd_size`. -/
def dfaSelect (i : Nat) (csd : List SstCsd) (csdPenaltyMap : CsdMap) :
    Nat → Int → Except Failure (String × CsdMap)
  | 0, _ => .error .running
  | rounds + 1, minAllocated =>
      if i < csd.length then dfaScan csdPenaltyMap minAllocated csd
      else dfaSelect i csd csdPenaltyMap rounds (minAllocated + 1)

/-- `DFA_Algorithm` from the SST at index `i` on. -/
def dfaFrom (rounds : Nat) : Nat → List SstInfo → SortedMap String String → CsdMap →
    Except Failure (SortedMap String String)
  | _, [], bestcsd, _ => .ok bestcsd
  | i, sst :: rest, bestcsd, csdPenaltyMap => do
      let (selectedCsd, csdPenaltyMap) ← dfaSelect i sst.csd csdPenaltyMap rounds 1
      dfaFrom rounds (i + 1) rest (bestcsd.insert sst.sstName selectedCsd) csdPenaltyMap

def dfaAlgorithm (rounds : Nat) (sstInfo : List SstInfo) :
    Except Failure (SortedMap String String) :=
  dfaFrom rounds 0 sstInfo ∅ ∅

/-! ## Auto selection -/

def blockUpperBound : Int := 10000

def sstUpperBound : Int := 16

inductive Algorithm where
  | dcs | dsi | dfa
  deriving DecidableEq, Repr

/-- `a + b` of two `int`. -/
def addInt (a b : Int) : Except Failure Int :=
  if -2 ^ 31 ≤ a + b ∧ a + b < 2 ^ 31 then .ok (a + b) else .error .overflow

/-- `max_csd_count` and `total_block_count` after one more SST. In
`total_block_count += max_csd_count, sst_block_count()` the comma separates
two expressions, and the value of the second is dropped. -/
def countSst (st : Int × Int) (sst : SstInfo) : Except Failure (Int × Int) := do
  let maxCsdCount := max st.1 sst.csd.length
  let totalBlockCount ← addInt st.2 maxCsdCount
  pure (maxCsdCount, totalBlockCount)

/-- The algorithm `Auto_Selection` runs. -/
def selectAlgorithm (sstInfo : List SstInfo) : Except Failure Algorithm := do
  let (maxCsdCount, totalBlockCount) ← sstInfo.foldlM countSst (0, 0)
  if maxCsdCount = 1 then pure .dfa
  else
    let sstCount : Int := sstInfo.length
    if sstCount = 0 then throw .divisionByZero
    else
      let avgBlockCount := totalBlockCount.tdiv sstCount
      if sstCount > sstUpperBound ∧ avgBlockCount > blockUpperBound then pure .dsi
      else if sstCount > sstUpperBound ∧ avgBlockCount < blockUpperBound then pure .dcs
      else if sstCount < sstUpperBound ∧ avgBlockCount > blockUpperBound then pure .dsi
      else pure .dcs

def runAlgorithm (rounds : Nat) (analysisScore : String → ℚ) (sstInfo : List SstInfo) :
    Algorithm → Except Failure (SortedMap String String)
  | .dcs => .ok (dcsAlgorithm analysisScore sstInfo)
  | .dsi => (dsiAlgorithm sstInfo).elim (.error .emptyStack) .ok
  | .dfa => dfaAlgorithm rounds sstInfo

/-- `KETI_SCHEDULING_TYPE`. -/
inductive SchedulingType where
  | fixed (algorithm : Algorithm)
  | autoSelection

def getBestCsd (rounds : Nat) (analysisScore : String → ℚ) (sstInfo : List SstInfo) :
    SchedulingType → Except Failure (SortedMap String String)
  | .fixed algorithm => runAlgorithm rounds analysisScore sstInfo algorithm
  | .autoSelection => do
      let algorithm ← selectAlgorithm sstInfo
      runAlgorithm rounds analysisScore sstInfo algorithm

/-! ## Placements -/

/-- The CSDs an SST has replicas on. -/
def csdIds (sst : SstInfo) : List String := sst.csd.map (·.csdId)

/-- The CSD of the last replica. -/
def lastCsd (sst : SstInfo) : Option String := (csdIds sst).getLast?

/-- How many of some SSTs are placed on a CSD. -/
def placedOn (bestcsd : SortedMap String String) (ssts : List SstInfo) (csdId : String) : Nat :=
  ssts.countP fun sst => bestcsd.find? sst.sstName = some csdId

/-- Two SSTs of one replica each, on different CSDs. -/
def singleSsts : List SstInfo :=
  [{ sstName := "a", csd := [⟨"1", "", []⟩], sstBlockCount := 1 },
    { sstName := "b", csd := [⟨"2", "", []⟩], sstBlockCount := 1 }]

theorem sstName_not_mem {done rest : List SstInfo} {sst : SstInfo}
    (hnames : ((done ++ sst :: rest).map SstInfo.sstName).Nodup) :
    sst.sstName ∉ done.map SstInfo.sstName := by
  rw [List.map_append, List.map_cons] at hnames
  exact fun hmem => List.disjoint_of_nodup_append hnames hmem (by simp)

/-- Placing an SST of another name leaves the earlier placements alone. -/
theorem placedOn_insert {bestcsd : SortedMap String String} {ssts : List SstInfo}
    {name : String} (h : name ∉ ssts.map SstInfo.sstName) (csdId csdId' : String) :
    placedOn (bestcsd.insert name csdId) ssts csdId' = placedOn bestcsd ssts csdId' := by
  unfold placedOn
  refine List.countP_congr fun sst hsst => ?_
  have hname : ¬ sst.sstName = name := fun he => h (he ▸ List.mem_map_of_mem hsst)
  rw [SortedMap.find?_insert, if_neg hname]

end KetiEngine.Offloading
