import KetiEngine.Offloading.FirstAvailable
import KetiEngine.Offloading.BestScore
import KetiEngine.Offloading.BestPlacement

/-!
# Placed — what all scheduling algorithms keep

Whichever algorithm runs and however it was selected, if it comes to a result
then every SST is on a CSD that has a replica of it.
-/

namespace KetiEngine.Offloading

open KetiEngine

/-- Every SST is on a CSD that has a replica of it. -/
def OnReplicas (bestcsd : SortedMap String String) (sstInfo : List SstInfo) : Prop :=
  ∀ sst ∈ sstInfo, ∃ csdId ∈ csdIds sst, bestcsd.find? sst.sstName = some csdId

/-- SSTs placed as a placement says. -/
theorem PlacedAs.onReplicas {bestcsd : SortedMap String String} {sstInfo : List SstInfo}
    {p : List String} (h : PlacedAs bestcsd sstInfo p) (hp : Placement sstInfo p) :
    OnReplicas bestcsd sstInfo := by
  intro sst hsst
  obtain ⟨i, hi, rfl⟩ := List.getElem_of_mem hsst
  have hi' : i < p.length := by
    have := hp.length_eq
    rw [List.length_map] at this
    omega
  have hown := congrArg (·[i]?) h
  simp only [List.getElem?_map, List.getElem?_eq_getElem hi, List.getElem?_eq_getElem hi',
    Option.map_some, Option.some.injEq] at hown
  refine ⟨p[i], ?_, hown⟩
  simpa using hp.get (by simpa using hi) hi'

section
variable {sstInfo : List SstInfo} (hcsd : ∀ sst ∈ sstInfo, sst.csd ≠ [])
  (hnames : (sstInfo.map SstInfo.sstName).Nodup)
include hnames

theorem dfaAlgorithm_onReplicas {rounds : Nat} {bestcsd : SortedMap String String}
    (hrun : dfaAlgorithm rounds sstInfo = .ok bestcsd) : OnReplicas bestcsd sstInfo := by
  intro sst hsst
  cases rounds with
  | zero =>
    obtain ⟨first, rest, rfl⟩ := List.exists_cons_of_ne_nil (List.ne_nil_of_mem hsst)
    cases hrun
  | succ rounds =>
    obtain ⟨before, after, hsplit⟩ := List.append_of_mem hsst
    obtain ⟨csdId, hmin, hfound⟩ :=
      balanced_of_dfaAlgorithm hnames hrun before sst after hsplit
    exact ⟨csdId, List.argmin_mem hmin, hfound⟩

include hcsd

theorem dcsAlgorithm_onReplicas {analysisScore : String → ℚ}
    (hscore : ∀ csdKey, 0 ≤ analysisScore csdKey) :
    OnReplicas (dcsAlgorithm analysisScore sstInfo) sstInfo := by
  intro sst hsst
  have hne : csdIds sst ≠ [] := by simpa [csdIds] using hcsd sst hsst
  refine ⟨_, List.getLast_mem hne, ?_⟩
  rw [dcsAlgorithm_last hscore hcsd hnames sst hsst]
  exact List.getLast?_eq_some_getLast hne

theorem dsiAlgorithm_onReplicas (hsize : sstInfo.length < 2 ^ 31)
    {bestcsd : SortedMap String String} (hrun : dsiAlgorithm sstInfo = some bestcsd) :
    OnReplicas bestcsd sstInfo := by
  rcases List.eq_nil_or_concat' sstInfo with rfl | ⟨outer, sst, rfl⟩
  · exact fun sst hsst => by cases hsst
  · by_cases hsettles : DepthFirst.Settles stackRating (-1) ((outer ++ [sst]).map csdIds) []
    · obtain ⟨bestcsd', csdId, hrun', -, hplaced, hplacement⟩ :=
        dsiAlgorithm_of_settles hcsd hnames hsize hsettles
      obtain rfl : bestcsd = bestcsd' := Option.some.inj (hrun.symm.trans hrun')
      exact hplaced.onReplicas hplacement
    · rw [(dsiAlgorithm_search hcsd (by simp) hsize hnames).2 hsettles] at hrun
      cases hrun

/-- **Every scheduled SST is scanned where it is stored**: a result of any
algorithm, chosen or fixed, places the SSTs on replicas of their own. -/
theorem getBestCsd_onReplicas (hsize : sstInfo.length < 2 ^ 31) {analysisScore : String → ℚ}
    (hscore : ∀ csdKey, 0 ≤ analysisScore csdKey) {rounds : Nat} {type : SchedulingType}
    {bestcsd : SortedMap String String}
    (hrun : getBestCsd rounds analysisScore sstInfo type = .ok bestcsd) :
    OnReplicas bestcsd sstInfo := by
  have hany : ∀ algorithm, runAlgorithm rounds analysisScore sstInfo algorithm = .ok bestcsd →
      OnReplicas bestcsd sstInfo := by
    intro algorithm hrun
    cases algorithm with
    | dcs =>
      cases hrun
      exact dcsAlgorithm_onReplicas hcsd hnames hscore
    | dsi =>
      cases hdsi : dsiAlgorithm sstInfo with
      | none =>
        rw [runAlgorithm, hdsi] at hrun
        cases hrun
      | some found =>
        rw [runAlgorithm, hdsi] at hrun
        cases hrun
        exact dsiAlgorithm_onReplicas hcsd hnames hsize hdsi
    | dfa => exact dfaAlgorithm_onReplicas hnames hrun
  cases type with
  | fixed algorithm => exact hany algorithm hrun
  | autoSelection =>
    cases hselect : selectAlgorithm sstInfo with
    | error failure =>
      rw [getBestCsd, hselect] at hrun
      cases hrun
    | ok algorithm =>
      rw [getBestCsd, hselect] at hrun
      exact hany algorithm hrun

end

/-! ## Nothing else is placed -/

/-- Only SSTs of the snippet are in the map. -/
def OnlySsts (bestcsd : SortedMap String String) (sstInfo : List SstInfo) : Prop :=
  ∀ name csdId, bestcsd.find? name = some csdId → name ∈ sstInfo.map SstInfo.sstName

theorem find?_insert_cases {bestcsd : SortedMap String String} {name sstName csdId csdId' : String}
    (h : (bestcsd.insert sstName csdId').find? name = some csdId) :
    name = sstName ∨ bestcsd.find? name = some csdId := by
  rw [SortedMap.find?_insert] at h
  split at h
  · exact .inl ‹_›
  · exact .inr h

theorem dcsAlgorithm_onlySsts (analysisScore : String → ℚ) (sstInfo : List SstInfo) :
    OnlySsts (dcsAlgorithm analysisScore sstInfo) sstInfo := by
  intro name csdId h
  have hfold : ∀ st : SortedMap String String × CsdMap,
      (sstInfo.foldl (dcsStep analysisScore) st).1.find? name = some csdId →
        name ∈ sstInfo.map SstInfo.sstName ∨ st.1.find? name = some csdId := by
    clear h
    induction sstInfo with
    | nil => exact fun st h => .inr h
    | cons sst rest ih =>
      intro st h
      have hstep : ∃ csdId', (dcsStep analysisScore st sst).1 = st.1.insert sst.sstName csdId' := by
        unfold dcsStep
        split <;> exact ⟨_, rfl⟩
      obtain ⟨csdId', hstep⟩ := hstep
      rcases ih _ h with hrest | hone
      · exact .inl (List.mem_cons_of_mem _ hrest)
      · rw [hstep] at hone
        rcases find?_insert_cases hone with rfl | hold
        · exact .inl List.mem_cons_self
        · exact .inr hold
  exact (hfold (∅, ∅) h).resolve_right (by simp [SortedMap.find?_empty])

theorem dsiAlgorithm_onlySsts {sstInfo : List SstInfo} {bestcsd : SortedMap String String}
    (hrun : dsiAlgorithm sstInfo = some bestcsd) : OnlySsts bestcsd sstInfo := by
  intro name csdId h
  obtain ⟨⟨globalCsd, bestcsd⟩, hpops, rfl⟩ := Option.map_eq_some_iff.mp hrun
  have hfold : ∀ (ssts : List SstInfo) (st st' : List String × SortedMap String String),
      ssts.foldlM dsiPop st = some st' → st'.2.find? name = some csdId →
        name ∈ ssts.map SstInfo.sstName ∨ st.2.find? name = some csdId := by
    intro ssts
    induction ssts with
    | nil =>
      intro st st' hrun h
      cases hrun
      exact .inr h
    | cons sst rest ih =>
      intro st st' hrun h
      rw [List.foldlM_cons] at hrun
      obtain ⟨st₁, hpop, hrest⟩ := Option.bind_eq_some_iff.mp hrun
      rcases ih st₁ st' hrest h with hmem | hone
      · exact .inl (List.mem_cons_of_mem _ hmem)
      · unfold dsiPop at hpop
        split at hpop
        · cases hpop
        · cases hpop
          rw [SortedMap.find?_insertNew] at hone
          split at hone
          · rename_i heq
            exact .inl (heq ▸ List.mem_cons_self)
          · exact .inr hone
  have hmem := (hfold _ _ _ hpops h).resolve_right (by simp [SortedMap.find?_empty])
  simpa using hmem

theorem dfaAlgorithm_onlySsts {rounds : Nat} {sstInfo : List SstInfo}
    {bestcsd : SortedMap String String} (hrun : dfaAlgorithm rounds sstInfo = .ok bestcsd) :
    OnlySsts bestcsd sstInfo := by
  intro name csdId h
  have hfrom : ∀ (i : Nat) (start : SortedMap String String) (penalty : CsdMap),
      dfaFrom rounds i sstInfo start penalty = .ok bestcsd →
        name ∈ sstInfo.map SstInfo.sstName ∨ start.find? name = some csdId := by
    clear hrun
    induction sstInfo with
    | nil =>
      intro i start penalty hrun
      cases hrun
      exact .inr h
    | cons sst rest ih =>
      intro i start penalty hrun
      unfold dfaFrom at hrun
      cases hselect : dfaSelect i sst.csd penalty rounds 1 with
      | error failure =>
        rw [hselect] at hrun
        cases hrun
      | ok selected =>
        rw [hselect] at hrun
        rcases ih _ _ _ hrun with hmem | hone
        · exact .inl (List.mem_cons_of_mem _ hmem)
        · rcases find?_insert_cases hone with rfl | hold
          · exact .inl List.mem_cons_self
          · exact .inr hold
  exact (hfrom 0 ∅ ∅ hrun).resolve_right (by simp [SortedMap.find?_empty])

/-- A result is that of one of the three algorithms. -/
theorem getBestCsd_cases {rounds : Nat} {analysisScore : String → ℚ} {sstInfo : List SstInfo}
    {type : SchedulingType} {bestcsd : SortedMap String String}
    (hrun : getBestCsd rounds analysisScore sstInfo type = .ok bestcsd) :
    bestcsd = dcsAlgorithm analysisScore sstInfo ∨ dsiAlgorithm sstInfo = some bestcsd ∨
      dfaAlgorithm rounds sstInfo = .ok bestcsd := by
  obtain ⟨algorithm, hrun⟩ : ∃ algorithm,
      runAlgorithm rounds analysisScore sstInfo algorithm = .ok bestcsd := by
    cases type with
    | fixed algorithm => exact ⟨algorithm, hrun⟩
    | autoSelection =>
      cases hselect : selectAlgorithm sstInfo with
      | error failure =>
        rw [getBestCsd, hselect] at hrun
        cases hrun
      | ok algorithm =>
        rw [getBestCsd, hselect] at hrun
        exact ⟨algorithm, hrun⟩
  cases algorithm with
  | dcs =>
    cases hrun
    exact .inl rfl
  | dsi =>
    cases hdsi : dsiAlgorithm sstInfo with
    | none =>
      rw [runAlgorithm, hdsi] at hrun
      cases hrun
    | some found =>
      rw [runAlgorithm, hdsi] at hrun
      cases hrun
      exact .inr (.inl rfl)
  | dfa => exact .inr (.inr hrun)

theorem getBestCsd_onlySsts {rounds : Nat} {analysisScore : String → ℚ} {sstInfo : List SstInfo}
    {type : SchedulingType} {bestcsd : SortedMap String String}
    (hrun : getBestCsd rounds analysisScore sstInfo type = .ok bestcsd) :
    OnlySsts bestcsd sstInfo := by
  rcases getBestCsd_cases hrun with rfl | hdsi | hdfa
  · exact dcsAlgorithm_onlySsts analysisScore sstInfo
  · exact dsiAlgorithm_onlySsts hdsi
  · exact dfaAlgorithm_onlySsts hdfa

end KetiEngine.Offloading
