import KetiEngine.Offloading.Scheduler
import KetiEngine.Lib.Loops
import Mathlib.Algebra.Order.Field.Basic
import Mathlib.Data.List.Induction

/-!
# BestScore — which replica DCS selects

The best score so far is never kept, so every replica beats it and the last one
is selected; and only an SST with one replica adds to the penalty of its CSD.
-/

namespace KetiEngine.Offloading

open KetiEngine

/-! ## One SST -/

/-- Penalties are positive. -/
def PositivePenalties (csdPenaltyMap : CsdMap) : Prop :=
  ∀ csdId n, csdPenaltyMap.lookup csdId = some n → 0 < n

section
variable {analysisScore : String → ℚ} {csdPenaltyMap : CsdMap}

theorem dcsScore_nonneg (hscore : ∀ csdKey, 0 ≤ analysisScore csdKey)
    (h : PositivePenalties csdPenaltyMap) (csdId : String) :
    0 ≤ dcsScore analysisScore csdPenaltyMap csdId := by
  unfold dcsScore
  cases hn : csdPenaltyMap.lookup csdId with
  | none => exact hscore _
  | some n =>
    have hpos : (0 : ℚ) ≤ n := by exact_mod_cast (h csdId n hn).le
    exact div_nonneg (hscore _) hpos

/-- Every replica beats −1, so the last one is selected. -/
theorem dcsSelect_eq (hscore : ∀ csdKey, 0 ≤ analysisScore csdKey)
    (h : PositivePenalties csdPenaltyMap) (csd : List SstCsd) :
    dcsSelect analysisScore csdPenaltyMap csd = ((csd.map (·.csdId)).getLast?).getD "" := by
  have hbeats : ∀ csdId, -1 < dcsScore analysisScore csdPenaltyMap csdId := fun csdId => by
    have := dcsScore_nonneg hscore h csdId
    linarith
  unfold dcsSelect
  simp only [hbeats, if_true]
  induction csd using List.reverseRecOn with
  | nil => rfl
  | append_singleton csd c _ => simp

/-- An SST is placed on the CSD of its last replica. -/
theorem dcsStep_spec (hscore : ∀ csdKey, 0 ≤ analysisScore csdKey)
    {bestcsd : SortedMap String String} (h : PositivePenalties csdPenaltyMap) {sst : SstInfo}
    {csdId : String} (hlast : lastCsd sst = some csdId) :
    (dcsStep analysisScore (bestcsd, csdPenaltyMap) sst).1 = bestcsd.insert sst.sstName csdId ∧
      PositivePenalties (dcsStep analysisScore (bestcsd, csdPenaltyMap) sst).2 := by
  unfold dcsStep
  split
  · rename_i c hcsd
    obtain rfl : c.csdId = csdId := by simpa [lastCsd, csdIds, hcsd] using hlast
    refine ⟨rfl, fun csdId' n hn => ?_⟩
    by_cases he : csdId' = c.csdId
    · subst he
      rw [AList.lookup_insert, Option.some.injEq] at hn
      cases hold : csdPenaltyMap.lookup c.csdId with
      | none =>
        rw [hold] at hn
        exact hn ▸ by decide
      | some old =>
        rw [hold] at hn
        have hpos := h c.csdId old hold
        simp only [Option.elim_some] at hn
        omega
    · rw [AList.lookup_insert_ne he] at hn
      exact h csdId' n hn
  · refine ⟨?_, h⟩
    rw [dcsSelect_eq hscore h]
    rw [lastCsd, csdIds] at hlast
    rw [hlast, Option.getD_some]

end

/-! ## A list of SSTs -/

/-- Every SST of a list is placed on the CSD of its last replica. -/
theorem dcsAlgorithm_last {analysisScore : String → ℚ}
    (hscore : ∀ csdKey, 0 ≤ analysisScore csdKey) {sstInfo : List SstInfo}
    (hcsd : ∀ sst ∈ sstInfo, sst.csd ≠ []) (hnames : (sstInfo.map SstInfo.sstName).Nodup) :
    ∀ sst ∈ sstInfo, (dcsAlgorithm analysisScore sstInfo).find? sst.sstName = lastCsd sst := by
  suffices key : ∀ (rest done : List SstInfo) (st : SortedMap String String × CsdMap),
      (∀ sst ∈ rest, sst.csd ≠ []) → ((done ++ rest).map SstInfo.sstName).Nodup →
      PositivePenalties st.2 → (∀ sst ∈ done, st.1.find? sst.sstName = lastCsd sst) →
      ∀ sst ∈ done ++ rest,
        (rest.foldl (dcsStep analysisScore) st).1.find? sst.sstName = lastCsd sst from
    key sstInfo [] (∅, ∅) hcsd hnames (fun csdId n hn => by simp at hn) (by simp)
  intro rest
  induction rest with
  | nil => exact fun done st _ _ _ hdone sst hsst => hdone sst (by simpa using hsst)
  | cons sst rest ih =>
    intro done st hcsd hnames hpenalties hdone
    obtain ⟨csdId, hlast⟩ : ∃ csdId, lastCsd sst = some csdId := by
      have hne : csdIds sst ≠ [] := by simpa [csdIds] using hcsd sst (by simp)
      exact ⟨_, List.getLast?_eq_some_getLast hne⟩
    obtain ⟨hmap, hnext⟩ : (dcsStep analysisScore st sst).1 = st.1.insert sst.sstName csdId ∧
        PositivePenalties (dcsStep analysisScore st sst).2 :=
      dcsStep_spec hscore hpenalties hlast
    have hname := sstName_not_mem hnames
    rw [← List.singleton_append, ← List.append_assoc] at hnames ⊢
    refine ih (done ++ [sst]) _ (fun other hother => hcsd other (by simp [hother])) hnames hnext ?_
    intro other hother
    rw [hmap, SortedMap.find?_insert]
    rcases List.mem_append.mp hother with hother | hother
    · have hother' : ¬ other.sstName = sst.sstName := fun he =>
        hname (he ▸ List.mem_map_of_mem hother)
      rw [if_neg hother', hdone other hother]
    · obtain rfl := List.mem_singleton.mp hother
      rw [if_pos rfl, hlast]

/-- The score of a CSD, divided among the SSTs it has and one more. -/
def sharedScore (analysisScore : String → ℚ) (ssts : Nat) (csdId : String) : ℚ :=
  analysisScore ("csd" ++ csdId) / (1 + ssts)

/-- Each SST is on one of its CSDs where the score shared with the SSTs before
it is the highest. -/
def OnBestScore (analysisScore : String → ℚ) (bestcsd : SortedMap String String)
    (sstInfo : List SstInfo) : Prop :=
  ∀ before sst after, sstInfo = before ++ sst :: after →
    ∃ csdId ∈ csdIds sst, bestcsd.find? sst.sstName = some csdId ∧
      ∀ other ∈ csdIds sst,
        sharedScore analysisScore (placedOn bestcsd before other) other ≤
          sharedScore analysisScore (placedOn bestcsd before csdId) csdId

/-- The CSD of the last replica of each SST has the highest score, shared with
the SSTs before it that have their last replica on the same CSD. -/
def LastIsBest (analysisScore : String → ℚ) (sstInfo : List SstInfo) : Prop :=
  ∀ before sst after, sstInfo = before ++ sst :: after →
    ∀ csdId ∈ lastCsd sst, ∀ other ∈ csdIds sst,
      sharedScore analysisScore (before.countP (lastCsd · = some other)) other ≤
        sharedScore analysisScore (before.countP (lastCsd · = some csdId)) csdId

/-- **DCS places every SST on its best CSD** exactly when that is the CSD of
its last replica. -/
theorem dcs_places_best_iff {analysisScore : String → ℚ}
    (hscore : ∀ csdKey, 0 ≤ analysisScore csdKey) {sstInfo : List SstInfo}
    (hcsd : ∀ sst ∈ sstInfo, sst.csd ≠ []) (hnames : (sstInfo.map SstInfo.sstName).Nodup) :
    OnBestScore analysisScore (dcsAlgorithm analysisScore sstInfo) sstInfo ↔
      LastIsBest analysisScore sstInfo := by
  have hlast := dcsAlgorithm_last hscore hcsd hnames
  generalize dcsAlgorithm analysisScore sstInfo = bestcsd at hlast ⊢
  have hplaced : ∀ before after, sstInfo = before ++ after → ∀ csdId,
      placedOn bestcsd before csdId = before.countP (lastCsd · = some csdId) := by
    intro before after hsplit csdId
    refine List.countP_congr fun sst hsst => ?_
    rw [hlast sst (by simp [hsplit, hsst])]
  refine forall₄_congr fun before sst after hsplit => ?_
  have hown := hlast sst (by simp [hsplit])
  simp only [hplaced before _ hsplit, hown]
  constructor
  · rintro ⟨csdId, -, hfound, hbest⟩ csdId' hlast'
    obtain rfl : csdId' = csdId := Option.some.inj (hlast'.symm.trans hfound)
    exact hbest
  · intro hbest
    have hne : csdIds sst ≠ [] := by simpa [csdIds] using hcsd sst (by simp [hsplit])
    have hsome := List.getLast?_eq_some_getLast hne
    exact ⟨_, List.getLast_mem hne, hsome, hbest _ hsome⟩

/-- The CSD with key `csd1` has one score, all others have another. -/
def twoScores (first others : ℚ) (csdKey : String) : ℚ := if csdKey = "csd1" then first else others

theorem twoScores_nonneg {first others : ℚ} (hfirst : 0 ≤ first) (hothers : 0 ≤ others)
    (csdKey : String) : 0 ≤ twoScores first others csdKey := by
  unfold twoScores
  split
  · exact hfirst
  · exact hothers

/-- Three SSTs, each of which has its last replica where the others before it
leave the highest score. -/
def sharingSsts : List SstInfo :=
  [{ sstName := "a", csd := [⟨"1", "", []⟩], sstBlockCount := 1 },
    { sstName := "b", csd := [⟨"1", "", []⟩, ⟨"2", "", []⟩], sstBlockCount := 1 },
    { sstName := "c", csd := [⟨"2", "", []⟩, ⟨"1", "", []⟩], sstBlockCount := 1 }]

/-- With the scores 3 and 2 the SSTs take turns. -/
theorem sharingSsts_onBestScore :
    OnBestScore (twoScores 3 2) (dcsAlgorithm (twoScores 3 2) sharingSsts) sharingSsts := by
  refine (dcs_places_best_iff (twoScores_nonneg (by decide) (by decide)) (by decide)
    (by decide)).mpr ?_
  have hsplit : sharingSsts =
    (([] ++ [sharingSsts[0]]) ++ [sharingSsts[1]]) ++ [sharingSsts[2]] := rfl
  rw [LastIsBest, hsplit, Loops.forall_split_concat, Loops.forall_split_concat,
    Loops.forall_split_concat]
  refine ⟨⟨⟨by simp, ?_⟩, ?_⟩, ?_⟩ <;> decide +kernel

/-- An SST whose best CSD comes first. -/
def bestFirst : List SstInfo :=
  [{ sstName := "a", csd := [⟨"1", "", []⟩, ⟨"2", "", []⟩], sstBlockCount := 1 }]

/-- The SST is placed on its last CSD, which has the lower score. -/
theorem bestFirst_on_lower :
    (∀ csdKey, 0 ≤ twoScores 5 1 csdKey) ∧
    (dcsAlgorithm (twoScores 5 1) bestFirst).find? "a" = some "2" ∧
    ¬ OnBestScore (twoScores 5 1) (dcsAlgorithm (twoScores 5 1) bestFirst) bestFirst := by
  have hplace : (dcsAlgorithm (twoScores 5 1) bestFirst).find? "a" = some "2" := by decide +kernel
  refine ⟨twoScores_nonneg (by decide) (by decide), hplace, fun h => ?_⟩
  obtain ⟨csdId, -, hfound, hbest⟩ := h [] _ [] rfl
  obtain rfl : "2" = csdId := Option.some.inj (hplace.symm.trans hfound)
  exact absurd (hbest "1" (by decide)) (by decide +kernel)

end KetiEngine.Offloading
