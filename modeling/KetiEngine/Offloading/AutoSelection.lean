import KetiEngine.Offloading.Scheduler
import KetiEngine.Lib.RunningMax
import Mathlib.Data.List.Sort
import Mathlib.Data.Nat.Cast.Basic

/-!
# AutoSelection — what the choice of an algorithm depends on

`Auto_Selection` means to compare the average block count of the SSTs with a
bound. What it adds up is the largest replica count so far, which depends on
the order of the SSTs.
-/

namespace KetiEngine.Offloading

open KetiEngine

/-- `csd_size` of each SST. -/
def csdSizes (sstInfo : List SstInfo) : List Nat := sstInfo.map (·.csd.length)

/-! ## The source's totals -/

theorem countSst_nat (m t : Nat) (sst : SstInfo) :
    countSst (m, t) sst =
      if t + max m sst.csd.length < 2 ^ 31 then
        .ok ((max m sst.csd.length : Nat), (t + max m sst.csd.length : Nat))
      else .error .overflow := by
  simp only [countSst, addInt, ← Nat.cast_max, ← Nat.cast_add]
  by_cases hsum : t + max m sst.csd.length < 2 ^ 31
  · rw [if_pos (by omega), if_pos hsum]
    rfl
  · rw [if_neg (by omega), if_neg hsum]
    rfl

/-- The loop of `Auto_Selection` adds the largest replica counts so far. -/
theorem foldlM_countSst (m t : Nat) (sstInfo : List SstInfo) (ht : t < 2 ^ 31) :
    sstInfo.foldlM countSst ((m : Int), (t : Int)) =
      if t + RunningMax.total m (csdSizes sstInfo) < 2 ^ 31 then
        .ok (((csdSizes sstInfo).foldl max m : Nat),
          (t + RunningMax.total m (csdSizes sstInfo) : Nat))
      else .error .overflow := by
  induction sstInfo generalizing m t with
  | nil => exact (if_pos ht).symm
  | cons sst rest ih =>
    rw [List.foldlM_cons, countSst_nat]
    simp only [csdSizes, List.map_cons, RunningMax.total, List.foldl_cons] at ih ⊢
    by_cases hsum : t + max m sst.csd.length < 2 ^ 31
    · rw [if_pos hsum]
      have hnext := ih (max m sst.csd.length) (t + max m sst.csd.length) hsum
      simp only [Nat.add_assoc] at hnext
      exact hnext
    · rw [if_neg hsum, if_neg (by omega)]
      rfl

/-- What `Auto_Selection` makes of the two totals. -/
theorem selectAlgorithm_eq (sstInfo : List SstInfo) :
    selectAlgorithm sstInfo =
      if 2 ^ 31 ≤ RunningMax.total 0 (csdSizes sstInfo) then .error .overflow
      else if (csdSizes sstInfo).foldl max 0 = 1 then .ok .dfa
      else if sstInfo = [] then .error .divisionByZero
      else if 10000 < RunningMax.total 0 (csdSizes sstInfo) / sstInfo.length ∧
          sstInfo.length ≠ 16 then .ok .dsi
      else .ok .dcs := by
  have hloop := foldlM_countSst 0 0 sstInfo (by decide)
  rw [Nat.zero_add] at hloop
  unfold selectAlgorithm
  rw [show ((0 : Int), (0 : Int)) = (((0 : Nat) : Int), ((0 : Nat) : Int)) from rfl, hloop]
  generalize RunningMax.total 0 (csdSizes sstInfo) = total
  generalize (csdSizes sstInfo).foldl max 0 = most
  by_cases hover : total < 2 ^ 31
  · rw [if_pos hover, if_neg (by omega)]
    simp only [bind, Except.bind]
    have hblocks : blockUpperBound = 10000 := rfl
    have hssts : sstUpperBound = 16 := rfl
    have hmost : (most : Int) = 1 ↔ most = 1 := by omega
    have hempty : (sstInfo.length : Int) = 0 ↔ sstInfo = [] := by simp
    have havg : (total : Int).tdiv sstInfo.length = (total / sstInfo.length : Nat) := by
      simp
    rw [if_congr hmost rfl rfl]
    by_cases hone : most = 1
    · rw [if_pos hone, if_pos hone]
      rfl
    · rw [if_neg hone, if_neg hone, if_congr hempty rfl rfl, havg]
      by_cases hnil : sstInfo = []
      · rw [if_pos hnil, if_pos hnil]
        rfl
      · rw [if_neg hnil, if_neg hnil]
        generalize total / sstInfo.length = average
        by_cases hbound : 10000 < average ∧ sstInfo.length ≠ 16
        · rw [if_pos hbound]
          rcases Nat.lt_or_gt_of_ne hbound.2 with hlt | hgt
          · rw [if_neg (by omega), if_neg (by omega), if_pos (by omega)]
            rfl
          · rw [if_pos (by omega)]
            rfl
        · rw [if_neg hbound, if_neg (by omega)]
          split
          · rfl
          · rw [if_neg (by omega)]
            rfl
  · rw [if_neg hover, if_pos (by omega)]
    rfl

/-! ## Orders of the SSTs -/

/-- An SST listed first counts for every SST of the list. -/
theorem total_first {sstInfo : List SstInfo} {sst : SstInfo} (h : sst ∈ sstInfo) :
    sstInfo.length * sst.csd.length ≤
      RunningMax.total 0 (csdSizes (sst :: sstInfo.erase sst)) := by
  have hlength : sstInfo.length = (sstInfo.erase sst).length + 1 := by
    rw [List.length_erase_of_mem h]
    have := List.length_pos_of_mem h
    omega
  have hrest := RunningMax.nsmul_le_total (le_refl sst.csd.length)
    (csdSizes (sstInfo.erase sst))
  simp only [csdSizes, List.length_map, nsmul_eq_mul, Nat.cast_id] at hrest
  simp only [csdSizes, List.map_cons, RunningMax.total, Nat.zero_max]
  rw [hlength, Nat.succ_mul]
  omega

/-- The SSTs by ascending replica counts. -/
def ascending (sstInfo : List SstInfo) : List SstInfo :=
  sstInfo.insertionSort fun a b => a.csd.length ≤ b.csd.length

theorem ascending_perm (sstInfo : List SstInfo) : (ascending sstInfo).Perm sstInfo :=
  List.perm_insertionSort _ _

theorem total_ascending (sstInfo : List SstInfo) :
    RunningMax.total 0 (csdSizes (ascending sstInfo)) = (csdSizes sstInfo).sum := by
  have hsorted : (csdSizes (ascending sstInfo)).Pairwise (· ≤ ·) := by
    have : Std.Total fun a b : SstInfo => a.csd.length ≤ b.csd.length :=
      ⟨fun a b => Nat.le_total _ _⟩
    have : IsTrans SstInfo fun a b => a.csd.length ≤ b.csd.length :=
      ⟨fun a b c => Nat.le_trans⟩
    exact List.pairwise_map.mpr (List.pairwise_insertionSort _ sstInfo)
  rw [RunningMax.total_eq_sum (fun a _ => Nat.zero_le a) hsorted]
  exact ((ascending_perm sstInfo).map _).sum_eq

/-- An SST with the most replicas. -/
theorem exists_most {sstInfo : List SstInfo} (h : sstInfo ≠ []) :
    ∃ sst ∈ sstInfo, (csdSizes sstInfo).foldl max 0 = sst.csd.length ∧
      ∀ other ∈ sstInfo, other.csd.length ≤ sst.csd.length := by
  have hne : csdSizes sstInfo ≠ [] := by simpa [csdSizes] using h
  obtain ⟨sst, hsst, hmost⟩ := List.mem_map.mp (List.max_mem hne)
  refine ⟨sst, hsst, ?_, fun other hother => ?_⟩
  · rw [List.foldl_max_eq_max hne, Nat.zero_max, hmost]
  · have hmem : other.csd.length ∈ csdSizes sstInfo := List.mem_map.mpr ⟨other, hother, rfl⟩
    exact hmost ▸ List.le_max_of_mem hmem

/-- In any order the total is at most the largest replica count for every
SST. -/
theorem total_le {sstInfo : List SstInfo} {sst : SstInfo}
    (hmost : ∀ other ∈ sstInfo, other.csd.length ≤ sst.csd.length) :
    RunningMax.total 0 (csdSizes sstInfo) ≤ sstInfo.length * sst.csd.length := by
  have hle := @RunningMax.total_le_nsmul Nat _ _ _ 0 sst.csd.length (csdSizes sstInfo)
    (Nat.zero_le _) fun a ha => by
      obtain ⟨other, hother, rfl⟩ := List.mem_map.mp ha
      exact hmost other hother
  simpa [csdSizes] using hle

/-- Without an overflow an order decides by its total. -/
theorem selectAlgorithm_ok {sstInfo : List SstInfo} (hne : sstInfo ≠ [])
    (hfits : RunningMax.total 0 (csdSizes sstInfo) < 2 ^ 31) :
    selectAlgorithm sstInfo =
      .ok (if (csdSizes sstInfo).foldl max 0 = 1 then .dfa
        else if 10000 < RunningMax.total 0 (csdSizes sstInfo) / sstInfo.length ∧
          sstInfo.length ≠ 16 then .dsi else .dcs) := by
  rw [selectAlgorithm_eq, if_neg (by omega), if_neg hne]
  split_ifs <;> rfl

theorem fits_of_selectAlgorithm {sstInfo : List SstInfo} {algorithm : Algorithm}
    (h : selectAlgorithm sstInfo = .ok algorithm) :
    RunningMax.total 0 (csdSizes sstInfo) < 2 ^ 31 := by
  rw [selectAlgorithm_eq] at h
  by_contra hover
  rw [if_pos (by omega)] at h
  cases h

/-- Where some SST has two replicas, and their number is off the bound, the
total decides between DSI and DCS. -/
theorem selectAlgorithm_of_multi {sstInfo : List SstInfo} {algorithm : Algorithm}
    (hmulti : ∃ sst ∈ sstInfo, 2 ≤ sst.csd.length) (hoff : (sstInfo.length : Int) ≠ sstUpperBound)
    (h : selectAlgorithm sstInfo = .ok algorithm) :
    algorithm =
      if 10000 < RunningMax.total 0 (csdSizes sstInfo) / sstInfo.length then .dsi else .dcs := by
  obtain ⟨other, hother, htwo⟩ := hmulti
  have hne : sstInfo ≠ [] := List.ne_nil_of_mem hother
  obtain ⟨most, -, hmax, hall⟩ := exists_most hne
  have hle := hall other hother
  have hlength : sstInfo.length ≠ 16 := fun he => hoff (by rw [he]; rfl)
  rw [selectAlgorithm_ok hne (fits_of_selectAlgorithm h), if_neg (by omega)] at h
  simpa [hlength] using (Except.ok.inj h).symm

/-! ## The workload -/

/-- What the choice is meant to be: by the average block count. -/
def workloadAlgorithm (sstInfo : List SstInfo) : Algorithm :=
  if (sstInfo.map SstInfo.sstBlockCount).sum.tdiv sstInfo.length > blockUpperBound then .dsi
  else .dcs

/-- In whatever order the SSTs come, one algorithm is selected, and where some
SST has two replicas and their number is off the bound it is the one for the
workload. -/
def DecidesOnWorkload (sstInfo : List SstInfo) : Prop :=
  ∃ algorithm, (∀ listed, listed.Perm sstInfo → selectAlgorithm listed = .ok algorithm) ∧
    ((∃ sst ∈ sstInfo, 2 ≤ sst.csd.length) → (sstInfo.length : Int) ≠ sstUpperBound →
      algorithm = workloadAlgorithm sstInfo)

/-- Whatever the order, the total decides as the workload does. -/
theorem DecidesOnWorkload.workload_eq {sstInfo : List SstInfo} (h : DecidesOnWorkload sstInfo)
    (hmulti : ∃ sst ∈ sstInfo, 2 ≤ sst.csd.length) (hoff : (sstInfo.length : Int) ≠ sstUpperBound)
    {listed : List SstInfo} (hperm : listed.Perm sstInfo) :
    workloadAlgorithm sstInfo =
      if 10000 < RunningMax.total 0 (csdSizes listed) / sstInfo.length then .dsi else .dcs := by
  obtain ⟨algorithm, horder, hmeant⟩ := h
  rw [← hmeant hmulti hoff, ← hperm.length_eq]
  refine selectAlgorithm_of_multi ?_ ?_ (horder listed hperm)
  · simpa only [hperm.mem_iff] using hmulti
  · rwa [hperm.length_eq]

/-- The ascending order has the smallest total, and an SST listed first counts
every time. -/
theorem DecidesOnWorkload.sides {sstInfo : List SstInfo} (h : DecidesOnWorkload sstInfo)
    (hmulti : ∃ sst ∈ sstInfo, 2 ≤ sst.csd.length)
    (hoff : (sstInfo.length : Int) ≠ sstUpperBound) :
    if (sstInfo.map SstInfo.sstBlockCount).sum.tdiv sstInfo.length > blockUpperBound then
      10000 < (csdSizes sstInfo).sum / sstInfo.length
    else ∀ sst ∈ sstInfo, sst.csd.length ≤ 10000 := by
  split
  case isTrue habove =>
    have hascending := h.workload_eq hmulti hoff (ascending_perm sstInfo)
    rw [workloadAlgorithm, if_pos habove, total_ascending] at hascending
    by_contra hlow
    rw [if_neg hlow] at hascending
    cases hascending
  case isFalse hbelow =>
    intro sst hsst
    have hfirst := h.workload_eq hmulti hoff (List.perm_cons_erase hsst).symm
    rw [workloadAlgorithm, if_neg hbelow] at hfirst
    have hlow : RunningMax.total 0 (csdSizes (sst :: sstInfo.erase sst)) / sstInfo.length ≤
        10000 := by
      by_contra hhigh
      rw [if_pos (by omega)] at hfirst
      cases hfirst
    refine le_trans ?_ hlow
    rw [Nat.le_div_iff_mul_le (List.length_pos_of_mem hsst), Nat.mul_comm]
    exact total_first hsst

/-- The total is above the bound in all orders or in none, if the average
replica count is above it or no replica count is. -/
theorem total_above_iff {sstInfo listed : List SstInfo} (hperm : listed.Perm sstInfo)
    (hside : 10000 < (csdSizes sstInfo).sum / sstInfo.length ∨
      ∀ sst ∈ sstInfo, sst.csd.length ≤ 10000) :
    10000 < RunningMax.total 0 (csdSizes listed) / sstInfo.length ↔
      10000 < (csdSizes sstInfo).sum / sstInfo.length := by
  have hsum : (csdSizes sstInfo).sum ≤ RunningMax.total 0 (csdSizes listed) :=
    (hperm.map _).sum_eq.symm.le.trans (RunningMax.sum_le_total 0 _)
  refine ⟨fun hhigh => hside.resolve_right fun hbelow => ?_,
    fun hhigh => hhigh.trans_le (Nat.div_le_div_right hsum)⟩
  have htotal := @RunningMax.total_le_nsmul Nat _ _ _ 0 10000 (csdSizes listed) (Nat.zero_le _)
    fun a ha => by
      obtain ⟨sst, hsst, rfl⟩ := List.mem_map.mp ha
      exact hbelow sst (hperm.mem_iff.mp hsst)
  have hle : RunningMax.total 0 (csdSizes listed) ≤ sstInfo.length * 10000 := by
    simpa [csdSizes, hperm.length_eq] using htotal
  exact Nat.not_le_of_lt hhigh (Nat.div_le_of_le_mul hle)

/-- In each order the algorithm is the one for the sum of the replica
counts. -/
theorem selectAlgorithm_of_perm {sstInfo listed : List SstInfo} (hperm : listed.Perm sstInfo)
    (hne : sstInfo ≠ []) (hfits : ∀ sst ∈ sstInfo, sstInfo.length * sst.csd.length < 2 ^ 31)
    (hside : sstInfo.length ≠ 16 → 10000 < (csdSizes sstInfo).sum / sstInfo.length ∨
      ∀ sst ∈ sstInfo, sst.csd.length ≤ 10000) :
    selectAlgorithm listed = .ok (if (csdSizes sstInfo).foldl max 0 = 1 then .dfa
      else if 10000 < (csdSizes sstInfo).sum / sstInfo.length ∧ sstInfo.length ≠ 16 then .dsi
      else .dcs) := by
  obtain ⟨most, hmem, -, hall⟩ := exists_most hne
  have hne' : listed ≠ [] := by
    rintro rfl
    exact hne hperm.nil_eq.symm
  have htotal := @total_le listed most fun other hother => hall other (hperm.mem_iff.mp hother)
  rw [hperm.length_eq] at htotal
  have hmost : (csdSizes listed).foldl max 0 = (csdSizes sstInfo).foldl max 0 :=
    (hperm.map _).foldl_eq 0
  have hsame := and_congr_left fun hoff => total_above_iff hperm (hside hoff)
  rw [selectAlgorithm_ok hne' (htotal.trans_lt (hfits most hmem)), hmost, hperm.length_eq,
    if_congr hsame rfl rfl]

/-- **Auto selection decides on the workload** exactly when there is an SST,
the replica counts fit an `int` however often they are counted, and they are
on the side of the bound where the block counts are: their average, if the
average block count is above the bound, and each of them otherwise. -/
theorem decidesOnWorkload_iff (sstInfo : List SstInfo) :
    DecidesOnWorkload sstInfo ↔
      sstInfo ≠ [] ∧ (∀ sst ∈ sstInfo, sstInfo.length * sst.csd.length < 2 ^ 31) ∧
      ((∃ sst ∈ sstInfo, 2 ≤ sst.csd.length) → (sstInfo.length : Int) ≠ sstUpperBound →
        if (sstInfo.map SstInfo.sstBlockCount).sum.tdiv sstInfo.length > blockUpperBound then
          10000 < (csdSizes sstInfo).sum / sstInfo.length
        else ∀ sst ∈ sstInfo, sst.csd.length ≤ 10000) := by
  have hbound : (sstInfo.length : Int) ≠ sstUpperBound ↔ sstInfo.length ≠ 16 := by
    have hssts : sstUpperBound = 16 := rfl
    omega
  constructor
  · intro h
    refine ⟨?_, fun sst hsst => ?_, h.sides⟩
    · rintro rfl
      obtain ⟨algorithm, horder, -⟩ := h
      have hempty := horder [] (.refl _)
      rw [selectAlgorithm_eq] at hempty
      cases hempty
    · obtain ⟨algorithm, horder, -⟩ := h
      have hfirst := horder _ (List.perm_cons_erase hsst).symm
      exact (total_first hsst).trans_lt (fits_of_selectAlgorithm hfirst)
  · rintro ⟨hne, hfits, hside⟩
    have hsides : sstInfo.length ≠ 16 → 10000 < (csdSizes sstInfo).sum / sstInfo.length ∨
        ∀ sst ∈ sstInfo, sst.csd.length ≤ 10000 := by
      intro hoff
      by_cases hmulti : ∃ sst ∈ sstInfo, 2 ≤ sst.csd.length
      · have hgiven := hside hmulti (hbound.mpr hoff)
        split at hgiven
        · exact .inl hgiven
        · exact .inr hgiven
      · refine .inr fun sst hsst => ?_
        have hone : ¬ 2 ≤ sst.csd.length := fun htwo => hmulti ⟨sst, hsst, htwo⟩
        omega
    refine ⟨_, fun listed hperm => selectAlgorithm_of_perm hperm hne hfits hsides,
      fun hmulti hoff => ?_⟩
    have hgiven := hside hmulti hoff
    obtain ⟨most, hmem, hmax, hall⟩ := exists_most hne
    obtain ⟨other, hother, htwo⟩ := hmulti
    have hle := hall other hother
    rw [if_neg (by omega), workloadAlgorithm]
    split at hgiven
    case isTrue habove => rw [if_pos habove, if_pos ⟨hgiven, hbound.mp hoff⟩]
    case isFalse hbelow =>
      have hlow : ¬ 10000 < (csdSizes sstInfo).sum / sstInfo.length := fun hhigh => by
        have hsum := (RunningMax.sum_le_total 0 (csdSizes sstInfo)).trans (total_le hall)
        have hlow := Nat.div_le_of_le_mul (hsum.trans (Nat.mul_le_mul_left _ (hgiven most hmem)))
        exact Nat.not_le_of_lt hhigh hlow
      rw [if_neg hbelow, if_neg fun hhigh => hlow hhigh.1]

/-- One SST with two replicas and 10001 blocks. -/
def largeScan : List SstInfo :=
  [{ sstName := "a", csd := [⟨"1", "", []⟩, ⟨"2", "", []⟩], sstBlockCount := 10001 }]

/-- The empty list divides by zero, and a workload above the bound is not
seen. -/
theorem not_decidesOnWorkload :
    selectAlgorithm [] = .error .divisionByZero ∧
    selectAlgorithm largeScan = .ok .dcs ∧ workloadAlgorithm largeScan = .dsi ∧
    ¬ DecidesOnWorkload [] ∧ ¬ DecidesOnWorkload largeScan := by
  have hempty : selectAlgorithm [] = .error .divisionByZero := by decide
  have hlarge : selectAlgorithm largeScan = .ok .dcs := by decide
  refine ⟨hempty, hlarge, by decide, ?_, ?_⟩
  · rintro ⟨algorithm, horder, -⟩
    have hnone := horder [] (.refl _)
    rw [hempty] at hnone
    cases hnone
  · rintro ⟨algorithm, horder, hmeant⟩
    have hown := horder largeScan (.refl _)
    rw [hlarge, hmeant ⟨_, List.mem_singleton.mpr rfl, by decide⟩ (by decide)] at hown
    exact absurd hown (by decide)

end KetiEngine.Offloading
