import KetiEngine.Offloading.Scheduler
import KetiEngine.Rounding
import KetiEngine.Lib.DepthFirst
import Mathlib.Data.List.Sections

/-!
# BestPlacement — when DSI finds a best placement

The search of `dfs_for_dsi_algorithm` rates every placement, and the stack it
leaves is read as a placement. It is one only if no level but the last improves
with its last replica.
-/

namespace KetiEngine.Offloading

open KetiEngine DepthFirst

/-! ## The rating of a placement -/

theorem foldl_max_le_iff {M : Type*} [LinearOrder M] {l : List M} {a b : M} :
    l.foldl max a ≤ b ↔ a ≤ b ∧ ∀ x ∈ l, x ≤ b := by
  induction l generalizing a with
  | nil => simp
  | cons x l ih => simp [ih, and_assoc]

/-- The most SSTs on one CSD. -/
def mostOn (p : List String) : Nat := (p.map (p.count ·)).foldl max 0

/-- The number of CSDs used, divided by the most SSTs on one of them. -/
def spread (p : List String) : ℚ := p.dedup.length / mostOn p

theorem csdCountMap_concat (p : List String) (csdId : String) :
    csdCountMap (p ++ [csdId]) =
      (csdCountMap p).insert csdId (((csdCountMap p).lookup csdId).elim 1 (· + 1)) := by
  rw [csdCountMap, List.foldl_append]
  rfl

theorem lookup_csdCountMap (p : List String) (csdId : String) :
    (csdCountMap p).lookup csdId = if csdId ∈ p then some (p.count csdId : Int) else none := by
  induction p using List.reverseRecOn with
  | nil => rfl
  | append_singleton p last ih =>
    rw [csdCountMap_concat]
    by_cases he : csdId = last
    · subst he
      rw [AList.lookup_insert, ih]
      by_cases hmem : csdId ∈ p
      · simp [hmem]
      · simp [hmem, List.count_eq_zero_of_not_mem]
    · rw [AList.lookup_insert_ne he, ih]
      simp [he, Ne.symm he]

/-- There is an entry for each CSD in use. -/
theorem length_csdCountMap (p : List String) :
    (csdCountMap p).entries.length = p.dedup.length := by
  have hkeys : (csdCountMap p).keys.Perm p.dedup := by
    rw [List.perm_ext_iff_of_nodup (AList.keys_nodup _) (List.nodup_dedup p)]
    intro csdId
    rw [← AList.mem_keys, ← AList.lookup_isSome, lookup_csdCountMap, List.mem_dedup]
    split <;> simp [*]
  rw [← hkeys.length_eq]
  simp [AList.keys, List.keys]

theorem mem_csdCountMap {p : List String} {n : Int} :
    n ∈ (csdCountMap p).entries.map Sigma.snd ↔ ∃ csdId ∈ p, (p.count csdId : Int) = n := by
  have hentry : ∀ csdId m, (⟨csdId, m⟩ : Sigma fun _ : String => Int) ∈ (csdCountMap p).entries ↔
      csdId ∈ p ∧ (p.count csdId : Int) = m := by
    intro csdId m
    rw [← AList.mem_lookup_iff, lookup_csdCountMap]
    split <;> simp [*]
  constructor
  · intro h
    obtain ⟨⟨csdId, m⟩, hmem, rfl⟩ := List.mem_map.mp h
    exact ⟨csdId, (hentry csdId m).mp hmem⟩
  · rintro ⟨csdId, hp, hcount⟩
    exact List.mem_map.mpr ⟨⟨csdId, n⟩, (hentry csdId n).mpr ⟨hp, hcount⟩, rfl⟩

theorem count_le_mostOn {p : List String} {csdId : String} (h : csdId ∈ p) :
    p.count csdId ≤ mostOn p :=
  (foldl_max_le_iff.mp le_rfl).2 _ (List.mem_map.mpr ⟨csdId, h, rfl⟩)

theorem maxDuplication_eq (p : List String) :
    ((csdCountMap p).entries.map Sigma.snd).foldl max 0 = (mostOn p : Int) := by
  apply le_antisymm
  · refine foldl_max_le_iff.mpr ⟨by omega, fun n hn => ?_⟩
    obtain ⟨csdId, hp, rfl⟩ := mem_csdCountMap.mp hn
    exact_mod_cast count_le_mostOn hp
  · have hcounts := (foldl_max_le_iff (l := (csdCountMap p).entries.map Sigma.snd) (a := 0)).mp
      le_rfl
    have hmost : mostOn p ≤ (((csdCountMap p).entries.map Sigma.snd).foldl max 0).toNat := by
      refine foldl_max_le_iff.mpr ⟨by omega, fun n hn => ?_⟩
      obtain ⟨csdId, hp, rfl⟩ := List.mem_map.mp hn
      have hle := hcounts.2 _ (mem_csdCountMap.mpr ⟨csdId, hp, rfl⟩)
      omega
    have hzero := hcounts.1
    omega

/-- What the source rates a placement by. -/
theorem varianceScore_eq (p : List String) :
    varianceScore p = ((Double.ofInt p.dedup.length).toFloat.div
      (Double.ofInt (mostOn p)).toFloat).toFloat := by
  simp only [varianceScore, length_csdCountMap, maxDuplication_eq]

theorem mostOn_le (p : List String) : mostOn p ≤ p.length :=
  foldl_max_le_iff.mpr ⟨Nat.zero_le _, fun n hn => by
    obtain ⟨csdId, -, rfl⟩ := List.mem_map.mp hn
    exact List.count_le_length⟩

theorem mostOn_pos {p : List String} (h : p ≠ []) : 0 < mostOn p := by
  obtain ⟨csdId, hp⟩ := List.exists_mem_of_ne_nil p h
  exact (List.count_pos_iff.mpr hp).trans_le (count_le_mostOn hp)

/-- An `int` that is positive becomes a positive `float`. -/
theorem toFloat_ofInt {n : Nat} (hpos : 0 < n) (hint : n < 2 ^ 31) :
    ∃ r : ℚ, (Double.ofInt n).toFloat = .fin r ∧ 2 ^ (-1 : Int) ≤ r ∧ r < 2 ^ (32 : Int) := by
  have hlo : (1 : ℚ) ≤ n := by exact_mod_cast hpos
  have hhi : (n : ℚ) < 2 ^ 31 := by exact_mod_cast hint
  have hsmall : (2 : ℚ) ^ (-100 : Int) ≤ 1 := by norm_num
  have hlarge : (2 : ℚ) ^ 31 < 2 ^ (100 : Int) := by norm_num
  obtain ⟨r, hr, hdown, hup⟩ := Double.toFloat_fin (hsmall.trans hlo) (hhi.trans hlarge)
  refine ⟨r, by exact_mod_cast hr, ?_, ?_⟩
  · norm_num
    linarith
  · have hdouble : (2 : ℚ) * 2 ^ 31 = 2 ^ (32 : Int) := by norm_num
    linarith

/-- The rating of a placement is a positive number. -/
theorem varianceScore_fin {p : List String} (h : p ≠ []) (hint : p.length < 2 ^ 31) :
    ∃ q : ℚ, varianceScore p = .fin q ∧ 0 < q := by
  have hdedup : 0 < p.dedup.length := by
    obtain ⟨csdId, hp⟩ := List.exists_mem_of_ne_nil p h
    exact List.length_pos_of_mem (List.mem_dedup.mpr hp)
  have hused := (List.dedup_sublist p).length_le
  have hmost := mostOn_le p
  obtain ⟨a, ha, ha1, ha2⟩ := toFloat_ofInt hdedup (by omega)
  obtain ⟨b, hb, hb1, hb2⟩ := toFloat_ofInt (mostOn_pos h) (by omega)
  have hapos : 0 < a := lt_of_lt_of_le (by positivity) ha1
  have hbpos : 0 < b := lt_of_lt_of_le (by positivity) hb1
  have hlow : (2 : ℚ) ^ (-100 : Int) ≤ a / b := by
    rw [le_div_iff₀ hbpos]
    norm_num at ha1 hb2 ⊢
    linarith
  have hhigh : a / b < 2 ^ (100 : Int) := by
    rw [div_lt_iff₀ hbpos]
    norm_num at ha2 hb1 ⊢
    linarith
  obtain ⟨q, hq, hdown, -⟩ := Double.toFloat_fin hlow hhigh
  have hquotient : (0 : ℚ) < a / b := div_pos hapos hbpos
  refine ⟨q, ?_, by linarith⟩
  rw [varianceScore_eq, ha, hb, Double.div, if_neg hbpos.ne', hq]

/-! ## The search of the source -/

/-- The number a finite score is. -/
def scoreOf : Double → ℚ
  | .fin q => q
  | _ => 0

/-- `variance_score` of a stack. -/
def stackRating (stack : List String) : ℚ := scoreOf (varianceScore stack)

/-- The rating of a placement, the CSD of the first SST first. -/
def rating (p : List String) : ℚ := stackRating p.reverse

/-- One replica of each SST. -/
def Placement (sstInfo : List SstInfo) (p : List String) : Prop :=
  Completion (sstInfo.map csdIds) p

theorem placement_iff_sections {sstInfo : List SstInfo} {p : List String} :
    Placement sstInfo p ↔ p ∈ (sstInfo.map csdIds).sections := by
  rw [List.mem_sections]
  exact ⟨List.Forall₂.flip, List.Forall₂.flip⟩

/-- The search of the source is the search over the replicas, as long as every
score is a number. -/
theorem dfsForDsi_eq {sstInfo : List SstInfo} {selectedCsd : List String}
    (hscores : ∀ p, Placement sstInfo p →
      varianceScore (p.reverse ++ selectedCsd) = .fin (stackRating (p.reverse ++ selectedCsd)))
    (globalCsd : List String) :
    dfsForDsi sstInfo selectedCsd globalCsd =
      (.fin (search stackRating (-1) (sstInfo.map csdIds) selectedCsd globalCsd).1,
        (search stackRating (-1) (sstInfo.map csdIds) selectedCsd globalCsd).2) := by
  induction sstInfo generalizing selectedCsd globalCsd with
  | nil => exact Prod.ext (hscores [] .nil) rfl
  | cons sst rest ih =>
    have hbelow : ∀ csdId ∈ csdIds sst, ∀ globalCsd,
        dfsForDsi rest (csdId :: selectedCsd) globalCsd =
          (.fin (search stackRating (-1) (rest.map csdIds) (csdId :: selectedCsd) globalCsd).1,
            (search stackRating (-1) (rest.map csdIds) (csdId :: selectedCsd) globalCsd).2) := by
      intro csdId hmem globalCsd
      refine ih (fun p hp => ?_) globalCsd
      simpa using hscores (csdId :: p) (.cons hmem hp)
    rw [dfsForDsi, List.map_cons]
    -- the loops go over the replicas together
    have hloop : ∀ (csd : List SstCsd), (∀ c ∈ csd, c.csdId ∈ csdIds sst) →
        csd.foldl (fun st c =>
          let selectedCsd := c.csdId :: selectedCsd
          let found := dfsForDsi rest selectedCsd st.2
          if st.1.blt found.1 then (found.1, selectedCsd) else (st.1, found.2))
          (.fin (-1), globalCsd) =
        (.fin (search stackRating (-1) (csd.map (·.csdId) :: rest.map csdIds) selectedCsd
            globalCsd).1,
          (search stackRating (-1) (csd.map (·.csdId) :: rest.map csdIds) selectedCsd
            globalCsd).2) := by
      intro csd
      induction csd using List.reverseRecOn with
      | nil => exact fun _ => rfl
      | append_singleton csd c ihc =>
        intro hmem
        rw [List.foldl_append, ihc fun c hc => hmem c (by simp [hc]), List.map_append,
          List.map_singleton, search_concat]
        simp only [List.foldl_cons, List.foldl_nil, hbelow c.csdId (hmem c (by simp)), Double.blt,
          decide_eq_true_eq]
        split <;> rfl
    exact hloop sst.csd fun c hc => List.mem_map.mpr ⟨c, hc, rfl⟩

/-! ## Reading the stack -/

/-- Every SST is placed as `p` says. -/
def PlacedAs (bestcsd : SortedMap String String) (sstInfo : List SstInfo) (p : List String) :
    Prop :=
  sstInfo.map (fun sst => bestcsd.find? sst.sstName) = p.map some

/-- A stack with too few CSDs is popped when it is empty. -/
theorem foldlM_dsiPop_none {sstInfo : List SstInfo} {globalCsd : List String}
    (h : globalCsd.length < sstInfo.length) (bestcsd : SortedMap String String) :
    sstInfo.foldlM dsiPop (globalCsd, bestcsd) = none := by
  induction sstInfo generalizing globalCsd bestcsd with
  | nil => simp at h
  | cons sst rest ih =>
    rw [List.foldlM_cons]
    cases globalCsd with
    | nil => rfl
    | cons csdId globalCsd => exact ih (by simpa using h) _

/-- A stack with a CSD for each SST places them all. -/
theorem foldlM_dsiPop {sstInfo : List SstInfo} {globalCsd : List String}
    (h : globalCsd.length = sstInfo.length) (hnames : (sstInfo.map SstInfo.sstName).Nodup)
    {bestcsd : SortedMap String String} (hnew : ∀ sst ∈ sstInfo, bestcsd.find? sst.sstName = none) :
    ∃ bestcsd', sstInfo.foldlM dsiPop (globalCsd, bestcsd) = some ([], bestcsd') ∧
      PlacedAs bestcsd' sstInfo globalCsd ∧
      ∀ name ∉ sstInfo.map SstInfo.sstName, bestcsd'.find? name = bestcsd.find? name := by
  induction sstInfo generalizing globalCsd bestcsd with
  | nil =>
    obtain rfl := List.eq_nil_of_length_eq_zero h
    exact ⟨bestcsd, rfl, rfl, fun _ _ => rfl⟩
  | cons sst rest ih =>
    cases globalCsd with
    | nil => simp at h
    | cons csdId globalCsd =>
      obtain ⟨hname, hnames⟩ := List.nodup_cons.mp hnames
      have hinsert : ∀ name, (bestcsd.insertNew sst.sstName csdId).find? name =
          if name = sst.sstName then some csdId else bestcsd.find? name := by
        intro name
        rw [SortedMap.find?_insertNew, hnew sst (by simp), Option.getD_none]
      obtain ⟨bestcsd', hrun, hplaced, hothers⟩ := @ih globalCsd (by simpa using h) hnames
        (bestcsd.insertNew sst.sstName csdId) fun other hother => by
          have hne : ¬ other.sstName = sst.sstName := fun he =>
            hname (he ▸ List.mem_map_of_mem hother)
          rw [hinsert, if_neg hne, hnew other (by simp [hother])]
      refine ⟨bestcsd', hrun, ?_, fun name hname' => ?_⟩
      · have hown : bestcsd'.find? sst.sstName = some csdId := by
          rw [hothers _ hname, hinsert, if_pos rfl]
        rw [PlacedAs, List.map_cons, List.map_cons, hown]
        exact congrArg _ hplaced
      · simp only [List.map_cons, List.mem_cons, not_or] at hname'
        rw [hothers name hname'.2, hinsert, if_neg hname'.1]

/-- What `DSI_Algorithm` makes of the stack that the search leaves. -/
theorem dsiAlgorithm_spec {sstInfo : List SstInfo}
    (hnames : (sstInfo.map SstInfo.sstName).Nodup)
    (hlength : (dfsForDsi sstInfo [] []).2.length ≤ sstInfo.length) :
    if (dfsForDsi sstInfo [] []).2.length = sstInfo.length then
      ∃ bestcsd, dsiAlgorithm sstInfo = some bestcsd ∧
        PlacedAs bestcsd sstInfo (dfsForDsi sstInfo [] []).2.reverse
    else dsiAlgorithm sstInfo = none := by
  simp only [dsiAlgorithm]
  split
  · rename_i hfull
    obtain ⟨bestcsd, hrun, hplaced, -⟩ := @foldlM_dsiPop sstInfo.reverse
      (dfsForDsi sstInfo [] []).2 (by rw [hfull, List.length_reverse])
      (by rwa [List.map_reverse, List.nodup_reverse]) ∅ fun _ _ => rfl
    refine ⟨bestcsd, by rw [hrun]; rfl, ?_⟩
    rw [PlacedAs, List.map_reverse] at hplaced ⊢
    rw [← hplaced, List.reverse_reverse]
  · rename_i hshort
    rw [foldlM_dsiPop_none (by rw [List.length_reverse]; omega)]
    rfl

/-! ## Best placements -/

/-- No empty stack is popped, and the SSTs are on replicas of their own, spread
as well as any placement is. -/
def FindsBest (sstInfo : List SstInfo) : Prop :=
  ∃ bestcsd p, dsiAlgorithm sstInfo = some bestcsd ∧ PlacedAs bestcsd sstInfo p ∧
    Placement sstInfo p ∧ ∀ p', Placement sstInfo p' → spread p' ≤ spread p

/-- The last replicas of some SSTs. -/
def lastCsds (sstInfo : List SstInfo) : List String := sstInfo.filterMap lastCsd

/-- With the last replicas of the SSTs before, every SST but the last one has a
replica other than its last that can be completed to as good a rating as the
last, and for the last SST the first replica of the highest rating gives a best
placement. -/
structure LastsSettle (sstInfo : List SstInfo) : Prop where
  earlier : ∀ before sst after, sstInfo = before ++ sst :: after → after ≠ [] →
    ∃ csdId ∈ (csdIds sst).dropLast, ∀ last ∈ lastCsd sst,
      ∃ p, Placement after p ∧ ∀ p', Placement after p' →
        rating (lastCsds before ++ last :: p') ≤ rating (lastCsds before ++ csdId :: p)
  final : ∀ before sst, sstInfo = before ++ [sst] →
    ∀ csdId ∈ (csdIds sst).argmax fun csdId => rating (lastCsds before ++ [csdId]),
      ∀ p, Placement sstInfo p → spread p ≤ spread (lastCsds before ++ [csdId])

theorem rating_append (q : List String) (csdId : String) (p : List String) :
    rating (q ++ csdId :: p) = stackRating (p.reverse ++ csdId :: (q.reverse ++ [])) := by
  simp [rating]

theorem lasts_map_csdIds (sstInfo : List SstInfo) :
    lasts (sstInfo.map csdIds) = lastCsds sstInfo := by
  simp only [lasts, lastCsds, List.filterMap_map]
  rfl

/-- Whether the search settles, by the SSTs. -/
theorem settles_iff_earlier {sstInfo : List SstInfo}
    (h : Rated stackRating (-1) (sstInfo.map csdIds) []) :
    Settles stackRating (-1) (sstInfo.map csdIds) [] ↔
      ∀ before sst after, sstInfo = before ++ sst :: after → after ≠ [] →
        ∃ csdId ∈ (csdIds sst).dropLast, ∀ last ∈ lastCsd sst,
          ∃ p, Placement after p ∧ ∀ p', Placement after p' →
            rating (lastCsds before ++ last :: p') ≤ rating (lastCsds before ++ csdId :: p) := by
  rw [settles_iff h]
  simp only [rating_append]
  constructor
  · intro hlevels before sst after hsplit hafter
    have hown := hlevels (before.map csdIds) (csdIds sst) (after.map csdIds) (by simp [hsplit])
      (by simpa using hafter)
    rwa [lasts_map_csdIds] at hown
  · intro hssts before choices after hsplit hafter
    obtain ⟨before, rest, rfl, rfl, hrest⟩ := List.map_eq_append_iff.mp hsplit
    obtain ⟨sst, after, rfl, rfl, rfl⟩ := List.map_eq_cons_iff.mp hrest
    rw [lasts_map_csdIds]
    exact hssts before sst after rfl (by simpa using hafter)

section
variable {sstInfo : List SstInfo} (hcsd : ∀ sst ∈ sstInfo, sst.csd ≠ []) (hnil : sstInfo ≠ [])
  (hsize : sstInfo.length < 2 ^ 31)
include hnil hsize

/-- The score of a placement is a positive number. -/
theorem varianceScore_placement {p : List String} (hp : Placement sstInfo p) :
    ∃ q : ℚ, varianceScore (p.reverse ++ []) = .fin q ∧ 0 < q := by
  have hlength : p.length = sstInfo.length := by simpa using hp.length_eq.symm
  have hpos := List.length_pos_iff.mpr hnil
  refine varianceScore_fin ?_ (by simpa [hlength] using hsize)
  intro he
  obtain rfl : p = [] := by simpa using he
  simp only [List.length_nil] at hlength
  omega

include hcsd

theorem rated_csdIds : Rated stackRating (-1) (sstInfo.map csdIds) [] := by
  refine ⟨fun choices hchoices => ?_, fun p hp => ?_⟩
  · obtain ⟨sst, hsst, rfl⟩ := List.mem_map.mp hchoices
    simpa [csdIds] using hcsd sst hsst
  · obtain ⟨q, hq, hpos⟩ := varianceScore_placement hnil hsize hp
    rw [stackRating, hq]
    exact lt_trans (by norm_num) hpos

/-- A search that settles places every SST, and one that does not leaves too
short a stack. -/
theorem dsiAlgorithm_search (hnames : (sstInfo.map SstInfo.sstName).Nodup) :
    (Settles stackRating (-1) (sstInfo.map csdIds) [] →
      ∃ bestcsd, dsiAlgorithm sstInfo = some bestcsd ∧ PlacedAs bestcsd sstInfo
        (search stackRating (-1) (sstInfo.map csdIds) [] []).2.reverse) ∧
    (¬ Settles stackRating (-1) (sstInfo.map csdIds) [] → dsiAlgorithm sstInfo = none) := by
  have hrated := rated_csdIds hcsd hnil hsize
  have hdfs := @dfsForDsi_eq sstInfo [] (fun p hp => by
    obtain ⟨q, hq, -⟩ := varianceScore_placement hnil hsize hp
    rw [stackRating, hq]
    rfl) []
  have hlevels : sstInfo.map csdIds ≠ [] := by simpa using hnil
  have hle := length_search_le hlevels hrated []
  have hfull := length_search_iff hlevels hrated []
  simp only [List.length_nil, Nat.zero_add, List.length_map] at hle hfull
  have hspec := dsiAlgorithm_spec hnames (by rw [hdfs]; exact hle)
  rw [hdfs] at hspec
  refine ⟨fun hsettles => ?_, fun hsettles => ?_⟩
  · rwa [if_pos (hfull.mpr hsettles)] at hspec
  · rwa [if_neg (mt hfull.mp hsettles)] at hspec

end

/-- A search that settles leaves the last replicas, and of the last SST the
first replica of the highest rating. -/
theorem dsiAlgorithm_of_settles {outer : List SstInfo} {sst : SstInfo}
    (hcsd : ∀ other ∈ outer ++ [sst], other.csd ≠ [])
    (hnames : ((outer ++ [sst]).map SstInfo.sstName).Nodup)
    (hsize : (outer ++ [sst]).length < 2 ^ 31)
    (hsettles : Settles stackRating (-1) ((outer ++ [sst]).map csdIds) []) :
    ∃ bestcsd csdId, dsiAlgorithm (outer ++ [sst]) = some bestcsd ∧
      (csdIds sst).argmax (fun csdId => rating (lastCsds outer ++ [csdId])) = some csdId ∧
      PlacedAs bestcsd (outer ++ [sst]) (lastCsds outer ++ [csdId]) ∧
      Placement (outer ++ [sst]) (lastCsds outer ++ [csdId]) := by
  have hrated := rated_csdIds hcsd (by simp) hsize
  obtain ⟨bestcsd, hrun, hplaced⟩ :=
    (dsiAlgorithm_search hcsd (by simp) hsize hnames).1 hsettles
  have hmap : (outer ++ [sst]).map csdIds = outer.map csdIds ++ [csdIds sst] := by simp
  obtain ⟨csdId, hbest, hkept⟩ := search_of_settles (hmap ▸ hrated) (hmap ▸ hsettles) []
  rw [hmap, hkept, lasts_map_csdIds] at hplaced
  rw [lasts_map_csdIds] at hbest
  have hchoice : (csdId :: ((lastCsds outer).reverse ++ [])).reverse =
      lastCsds outer ++ [csdId] := by simp
  rw [hchoice] at hplaced
  refine ⟨bestcsd, csdId, hrun, by simpa [rating_append] using hbest, hplaced, ?_⟩
  rw [Placement, hmap, ← lasts_map_csdIds]
  refine List.rel_append (completion_lasts fun choices hchoices => ?_)
    (.cons (List.argmax_mem hbest) .nil)
  exact hrated.inhabited choices (by rw [hmap]; exact List.mem_append_left _ hchoices)

/-- **DSI finds a best placement** exactly when the last replicas settle. -/
theorem dsi_finds_best_iff {sstInfo : List SstInfo} (hcsd : ∀ sst ∈ sstInfo, sst.csd ≠ [])
    (hnames : (sstInfo.map SstInfo.sstName).Nodup) (hsize : sstInfo.length < 2 ^ 31) :
    FindsBest sstInfo ↔ LastsSettle sstInfo := by
  by_cases hnil : sstInfo = []
  · subst hnil
    refine iff_of_true ⟨∅, [], rfl, rfl, .nil, ?_⟩ ⟨by simp, by simp⟩
    rintro p' ⟨⟩
    exact le_refl _
  have hearlier := settles_iff_earlier (rated_csdIds hcsd hnil hsize)
  by_cases hsettles : Settles stackRating (-1) (sstInfo.map csdIds) []
  · obtain ⟨outer, sst, rfl⟩ := (List.eq_nil_or_concat' sstInfo).resolve_left hnil
    obtain ⟨bestcsd, csdId, hrun, hargmax, hplaced, hplacement⟩ :=
      dsiAlgorithm_of_settles hcsd hnames hsize hsettles
    constructor
    · rintro ⟨bestcsd', p, hrun', hplaced', -, hall⟩
      obtain rfl : bestcsd = bestcsd' := Option.some.inj (hrun.symm.trans hrun')
      obtain rfl : lastCsds outer ++ [csdId] = p :=
        List.map_injective_iff.mpr (Option.some_injective _) (hplaced.symm.trans hplaced')
      refine ⟨hearlier.mp hsettles, fun before other hsplit a ha => ?_⟩
      obtain ⟨rfl, he⟩ := List.append_inj' hsplit rfl
      obtain ⟨rfl, -⟩ := List.cons.inj he
      obtain rfl : csdId = a := Option.some.inj (hargmax.symm.trans ha)
      exact hall
    · intro h
      exact ⟨bestcsd, lastCsds outer ++ [csdId], hrun, hplaced, hplacement,
        h.final outer sst rfl csdId hargmax⟩
  · refine iff_of_false ?_ fun h => hsettles (hearlier.mpr h.earlier)
    rintro ⟨bestcsd, p, hrun, -⟩
    rw [(dsiAlgorithm_search hcsd hnil hsize hnames).2 hsettles] at hrun
    cases hrun

/-- Three SSTs with replicas on three CSDs. Some of their placements leave a
CSD out, others use all three. -/
def threeSsts : List SstInfo :=
  [{ sstName := "a", csd := [⟨"1", "", []⟩, ⟨"2", "", []⟩], sstBlockCount := 1 },
    { sstName := "b", csd := [⟨"3", "", []⟩, ⟨"1", "", []⟩], sstBlockCount := 1 },
    { sstName := "c", csd := [⟨"1", "", []⟩, ⟨"2", "", []⟩, ⟨"3", "", []⟩], sstBlockCount := 1 }]

/-- Nothing is rated higher than three CSDs with one SST each. -/
theorem threeSsts_settle : LastsSettle threeSsts := by
  refine ⟨fun before sst after hsplit hafter => ?_, fun before sst hsplit csdId hbest p hp => ?_⟩
  · rcases before with _ | ⟨a, _ | ⟨b, _ | ⟨c, before⟩⟩⟩
    · obtain ⟨rfl, rfl⟩ := List.cons.inj hsplit
      refine ⟨"1", by decide, fun last hlast => ⟨["3", "2"], ?_, fun p' hp' => ?_⟩⟩
      · exact placement_iff_sections.mpr (by decide)
      · obtain rfl : "2" = last := Option.some.inj hlast
        have hall : ∀ p' ∈ (threeSsts.tail.map csdIds).sections,
            rating ("2" :: p') ≤ rating ["1", "3", "2"] := by decide +kernel
        exact hall p' (placement_iff_sections.mp hp')
    · obtain ⟨rfl, hrest⟩ := List.cons.inj hsplit
      obtain ⟨rfl, rfl⟩ := List.cons.inj hrest
      refine ⟨"3", by decide, fun last hlast => ⟨["1"], ?_, fun p' hp' => ?_⟩⟩
      · exact placement_iff_sections.mpr (by decide)
      · obtain rfl : "1" = last := Option.some.inj hlast
        have hall : ∀ p' ∈ (threeSsts.tail.tail.map csdIds).sections,
            rating ("2" :: "1" :: p') ≤ rating ["2", "3", "1"] := by decide +kernel
        exact hall p' (placement_iff_sections.mp hp')
    · simp [threeSsts] at hsplit
      exact absurd hsplit.2.2.2 hafter
    · simp [threeSsts] at hsplit
  · have hlast : threeSsts.dropLast ++ [_] = before ++ [sst] := hsplit
    obtain ⟨rfl, he⟩ := List.append_inj' hlast rfl
    obtain ⟨rfl, -⟩ := List.cons.inj he
    have hargmax : ["1", "2", "3"].argmax (fun csdId => rating ["2", "1", csdId]) = some "3" := by
      decide +kernel
    obtain rfl : "3" = csdId := Option.some.inj (hargmax.symm.trans hbest)
    have hall : ∀ p ∈ (threeSsts.map csdIds).sections, spread p ≤ spread ["2", "1", "3"] := by
      decide +kernel
    exact hall p (placement_iff_sections.mp hp)

/-- The three SSTs are on three CSDs. -/
theorem threeSsts_find_best : FindsBest threeSsts :=
  (dsi_finds_best_iff (by decide) (by decide) (by decide)).mpr threeSsts_settle

/-- Of two SSTs with one replica each the stack holds only the first. -/
theorem singleSsts_pops_empty :
    (∀ sst ∈ singleSsts, sst.csd ≠ []) ∧ (singleSsts.map SstInfo.sstName).Nodup ∧
    dsiAlgorithm singleSsts = none ∧ ¬ FindsBest singleSsts := by
  have hnone : dsiAlgorithm singleSsts = none := by
    rw [← Option.isNone_iff_eq_none]
    decide +kernel
  refine ⟨by decide, by decide, hnone, ?_⟩
  rintro ⟨bestcsd, p, hrun, -⟩
  rw [hnone] at hrun
  cases hrun

end KetiEngine.Offloading
