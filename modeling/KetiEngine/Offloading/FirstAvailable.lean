import KetiEngine.Offloading.Scheduler
import KetiEngine.Lib.Loops
import Mathlib.Data.List.MinMax

/-!
# FirstAvailable — when DFA comes to an end

The inner loop of `DFA_Algorithm` tests the index of the SST where it should
test that of the replica. An SST is placed only in the first round, on the first
of its CSDs that no SST before it took.
-/

namespace KetiEngine.Offloading

open KetiEngine

/-! ## One SST -/

/-- The first CSD of an SST that is not taken. -/
def firstFree (taken : List String) (sst : SstInfo) : Option String :=
  (csdIds sst).find? (· ∉ taken)

/-- The map counts one SST on every taken CSD. -/
def CountsTaken (csdPenaltyMap : CsdMap) (taken : List String) : Prop :=
  ∀ csdId, csdPenaltyMap.lookup csdId = if csdId ∈ taken then some 1 else none

theorem CountsTaken.insert {csdPenaltyMap : CsdMap} {taken : List String}
    (h : CountsTaken csdPenaltyMap taken) (csdId : String) :
    CountsTaken (csdPenaltyMap.insert csdId 1) (taken ++ [csdId]) := by
  intro csdId'
  by_cases he : csdId' = csdId
  · subst he
    simp
  · rw [AList.lookup_insert_ne he, h csdId']
    simp [he]

/-- In the first round a replica is taken if it is on a free CSD; a scan that
finds none leaves the list. -/
theorem dfaScan_one {csdPenaltyMap : CsdMap} {taken : List String}
    (h : CountsTaken csdPenaltyMap taken) (csd : List SstCsd) :
    dfaScan csdPenaltyMap 1 csd =
      ((csd.map (·.csdId)).find? (· ∉ taken)).elim (.error .outOfRange)
        fun csdId => .ok (csdId, csdPenaltyMap.insert csdId 1) := by
  induction csd with
  | nil => rfl
  | cons c rest ih =>
    rw [dfaScan, h c.csdId, List.map_cons, List.find?_cons]
    by_cases htaken : c.csdId ∈ taken <;> simp [htaken, ih]

/-- An SST with too few replicas keeps the outer loop going. -/
theorem dfaSelect_running {i : Nat} {csd : List SstCsd} (h : csd.length ≤ i)
    (csdPenaltyMap : CsdMap) (rounds : Nat) (minAllocated : Int) :
    dfaSelect i csd csdPenaltyMap rounds minAllocated = .error .running := by
  induction rounds generalizing minAllocated with
  | zero => rfl
  | succ rounds ih => rw [dfaSelect, if_neg (by omega), ih]

/-- What the loops come to for one SST. -/
theorem dfaSelect_eq_ok_iff {i rounds : Nat} {sst : SstInfo} {csdPenaltyMap : CsdMap}
    {taken : List String} (h : CountsTaken csdPenaltyMap taken) {r : String × CsdMap} :
    dfaSelect i sst.csd csdPenaltyMap (rounds + 1) 1 = .ok r ↔
      i < sst.csd.length ∧ firstFree taken sst = some r.1 ∧
        r.2 = csdPenaltyMap.insert r.1 1 := by
  by_cases hi : i < sst.csd.length
  · rw [dfaSelect, if_pos hi, dfaScan_one h]
    unfold firstFree csdIds
    cases (sst.csd.map (·.csdId)).find? (· ∉ taken) with
    | none => simp
    | some csdId =>
      simp only [Option.elim_some, Except.ok.injEq, Option.some.injEq, hi, true_and]
      constructor
      · rintro rfl
        exact ⟨rfl, rfl⟩
      · rintro ⟨rfl, hr⟩
        exact Prod.ext rfl hr.symm
  · rw [dfaSelect_running (by omega)]
    simp [hi]

/-! ## Taking turns -/

/-- From the SST at index `i` on, each SST has more replicas than its index and
takes the first CSD that none before it took. -/
def TakesTurns : Nat → List String → List SstInfo → Prop
  | _, _, [] => True
  | i, taken, sst :: rest =>
      i < sst.csd.length ∧
        ∃ csdId, firstFree taken sst = some csdId ∧ TakesTurns (i + 1) (taken ++ [csdId]) rest

theorem takesTurns_of_dfaFrom {rounds i : Nat} {sstInfo : List SstInfo}
    {bestcsd bestcsd' : SortedMap String String} {csdPenaltyMap : CsdMap} {taken : List String}
    (h : CountsTaken csdPenaltyMap taken)
    (hrun : dfaFrom (rounds + 1) i sstInfo bestcsd csdPenaltyMap = .ok bestcsd') :
    TakesTurns i taken sstInfo := by
  induction sstInfo generalizing i bestcsd csdPenaltyMap taken with
  | nil => trivial
  | cons sst rest ih =>
    rw [dfaFrom] at hrun
    cases hselect : dfaSelect i sst.csd csdPenaltyMap (rounds + 1) 1 with
    | error e =>
      rw [hselect] at hrun
      cases hrun
    | ok r =>
      rw [hselect] at hrun
      obtain ⟨hi, hfree, hmap⟩ := (dfaSelect_eq_ok_iff h).mp hselect
      refine ⟨hi, r.1, hfree, ih ?_ hrun⟩
      rw [hmap]
      exact h.insert r.1

/-- Each SST is on the first of its CSDs among those with the fewest SSTs
before it. -/
def Balanced (bestcsd : SortedMap String String) (sstInfo : List SstInfo) : Prop :=
  ∀ before sst after, sstInfo = before ++ sst :: after →
    ∃ csdId ∈ (csdIds sst).argmin (placedOn bestcsd before),
      bestcsd.find? sst.sstName = some csdId

/-- The first element on which a function is zero is the first of its minima. -/
theorem mem_argmin_of_find? {f : String → Nat} {l : List String} {p : String → Bool}
    (hp : ∀ a, p a = true ↔ f a = 0) {a : String} (h : l.find? p = some a) :
    a ∈ l.argmin f := by
  have hzero : f a = 0 := (hp a).mp (List.find?_some h)
  refine List.mem_argmin_iff.mpr ⟨List.mem_of_find?_eq_some h, fun b _ => by omega, ?_⟩
  intro b hb hle
  obtain ⟨-, before, after, rfl, hbefore⟩ := List.find?_eq_some_iff_append.mp h
  have hnot : ∀ c, f c = 0 → c ∉ before := fun c hc hmem => by
    simpa [(hp c).mpr hc] using hbefore c hmem
  rw [List.idxOf_append_of_notMem (hnot a hzero), List.idxOf_append_of_notMem (hnot b (by omega)),
    List.idxOf_cons_self]
  omega

/-- The state of the algorithm after some SSTs. -/
structure InTurn (done : List SstInfo) (bestcsd : SortedMap String String)
    (csdPenaltyMap : CsdMap) (taken : List String) : Prop where
  counts : CountsTaken csdPenaltyMap taken
  placed : ∀ csdId, placedOn bestcsd done csdId = if csdId ∈ taken then 1 else 0
  balanced : Balanced bestcsd done

theorem InTurn.step {done : List SstInfo} {bestcsd : SortedMap String String}
    {csdPenaltyMap : CsdMap} {taken : List String}
    (h : InTurn done bestcsd csdPenaltyMap taken) {sst : SstInfo} {csdId : String}
    (hname : sst.sstName ∉ done.map SstInfo.sstName) (hfree : firstFree taken sst = some csdId) :
    InTurn (done ++ [sst]) (bestcsd.insert sst.sstName csdId) (csdPenaltyMap.insert csdId 1)
      (taken ++ [csdId]) := by
  have hnew : csdId ∉ taken := by simpa using List.find?_some hfree
  refine ⟨h.counts.insert csdId, fun csdId' => ?_, ?_⟩
  · have hsplit : placedOn (bestcsd.insert sst.sstName csdId) (done ++ [sst]) csdId' =
        placedOn bestcsd done csdId' + if csdId' = csdId then 1 else 0 := by
      rw [← placedOn_insert hname csdId csdId']
      simp [placedOn, List.countP_append, SortedMap.find?_insert, eq_comm]
    rw [hsplit, h.placed csdId']
    by_cases he : csdId' = csdId
    · simp [he, hnew]
    · simp [he]
  · have hplaced : ∀ before after, done = before ++ after →
        placedOn (bestcsd.insert sst.sstName csdId) before = placedOn bestcsd before := by
      intro before after hdone
      funext csdId'
      refine placedOn_insert (fun hmem => hname ?_) csdId csdId'
      rw [hdone, List.map_append]
      exact List.mem_append_left _ hmem
    refine Loops.forall_split_concat.mpr ⟨fun before other after hdone => ?_, ?_⟩
    · obtain ⟨csdId', hmin, hfound⟩ := h.balanced before other after hdone
      have hother : ¬ other.sstName = sst.sstName := fun he => hname (he ▸
        List.mem_map_of_mem (by simp [hdone]))
      refine ⟨csdId', by rwa [hplaced before _ hdone], ?_⟩
      rw [SortedMap.find?_insert, if_neg hother, hfound]
    · refine ⟨csdId, ?_, by rw [SortedMap.find?_insert, if_pos rfl]⟩
      rw [hplaced done [] (by simp)]
      refine mem_argmin_of_find? (fun csdId' => ?_) hfree
      rw [h.placed csdId']
      simp

/-- SSTs that take turns are placed in the first round each. -/
theorem dfaFrom_of_takesTurns (rounds : Nat) {i : Nat} {done rest : List SstInfo}
    {bestcsd : SortedMap String String} {csdPenaltyMap : CsdMap} {taken : List String}
    (hnames : ((done ++ rest).map SstInfo.sstName).Nodup)
    (h : InTurn done bestcsd csdPenaltyMap taken) (hturns : TakesTurns i taken rest) :
    ∃ bestcsd', dfaFrom (rounds + 1) i rest bestcsd csdPenaltyMap = .ok bestcsd' ∧
      Balanced bestcsd' (done ++ rest) := by
  induction rest generalizing i done bestcsd csdPenaltyMap taken with
  | nil => exact ⟨bestcsd, rfl, by simpa using h.balanced⟩
  | cons sst rest ih =>
    obtain ⟨hi, csdId, hfree, hrest⟩ := hturns
    have hname := sstName_not_mem hnames
    have hselect : dfaSelect i sst.csd csdPenaltyMap (rounds + 1) 1 =
        .ok (csdId, csdPenaltyMap.insert csdId 1) :=
      (dfaSelect_eq_ok_iff h.counts).mpr ⟨hi, hfree, rfl⟩
    rw [← List.singleton_append, ← List.append_assoc] at hnames
    obtain ⟨bestcsd', hrun, hbalanced⟩ := ih hnames (h.step hname hfree) hrest
    refine ⟨bestcsd', ?_, by simpa using hbalanced⟩
    rw [dfaFrom, hselect]
    exact hrun

/-- A result of the algorithm comes from SSTs that take turns, and is balanced. -/
theorem balanced_of_dfaAlgorithm {sstInfo : List SstInfo}
    (hnames : (sstInfo.map SstInfo.sstName).Nodup) {rounds : Nat}
    {bestcsd : SortedMap String String} (hrun : dfaAlgorithm (rounds + 1) sstInfo = .ok bestcsd) :
    Balanced bestcsd sstInfo := by
  have hempty : CountsTaken ∅ [] := fun csdId => by simp
  obtain ⟨bestcsd', hrun', hbalanced⟩ := @dfaFrom_of_takesTurns rounds 0 [] sstInfo ∅ ∅ [] hnames
    ⟨hempty, fun csdId => by simp [placedOn], by simp [Balanced]⟩
    (takesTurns_of_dfaFrom hempty hrun)
  obtain rfl : bestcsd = bestcsd' := Except.ok.inj (hrun.symm.trans hrun')
  exact hbalanced

/-- **DFA ends and balances** exactly when the SSTs can take turns. -/
theorem dfa_balances_iff {sstInfo : List SstInfo}
    (hnames : (sstInfo.map SstInfo.sstName).Nodup) :
    (∃ rounds bestcsd, dfaAlgorithm rounds sstInfo = .ok bestcsd ∧ Balanced bestcsd sstInfo) ↔
      TakesTurns 0 [] sstInfo := by
  have hempty : CountsTaken ∅ [] := fun csdId => by simp
  constructor
  · rintro ⟨rounds, bestcsd, hrun, -⟩
    cases rounds with
    | zero =>
      cases sstInfo with
      | nil => trivial
      | cons sst rest => cases hrun
    | succ rounds => exact takesTurns_of_dfaFrom hempty hrun
  · intro hturns
    have hstart : InTurn [] ∅ ∅ [] := ⟨hempty, fun csdId => by simp [placedOn], by simp [Balanced]⟩
    obtain ⟨bestcsd, hrun, hbalanced⟩ :=
      @dfaFrom_of_takesTurns 0 0 [] sstInfo ∅ ∅ [] hnames hstart hturns
    exact ⟨1, bestcsd, hrun, hbalanced⟩

/-- Where no SST lists a CSD twice, it is enough to count the replicas. -/
theorem takesTurns_iff_of_nodup {i : Nat} {taken : List String} {sstInfo : List SstInfo}
    (htaken : taken.length ≤ i) (h : ∀ sst ∈ sstInfo, (csdIds sst).Nodup) :
    TakesTurns i taken sstInfo ↔ ∀ j sst, sstInfo[j]? = some sst → i + j < sst.csd.length := by
  induction sstInfo generalizing i taken with
  | nil => simp [TakesTurns]
  | cons sst rest ih =>
    have hrest : ∀ csdId, TakesTurns (i + 1) (taken ++ [csdId]) rest ↔
        ∀ j sst, rest[j]? = some sst → i + 1 + j < sst.csd.length := fun csdId =>
      ih (by simpa using htaken) fun other hother => h other (by simp [hother])
    simp only [TakesTurns, hrest, exists_and_right]
    constructor
    · rintro ⟨hi, -, hall⟩ j other hj
      cases j with
      | zero =>
        cases hj
        exact hi
      | succ j =>
        have := hall j other hj
        omega
    · intro hall
      have hi : i < sst.csd.length := hall 0 sst rfl
      refine ⟨hi, ?_, fun j other hj => ?_⟩
      · -- more replicas than CSDs taken
        by_contra hnone
        have hsub : csdIds sst ⊆ taken := by
          intro csdId hmem
          by_contra hfree
          have hsome : (firstFree taken sst).isSome :=
            List.find?_isSome.mpr ⟨csdId, hmem, by simpa using hfree⟩
          exact hnone (Option.isSome_iff_exists.mp hsome)
        have hle := (List.subperm_of_subset (h sst (by simp)) hsub).length_le
        simp only [csdIds, List.length_map] at hle
        omega
      · have := hall (j + 1) other hj
        omega

/-- Two SSTs, the second of which has a replica more than the first. -/
def turnsSsts : List SstInfo :=
  [{ sstName := "a", csd := [⟨"1", "", []⟩], sstBlockCount := 1 },
    { sstName := "b", csd := [⟨"1", "", []⟩, ⟨"2", "", []⟩], sstBlockCount := 1 }]

theorem turnsSsts_balanced :
    ∃ rounds bestcsd, dfaAlgorithm rounds turnsSsts = .ok bestcsd ∧ Balanced bestcsd turnsSsts :=
  (dfa_balances_iff (by decide)).mpr ⟨by decide, "1", by decide, by decide, "2", by decide, trivial⟩

/-- With one replica each, the loop never ends for the second SST. -/
theorem singleSsts_running :
    (∀ sst ∈ singleSsts, sst.csd ≠ []) ∧ (singleSsts.map SstInfo.sstName).Nodup ∧
    ∀ rounds, dfaAlgorithm rounds singleSsts = .error .running := by
  refine ⟨by decide, by decide, fun rounds => ?_⟩
  cases rounds with
  | zero => rfl
  | succ rounds =>
    have hsecond := @dfaSelect_running 1 [⟨"2", "", []⟩] (by decide)
      ((∅ : CsdMap).insert "1" 1) (rounds + 1) 1
    simp only [dfaAlgorithm, singleSsts, dfaFrom]
    rw [show dfaSelect 0 [⟨"1", "", []⟩] (∅ : CsdMap) (rounds + 1) 1 =
      .ok ("1", (∅ : CsdMap).insert "1" 1) from rfl]
    simp only [bind, Except.bind]
    rw [hsecond]

end KetiEngine.Offloading
