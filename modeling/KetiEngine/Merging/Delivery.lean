import KetiEngine.Merging.CopyRow

/-!
# Delivery — going through a table that is still being filled

The loop in which the join operators ask `GetTableData` for more of one of
their tables, go through the rows that are new and stop at the end of the
finished table. What holds after the rows gone through holds at the end of
the loop after all rows, however the table was delivered.
-/

namespace KetiEngine.Merging

open KetiEngine

/-- The positions of `for (r = row_index; r < row_count; r++)`. -/
def rowsFrom (rowIndex rowCount : Int) : List Nat :=
  List.range' rowIndex.toNat (rowCount - rowIndex).toNat

/-- The loop over what `GetTableData` delivers; `none` when it still waits
after the last table. `body rowIndex first` goes through the rows of a table
from `rowIndex` on, `first` says that there was no table with rows before. -/
def deliveredLoop {σ : Type} (body : Int → Bool → TableData → σ → Option σ) :
    Int → Bool → σ → List TableData → Option σ
  | _, _, _, [] => none
  | rowIndex, first, s, t :: delivered =>
      if rowIndex = t.rowCount ∧ t.status = .workDone then some s
      else if rowIndex = t.rowCount ∧ t.status ≠ .workDone then
        deliveredLoop body rowIndex first s delivered
      else do
        let s ← body rowIndex first t s
        if t.status = .workDone then pure s
        else deliveredLoop body t.rowCount false s delivered

theorem rowsFrom_natCast {k m : Nat} (hk : k ≤ m) : rowsFrom k m = List.range' k (m - k) := by
  rw [rowsFrom, Int.toNat_natCast]
  congr 1
  omega

/-- The rows gone through before and the new ones are all rows. -/
theorem range_append_rowsFrom {k m : Nat} (hk : k ≤ m) :
    List.range k ++ rowsFrom k m = List.range m := by
  rw [rowsFrom_natCast hk, List.range_eq_range', List.range_eq_range']
  have h := List.range'_append_1 (s := 0) (m := k) (n := m - k)
  rw [Nat.zero_add, Nat.add_sub_cancel' hk] at h
  exact h

theorem lt_of_mem_rowsFrom {k m r : Nat} (hk : k ≤ m) (hr : r ∈ rowsFrom k m) : r < m := by
  rw [rowsFrom_natCast hk, List.mem_range'_1] at hr
  omega

/-! ## Snapshots of a table -/

/-- What `GetTableData` delivers of a table: growing parts of it, with all
its columns as soon as there are rows, the last one the finished table. -/
structure Snapshots (delivered : List TableData) (final : TableData) (m : Nat) : Prop where
  wellFormed : final.WellFormed m
  finished : final.status = .workDone
  last : ∃ before, delivered = before ++ [final]
  unfinished : ∀ t ∈ delivered.dropLast, t.status ≠ .workDone
  growing : delivered.Pairwise TableData.Extends
  parts : ∀ t ∈ delivered, ∃ k, t.WellFormed k
  columns : ∀ t ∈ delivered, 0 < t.rowCount → ∀ name ∈ final.tableData, name ∈ t.tableData

theorem Snapshots.tail {t u final : TableData} {rest : List TableData} {m : Nat}
    (h : Snapshots (t :: u :: rest) final m) : Snapshots (u :: rest) final m := by
  obtain ⟨before, hbefore⟩ := h.last
  cases before with
  | nil => cases hbefore
  | cons b before =>
    exact ⟨h.wellFormed, h.finished, ⟨before, (List.cons.inj hbefore).2⟩,
      fun v hv => h.unfinished v (List.mem_cons_of_mem _ hv), (List.pairwise_cons.mp h.growing).2,
      fun v hv => h.parts v (List.mem_cons_of_mem _ hv),
      fun v hv => h.columns v (List.mem_cons_of_mem _ hv)⟩

theorem Snapshots.eq_final {t final : TableData} {m : Nat} (h : Snapshots [t] final m) :
    t = final := by
  obtain ⟨before, hbefore⟩ := h.last
  cases before with
  | nil => exact (List.cons.inj hbefore).1
  | cons b before => simp at hbefore

theorem Snapshots.extends_final {delivered : List TableData} {final t : TableData} {m : Nat}
    (h : Snapshots delivered final m) (ht : t ∈ delivered) : t.Extends final := by
  obtain ⟨before, rfl⟩ := h.last
  rcases List.mem_append.mp ht with hb | hb
  · exact (List.pairwise_append.mp h.growing).2.2 t hb final (by simp)
  · obtain rfl := List.mem_singleton.mp hb
    exact .refl t

/-- A delivered table with rows is a part of the finished one. -/
theorem Snapshots.partOf {delivered : List TableData} {final t : TableData} {m k : Nat}
    (h : Snapshots delivered final m) (ht : t ∈ delivered) (hwf : t.WellFormed k) (hpos : 0 < k) :
    PartOf t.tableData final.tableData k := by
  have hext := h.extends_final ht
  refine ⟨fun name => ⟨hext.names name, h.columns t ht ?_ name⟩, hext.columns, hwf.column,
    hwf.stored⟩
  rw [hwf.count]
  exact_mod_cast hpos

/-- The row counts of the parts that have new rows, when the first `k` rows
are done. -/
def partCounts : Nat → List TableData → List Nat
  | _, [] => []
  | k, t :: delivered =>
      if t.rowCount.toNat = k then partCounts k delivered
      else t.rowCount.toNat :: partCounts t.rowCount.toNat delivered

/-- The rounds of the loop over what is delivered, when the first `k` of `m`
rows are done: the last table has all rows, and each before it has new rows
or none. -/
inductive Rounds (whole : ColMap) (m : Nat) : Nat → List TableData → Prop
  | finished {t : TableData} (hcount : t.rowCount = m) (hstatus : t.status = .workDone) :
      Rounds whole m m [t]
  | last {k : Nat} {t : TableData} (hpart : PartOf t.tableData whole m) (hcount : t.rowCount = m)
      (hstatus : t.status = .workDone) (hlt : k < m) : Rounds whole m k [t]
  | again {k : Nat} {t : TableData} {rest : List TableData} (hcount : t.rowCount = k)
      (hstatus : t.status ≠ .workDone) (hrest : Rounds whole m k rest) :
      Rounds whole m k (t :: rest)
  | more {k k' : Nat} {t : TableData} {rest : List TableData} (hpart : PartOf t.tableData whole k')
      (hcount : t.rowCount = k') (hstatus : t.status ≠ .workDone) (hlt : k < k')
      (hrest : Rounds whole m k' rest) : Rounds whole m k (t :: rest)

theorem Snapshots.rounds {delivered : List TableData} {final : TableData} {m k : Nat}
    (h : Snapshots delivered final m) (hk : ∀ t ∈ delivered, (k : Int) ≤ t.rowCount) :
    Rounds final.tableData m k delivered := by
  induction delivered generalizing k with
  | nil =>
    obtain ⟨before, hbefore⟩ := h.last
    simp at hbefore
  | cons t rest ih =>
    obtain ⟨k', hwf⟩ := h.parts t (by simp)
    have hcount := hwf.count
    have hkk : k ≤ k' := by
      have := hk t (by simp)
      omega
    cases rest with
    | nil =>
      obtain rfl := h.eq_final
      have hm := h.wellFormed.count
      by_cases hsame : k = m
      · subst hsame
        exact .finished hm h.finished
      · exact .last (.self h.wellFormed) hm h.finished (by omega)
    | cons u rest =>
      have hstatus : t.status ≠ .workDone := h.unfinished t (by simp)
      have hgrown : ∀ v ∈ u :: rest, (k' : Int) ≤ v.rowCount := fun v hv =>
        hcount ▸ ((List.pairwise_cons.mp h.growing).1 v hv).count
      by_cases hsame : k = k'
      · subst hsame
        exact .again hcount hstatus (ih h.tail hgrown)
      · exact .more (h.partOf (by simp) hwf (by omega)) hcount hstatus (by omega)
          (ih h.tail hgrown)

theorem Rounds.bounds {whole : ColMap} {m k : Nat} {delivered : List TableData}
    (h : Rounds whole m k delivered) : k ≤ m ∧ ∀ t ∈ delivered, (k : Int) ≤ t.rowCount := by
  induction h with
  | finished hcount hstatus =>
    refine ⟨Nat.le_refl m, fun t ht => ?_⟩
    rw [List.mem_singleton.mp ht, hcount]
  | last hpart hcount hstatus hlt =>
    refine ⟨Nat.le_of_lt hlt, fun t ht => ?_⟩
    rw [List.mem_singleton.mp ht, hcount]
    omega
  | again hcount hstatus hrest ih =>
    refine ⟨ih.1, fun t ht => ?_⟩
    rcases List.mem_cons.mp ht with rfl | ht
    · exact Int.le_of_eq hcount.symm
    · exact ih.2 t ht
  | more hpart hcount hstatus hlt hrest ih =>
    refine ⟨by omega, fun t ht => ?_⟩
    rcases List.mem_cons.mp ht with rfl | ht
    · omega
    · have := ih.2 t ht
      omega

/-- The part gone through last has all rows. The parts before it are the
delivered tables with some of the rows. -/
theorem Snapshots.partCounts_eq {delivered : List TableData} {final : TableData} {m k : Nat}
    (h : Snapshots delivered final m) (hk : ∀ t ∈ delivered, (k : Int) ≤ t.rowCount) :
    (k = m → partCounts k delivered = []) ∧
    (k ≠ m → ∃ earlier, partCounts k delivered = earlier ++ [m] ∧
      ∀ j, j ∈ earlier ↔ k < j ∧ j < m ∧ ∃ t ∈ delivered, t.rowCount = j) := by
  have hrounds := h.rounds hk
  clear h hk
  induction hrounds with
  | finished hcount hstatus =>
    exact ⟨fun _ => by simp [partCounts, hcount], fun hne => absurd rfl hne⟩
  | last hpart hcount hstatus hlt =>
    refine ⟨fun he => by omega, fun hne => ⟨[], ?_, fun j => ?_⟩⟩
    · simp [partCounts, hcount, hne.symm]
    · simp only [List.not_mem_nil, List.mem_singleton, exists_eq_left, hcount, false_iff]
      omega
  | @again k t rest hcount hstatus hrest ih =>
    have hskip : partCounts k (t :: rest) = partCounts k rest := by
      rw [partCounts, if_pos (by simp [hcount])]
    rw [hskip]
    refine ⟨ih.1, fun hne => ?_⟩
    obtain ⟨earlier, heq, hmem⟩ := ih.2 hne
    refine ⟨earlier, heq, fun j => ?_⟩
    rw [hmem, List.exists_mem_cons_iff, hcount]
    constructor
    · rintro ⟨hlt, hjm, hex⟩
      exact ⟨hlt, hjm, .inr hex⟩
    · rintro ⟨hlt, hjm, hex⟩
      exact ⟨hlt, hjm, hex.resolve_left (by omega)⟩
  | @more k k' t rest hpart hcount hstatus hlt hrest ih =>
    obtain ⟨hle, hgrown⟩ := hrest.bounds
    have hstep : partCounts k (t :: rest) = k' :: partCounts k' rest := by
      rw [partCounts, hcount, Int.toNat_natCast, if_neg (by omega)]
    rw [hstep]
    refine ⟨fun he => by omega, fun _ => ?_⟩
    by_cases hlast : k' = m
    · refine ⟨[], by rw [ih.1 hlast, hlast, List.nil_append], fun j => ?_⟩
      rw [List.exists_mem_cons_iff, hcount]
      constructor
      · exact nofun
      · rintro ⟨-, hjm, he | ⟨v, hv, he⟩⟩
        · omega
        · have := hgrown v hv
          omega
    · obtain ⟨earlier, heq, hmem⟩ := ih.2 hlast
      refine ⟨k' :: earlier, by rw [heq, List.cons_append], fun j => ?_⟩
      rw [List.mem_cons, hmem, List.exists_mem_cons_iff, hcount]
      constructor
      · rintro (rfl | ⟨hj, hjm, hex⟩)
        · exact ⟨hlt, by omega, .inl rfl⟩
        · exact ⟨by omega, hjm, .inr hex⟩
      · rintro ⟨hj, hjm, he | ⟨v, hv, he⟩⟩
        · exact .inl (by omega)
        · have := hgrown v hv
          by_cases hjk : j = k'
          · exact .inl hjk
          · exact .inr ⟨by omega, hjm, v, hv, he⟩

theorem Snapshots.getLastD_partCounts {delivered : List TableData} {final : TableData} {m k : Nat}
    (h : Snapshots delivered final m) (hk : ∀ t ∈ delivered, (k : Int) ≤ t.rowCount) :
    (partCounts k delivered).getLastD k = m := by
  obtain ⟨hdone, hmore⟩ := h.partCounts_eq hk
  by_cases hkm : k = m
  · rw [hdone hkm]
    exact hkm
  · obtain ⟨earlier, heq, -⟩ := hmore hkm
    rw [heq, List.getLastD_concat]

/-! ## The loop -/

section
variable {σ : Type} {body : Int → Bool → TableData → σ → Option σ} {rowIndex : Int} {first : Bool}
  {s : σ} {t : TableData} {rest : List TableData}

theorem deliveredLoop_finished (hcount : t.rowCount = rowIndex) (hstatus : t.status = .workDone) :
    deliveredLoop body rowIndex first s (t :: rest) = some s := by
  rw [deliveredLoop, if_pos ⟨hcount.symm, hstatus⟩]

theorem deliveredLoop_last (hcount : t.rowCount ≠ rowIndex) (hstatus : t.status = .workDone) :
    deliveredLoop body rowIndex first s (t :: rest) = body rowIndex first t s := by
  rw [deliveredLoop, if_neg fun h => hcount h.1.symm, if_neg fun h => hcount h.1.symm]
  simp [hstatus]

theorem deliveredLoop_again (hcount : t.rowCount = rowIndex) (hstatus : t.status ≠ .workDone) :
    deliveredLoop body rowIndex first s (t :: rest) = deliveredLoop body rowIndex first s rest := by
  rw [deliveredLoop, if_neg fun h => hstatus h.2, if_pos ⟨hcount.symm, hstatus⟩]

theorem deliveredLoop_more (hcount : t.rowCount ≠ rowIndex) (hstatus : t.status ≠ .workDone) :
    deliveredLoop body rowIndex first s (t :: rest) = (body rowIndex first t s).bind fun s =>
      deliveredLoop body t.rowCount false s rest := by
  rw [deliveredLoop, if_neg fun h => hcount h.1.symm, if_neg fun h => hcount h.1.symm]
  simp only [if_neg hstatus]
  rfl

end

/-- **The history rule**: what going through the new rows of a part adds to
the parts gone through, the loop adds part by part. `P done first s` speaks of
the row counts of the parts done; the last of them is the number of rows
done. -/
theorem deliveredLoop_history {σ : Type} {body : Int → Bool → TableData → σ → Option σ}
    {final : TableData} {m : Nat} {P : List Nat → Bool → σ → Prop}
    (hbody : ∀ (t : TableData) (done : List Nat) (k' : Nat) (first : Bool) (s : σ),
      PartOf t.tableData final.tableData k' → t.rowCount = k' → done.getLastD 0 < k' → k' ≤ m →
      P done first s → ∃ s', body (done.getLastD 0) first t s = some s' ∧ P (done ++ [k']) false s')
    {delivered : List TableData} (hsnapshots : Snapshots delivered final m) (done : List Nat)
    (first : Bool) {s : σ} (hk : ∀ t ∈ delivered, ((done.getLastD 0 : Nat) : Int) ≤ t.rowCount)
    (hfirst : first = true → done.getLastD 0 = 0) (h : P done first s) :
    ∃ s' first', deliveredLoop body (done.getLastD 0) first s delivered = some s' ∧
      (first' = true → m = 0) ∧ P (done ++ partCounts (done.getLastD 0) delivered) first' s' := by
  have hrounds := hsnapshots.rounds hk
  clear hsnapshots hk
  generalize hlast : done.getLastD 0 = k at hrounds hfirst ⊢
  induction hrounds generalizing done first s with
  | finished hcount hstatus =>
    refine ⟨s, first, deliveredLoop_finished hcount hstatus, hfirst, ?_⟩
    simpa [partCounts, hcount] using h
  | @last k t hpart hcount hstatus hlt =>
    obtain ⟨s', hrun, hs'⟩ := hbody t done m first s hpart hcount (hlast ▸ hlt) (Nat.le_refl m) h
    refine ⟨s', false, ?_, nofun, ?_⟩
    · rw [deliveredLoop_last (by omega) hstatus, ← hlast, hrun]
    · rw [partCounts, hcount, Int.toNat_natCast, if_neg (by omega)]
      exact hs'
  | @again k t rest hcount hstatus hrest ih =>
    rw [deliveredLoop_again hcount hstatus, partCounts, if_pos (by simp [hcount])]
    exact ih done first h hlast hfirst
  | @more k k' t rest hpart hcount hstatus hlt hrest ih =>
    obtain ⟨s₁, hrun₁, hs₁⟩ :=
      hbody t done k' first s hpart hcount (hlast ▸ hlt) hrest.bounds.1 h
    obtain ⟨s', first', hrun, hfirst', hs'⟩ :=
      ih (done ++ [k']) false hs₁ List.getLastD_concat nofun
    refine ⟨s', first', ?_, hfirst', ?_⟩
    · rw [deliveredLoop_more (by omega) hstatus, ← hlast, hrun₁, Option.bind_some, hcount]
      exact hrun
    · rw [partCounts, hcount, Int.toNat_natCast, if_neg (by omega)]
      simpa using hs'

/-- **The delivery rule**: what going through the new rows of a part carries
from the rows before to all its rows, the loop carries to the rows of the
finished table. `P k first s` speaks of the first `k` rows. -/
theorem deliveredLoop_spec {σ : Type} {body : Int → Bool → TableData → σ → Option σ}
    {final : TableData} {m : Nat} {P : Nat → Bool → σ → Prop}
    (hbody : ∀ (t : TableData) (k k' : Nat) (first : Bool) (s : σ),
      PartOf t.tableData final.tableData k' → t.rowCount = k' → k < k' → k' ≤ m → P k first s →
      ∃ s', body k first t s = some s' ∧ P k' false s')
    {delivered : List TableData} (hsnapshots : Snapshots delivered final m) {k : Nat}
    {first : Bool} {s : σ} (hk : ∀ t ∈ delivered, (k : Int) ≤ t.rowCount)
    (hfirst : first = true → k = 0) (h : P k first s) :
    ∃ s' first', deliveredLoop body k first s delivered = some s' ∧
      (first' = true → m = 0) ∧ P m first' s' := by
  have hround : ∀ (t : TableData) (done : List Nat) (k' : Nat) (first : Bool) (s : σ),
      PartOf t.tableData final.tableData k' → t.rowCount = k' → done.getLastD 0 < k' → k' ≤ m →
      P (done.getLastD 0) first s → ∃ s', body (done.getLastD 0) first t s = some s' ∧
        P ((done ++ [k']).getLastD 0) false s' := by
    intro t done k' first s hpart hcount hlt hle hp
    rw [List.getLastD_concat]
    exact hbody t _ k' first s hpart hcount hlt hle hp
  obtain ⟨s', first', hrun, hfirst', hs'⟩ := deliveredLoop_history
    (P := fun done first s => P (done.getLastD 0) first s) hround hsnapshots [k] first hk hfirst h
  have hlast : ([k] ++ partCounts k delivered).getLastD 0 = m := by
    rw [List.singleton_append, List.getLastD_cons, hsnapshots.getLastD_partCounts hk]
  exact ⟨s', first', hrun, hfirst', hlast ▸ hs'⟩

theorem Snapshots.nonneg {delivered : List TableData} {final : TableData} {m : Nat}
    (h : Snapshots delivered final m) : ∀ t ∈ delivered, ((0 : Nat) : Int) ≤ t.rowCount := by
  intro t ht
  obtain ⟨k, hwf⟩ := h.parts t ht
  rw [hwf.count]
  omega

/-- The delivery rule for a loop that may fail: what a successful round keeps
holds after a successful loop. -/
theorem deliveredLoop_induction {σ : Type} {body : Int → Bool → TableData → σ → Option σ}
    {final : TableData} {m : Nat} {P : Nat → Bool → σ → Prop}
    (hbody : ∀ (t : TableData) (k k' : Nat) (first : Bool) (s s' : σ),
      PartOf t.tableData final.tableData k' → t.rowCount = k' → k < k' → k' ≤ m → P k first s →
      body k first t s = some s' → P k' false s')
    {delivered : List TableData} (hsnapshots : Snapshots delivered final m) {k : Nat}
    {first : Bool} {s s' : σ} (hk : ∀ t ∈ delivered, (k : Int) ≤ t.rowCount) (h : P k first s)
    (hrun : deliveredLoop body k first s delivered = some s') : ∃ first', P m first' s' := by
  have hrounds := hsnapshots.rounds hk
  clear hsnapshots hk
  induction hrounds generalizing first s with
  | finished hcount hstatus =>
    rw [deliveredLoop_finished hcount hstatus] at hrun
    exact ⟨first, Option.some.inj hrun ▸ h⟩
  | @last k t hpart hcount hstatus hlt =>
    rw [deliveredLoop_last (by omega) hstatus] at hrun
    exact ⟨false, hbody t k m first s s' hpart hcount hlt (Nat.le_refl m) h hrun⟩
  | again hcount hstatus hrest ih =>
    rw [deliveredLoop_again hcount hstatus] at hrun
    exact ih h hrun
  | @more k k' t rest hpart hcount hstatus hlt hrest ih =>
    rw [deliveredLoop_more (by omega) hstatus] at hrun
    obtain ⟨u, hu, hrun⟩ := Option.bind_eq_some_iff.mp hrun
    rw [hcount] at hrun
    exact ih (hbody t k k' first s u hpart hcount hlt hrest.bounds.1 h hu) hrun

/-- A loop that fails at the first row fails for every delivery of a table
with rows. -/
theorem deliveredLoop_eq_none {σ : Type} {body : Int → Bool → TableData → σ → Option σ}
    {final : TableData} {m : Nat} (hpos : 0 < m)
    (hbody : ∀ (t : TableData) (k : Nat) (s : σ), PartOf t.tableData final.tableData k →
      t.rowCount = k → 0 < k → body 0 true t s = none)
    {delivered : List TableData} (hsnapshots : Snapshots delivered final m) (s : σ) :
    deliveredLoop body 0 true s delivered = none := by
  cases hrun : deliveredLoop body 0 true s delivered with
  | none => rfl
  | some s' =>
    obtain ⟨first', hzero, -⟩ := deliveredLoop_induction (k := 0)
      (P := fun k first _ => k = 0 ∧ first = true)
      (fun t k k' first s s' hpart hcount hlt _ ⟨hk, hfirst⟩ hu => by
        subst hk hfirst
        rw [Int.natCast_zero, hbody t k' s hpart hcount hlt] at hu
        cases hu)
      hsnapshots hsnapshots.nonneg ⟨rfl, rfl⟩ hrun
    omega

/-- A table of numbers, delivered in two parts. -/
theorem numberTable_snapshots (name : String) (ns ms : List Int) :
    Snapshots [numberTable name ns .notFinished, numberTable name (ns ++ ms) .workDone]
      (numberTable name (ns ++ ms) .workDone) (ns ++ ms).length := by
  have hparts : ∀ t ∈ [numberTable name ns .notFinished, numberTable name (ns ++ ms) .workDone],
      ∃ ns status, t = numberTable name ns status := by
    intro t ht
    rcases List.mem_cons.mp ht with rfl | ht
    · exact ⟨_, _, rfl⟩
    · exact ⟨_, _, List.mem_singleton.mp ht⟩
  constructor
  case wellFormed => exact numberTable_wellFormed name (ns ++ ms) .workDone
  case finished => rfl
  case last => exact ⟨[numberTable name ns .notFinished], rfl⟩
  case unfinished =>
    intro t ht
    obtain rfl : t = numberTable name ns .notFinished := by simpa using ht
    exact nofun
  case growing =>
    refine .cons (fun t ht => ?_) (.cons nofun .nil)
    obtain rfl := List.mem_singleton.mp ht
    exact numberTable_extends name ns ms .notFinished .workDone
  case parts =>
    intro t ht
    obtain ⟨ns, status, rfl⟩ := hparts t ht
    exact ⟨_, numberTable_wellFormed _ _ _⟩
  case columns =>
    intro t ht _ name' hname
    obtain ⟨ns, status, rfl⟩ := hparts t ht
    rw [mem_numberTable.mp hname]
    exact mem_numberTable.mpr rfl

end KetiEngine.Merging
