import KetiEngine.Merging.Delivery
import KetiEngine.Merging.HashKey

/-!
# Selection — keeping rows of a table that is delivered

The loop that `In` and the operators with a dependent subquery share: for each
new row of the left table a verdict, and a copy of the row into
`target_table_` when it passes. `hash_table_` is a member of the manager, so a
verdict may read it and leave it changed for the rows that follow.
-/

namespace KetiEngine.Merging

open KetiEngine Loops

/-- The members the loop works on. -/
structure SelectState where
  hashTable : HashTable := ∅
  targetTable : TableData := {}

/-- `passed` for row `r` of `left_table_`, and `hash_table_` afterwards. -/
abbrev Verdict := TableData → Nat → HashTable → Option (Bool × HashTable)

/-- The copy of row `r` into `target_table_`. -/
def keepRow (left : ColMap) (r : Nat) (target : TableData) : Option TableData := do
  let td ← copyRow left r target.tableData
  pure { target with tableData := td, rowCount := target.rowCount + 1 }

/-- One row of the loop. -/
def selectRow (verdict : Verdict) (left : TableData) (s : SelectState) (r : Nat) :
    Option SelectState := do
  let (passed, hashTable) ← verdict left r s.hashTable
  if passed then do
    let targetTable ← keepRow left.tableData r s.targetTable
    pure { hashTable, targetTable }
  else pure { s with hashTable }

/-- The types of `target_table_` are set by the first table with rows. -/
def selectTypes (first : Bool) (left target : TableData) : TableData :=
  if first then { target with tableData := setTypes left.tableData target.tableData } else target

/-- What the loop does with a delivered table that has new rows. -/
def selectDelivered (verdict : Verdict) (rowIndex : Int) (first : Bool) (left : TableData)
    (s : SelectState) : Option SelectState :=
  (rowsFrom rowIndex left.rowCount).foldlM (selectRow verdict left)
    { s with targetTable := selectTypes first left s.targetTable }

/-- `target_table_` after the loop over what `GetTableData` delivers. -/
def selectLoop (verdict : Verdict) (hashTable : HashTable) (delivered : List TableData) :
    Option TableData :=
  (deliveredLoop (selectDelivered verdict) 0 true { hashTable } delivered).map
    SelectState.targetTable

/-! ## What the target table holds -/

/-- The target table after these rows have been kept. Before a first table
with rows has been delivered it has no columns. -/
structure Kept (whole : ColMap) (first : Bool) (rows : List Nat) (target : TableData) : Prop where
  count : target.rowCount = rows.length
  copies : CopiesOf whole rows target.tableData
  typed : first = false → Typed whole target.tableData
  names : ∀ name, name ∈ target.tableData ↔ first = false ∧ name ∈ whole

theorem kept_init (whole : ColMap) : Kept whole true [] {} := by
  refine ⟨rfl, fun name _ => ?_, nofun, fun name => by simp⟩
  have hget : ColMap.get ∅ name = {} := ColMap.get_of_notMem (by simp)
  exact hget ▸ holdsCells_nil _ _

section
variable {whole part : ColMap} {rows : List Nat} {target : TableData} {r : Nat}

theorem selectTypes_kept {table : TableData}
    (hnames : ∀ name, name ∈ table.tableData ↔ name ∈ whole)
    (htypes : ∀ name ∈ table.tableData, (table.tableData.get name).type = (whole.get name).type)
    {first : Bool} (h : Kept whole first rows target) :
    Kept whole false rows (selectTypes first table target) := by
  cases first with
  | false => exact h
  | true =>
    obtain ⟨hmem, -, hget⟩ := setTypes_of_sameTypes hnames htypes target.tableData
    constructor
    case count => exact h.count
    case copies =>
      intro name hname
      simp only [selectTypes, if_true, hget name hname]
      exact (h.copies name hname).retype _
    case typed =>
      intro _ name hname
      simp only [selectTypes, if_true, hget name hname]
    case names =>
      intro name
      simp only [selectTypes, if_true, hmem, h.names]
      tauto

theorem keepRow_spec (hrow : SameRow part whole r) (h : Kept whole false rows target) :
    ∃ target', keepRow part r target = some target' ∧
      Kept whole false (rows ++ [r]) target' := by
  obtain ⟨td, hrun, hnames, -, htypes, hcopies⟩ := copyRow_copies hrow target.tableData
  refine ⟨{ target with tableData := td, rowCount := target.rowCount + 1 }, ?_, ?_⟩
  · rw [keepRow, hrun]
    rfl
  · constructor
    case count => simp [h.count]
    case copies => exact hcopies _ h.copies
    case typed =>
      intro _ name hname
      rw [htypes name hname]
      exact h.typed rfl name hname
    case names =>
      intro name
      rw [hnames, h.names]
      tauto

end

/-- `target` is these rows of the left table. -/
structure HoldsSelection (left : ColMap) (rows : List Nat) (target : TableData) : Prop where
  count : target.rowCount = rows.length
  columns : ∀ name ∈ target.tableData, name ∈ left ∧
    (target.tableData.get name).HasLength rows.length
  cells : ∀ k r, rows[k]? = some r → ∀ name ∈ left, name ∈ target.tableData ∧
    (target.tableData.get name).type = (left.get name).type ∧
    (target.tableData.get name).cell? k = (left.get name).cell? r

theorem Kept.holdsSelection {whole : ColMap} {target : TableData} {n : Nat} {first : Bool}
    {rows : List Nat} (h : Kept whole first rows target)
    (hwhole : ∀ name ∈ whole, (whole.get name).HasLength n) (hrows : ∀ r ∈ rows, r < n)
    (hfirst : first = true → n = 0) : HoldsSelection whole rows target := by
  constructor
  case count => exact h.count
  case columns =>
    intro name hname
    obtain ⟨hopen, hmem⟩ := (h.names name).mp hname
    exact ⟨hmem, (h.copies.cell? (h.typed hopen) hmem (hwhole name hmem) hrows).1⟩
  case cells =>
    intro k r hk name hname
    have hopen : first = false := by
      have hlt := hrows r (List.mem_of_getElem? hk)
      cases first with
      | false => rfl
      | true =>
        have := hfirst rfl
        omega
    refine ⟨(h.names name).mpr ⟨hopen, hname⟩, h.typed hopen name hname, ?_⟩
    rw [(h.copies.cell? (h.typed hopen) hname (hwhole name hname) hrows).2, hk]
    rfl

/-! ## The loop -/

/-- The verdict on a row is `V`, however the table is delivered, and leaves
the hash table as it is. -/
def Decides (verdict : Verdict) (final : TableData) (hash : HashTable) (V : Nat → Option Bool) :
    Prop :=
  ∀ (t : TableData) (k r : Nat), PartOf t.tableData final.tableData k → t.rowCount = k → r < k →
    verdict t r hash = (V r).map (·, hash)

section
variable {final : TableData} {delivered : List TableData} {n : Nat} {verdict : Verdict}
  {hash : HashTable} {V : Nat → Option Bool}

/-- One row with a verdict. -/
theorem selectRow_spec (hverdict : Decides verdict final hash V) {t : TableData} {k r : Nat}
    (hpart : PartOf t.tableData final.tableData k) (hcount : t.rowCount = k) (hr : r < k)
    {passed : Bool} (hpassed : V r = some passed) {s : SelectState} {rows : List Nat}
    (h : s.hashTable = hash ∧ Kept final.tableData false rows s.targetTable) :
    ∃ s', selectRow verdict t s r = some s' ∧ s'.hashTable = hash ∧
      Kept final.tableData false (if passed then rows ++ [r] else rows) s'.targetTable := by
  obtain ⟨hhash, hkept⟩ := h
  have hrun : verdict t r s.hashTable = some (passed, hash) := by
    rw [hhash, hverdict t k r hpart hcount hr, hpassed]
    rfl
  unfold selectRow
  rw [hrun]
  cases passed with
  | true =>
    obtain ⟨target', htarget, hkept'⟩ := keepRow_spec (hpart.sameRow hr) hkept
    exact ⟨⟨hash, target'⟩, by simp [htarget], rfl, hkept'⟩
  | false => exact ⟨⟨hash, s.targetTable⟩, rfl, rfl, hkept⟩

/-- What the loop has after the rows of `rows`: those of them that pass. -/
def Selected (final : TableData) (hash : HashTable) (kept : Nat → Bool) (first : Bool)
    (rows : List Nat) (s : SelectState) : Prop :=
  s.hashTable = hash ∧ Kept final.tableData first (rows.filter kept) s.targetTable

/-- One delivered table with verdicts on its rows. -/
theorem selectDelivered_spec (hverdict : Decides verdict final hash V) {kept : Nat → Bool}
    (hkept : ∀ r < n, V r = some (kept r)) {t : TableData} {k k' : Nat} {first : Bool}
    {s : SelectState} (hpart : PartOf t.tableData final.tableData k') (hcount : t.rowCount = k')
    (hlt : k < k') (hle : k' ≤ n) (h : Selected final hash kept first (List.range k) s) :
    ∃ s', selectDelivered verdict k first t s = some s' ∧
      Selected final hash kept false (List.range k') s' := by
  have hround : ∀ done r rest s, rowsFrom k k' = done ++ r :: rest →
      Selected final hash kept false (List.range k ++ done) s →
      ∃ s', selectRow verdict t s r = some s' ∧
        Selected final hash kept false (List.range k ++ (done ++ [r])) s' := by
    intro done r rest s hsplit hs
    have hr : r < k' := lt_of_mem_rowsFrom (Nat.le_of_lt hlt) (by simp [hsplit])
    obtain ⟨s', hrun, hhash', hkept'⟩ := selectRow_spec hverdict hpart hcount hr
      (hkept r (Nat.lt_of_lt_of_le hr hle)) hs
    refine ⟨s', hrun, hhash', ?_⟩
    cases hp : kept r <;> simpa [hp] using hkept'
  have htypes : Selected final hash kept false (List.range k ++ [])
      { s with targetTable := selectTypes first t s.targetTable } := by
    refine ⟨h.1, ?_⟩
    rw [List.append_nil]
    exact selectTypes_kept hpart.names (fun name hname => (hpart.grown name hname).type) h.2
  obtain ⟨s', hrun, hs'⟩ := foldlM_total (l := rowsFrom k k') htypes hround
  refine ⟨s', ?_, range_append_rowsFrom (Nat.le_of_lt hlt) ▸ hs'⟩
  rw [selectDelivered, hcount]
  exact hrun

/-- **The selection rule**: where every row has a verdict the loop keeps the
rows that pass, in their order. -/
theorem selectLoop_kept (hverdict : Decides verdict final hash V) {kept : Nat → Bool}
    (hkept : ∀ r < n, V r = some (kept r)) (hsnapshots : Snapshots delivered final n) :
    ∃ target, selectLoop verdict hash delivered = some target ∧
      HoldsSelection final.tableData ((List.range n).filter kept) target := by
  have hinit : Selected final hash kept true (List.range 0) { hashTable := hash } :=
    ⟨rfl, kept_init _⟩
  obtain ⟨s, first, hrun, hfirst, -, hs⟩ := deliveredLoop_spec
    (P := fun k first s => Selected final hash kept first (List.range k) s)
    (fun t k k' first s hpart hcount hlt hle h =>
      selectDelivered_spec hverdict hkept hpart hcount hlt hle h)
    hsnapshots hsnapshots.nonneg (fun _ => rfl) hinit
  have hloop : deliveredLoop (selectDelivered verdict) 0 true { hashTable := hash } delivered =
      some s := hrun
  exact ⟨s.targetTable, by rw [selectLoop, hloop]; rfl, hs.holdsSelection
    hsnapshots.wellFormed.column (fun r hr => List.mem_range.mp (List.mem_filter.mp hr).1) hfirst⟩

/-- A loop that ends has a verdict on every row. -/
theorem selectLoop_decided (hverdict : Decides verdict final hash V)
    (hsnapshots : Snapshots delivered final n) {target : TableData}
    (hrun : selectLoop verdict hash delivered = some target) :
    ∀ r < n, ∃ passed, V r = some passed := by
  obtain ⟨s, hrun, -⟩ := Option.map_eq_some_iff.mp hrun
  obtain ⟨-, -, hall⟩ := deliveredLoop_induction (k := 0)
    (P := fun k _ s => s.hashTable = hash ∧ ∀ r < k, ∃ passed, V r = some passed)
    (fun t k k' first s s' hpart hcount hlt _ ⟨hhash, hall⟩ hbody => by
      rw [selectDelivered, hcount] at hbody
      have hrows := foldlM_induction (P := fun done s => s.hashTable = hash ∧
          ∀ r ∈ done, ∃ passed, V r = some passed) ⟨hhash, nofun⟩
        (fun done r rest s s' hsplit ⟨hhash, hall⟩ hstep => by
          have hr : r < k' := lt_of_mem_rowsFrom (Nat.le_of_lt hlt) (by simp [hsplit])
          obtain ⟨⟨passed, hash'⟩, hv, hstep⟩ := Option.bind_eq_some_iff.mp hstep
          rw [hhash, hverdict t k' r hpart hcount hr] at hv
          obtain ⟨b, hb, he⟩ := Option.map_eq_some_iff.mp hv
          obtain ⟨rfl, rfl⟩ := Prod.mk.inj he
          refine ⟨?_, fun r' hr' => ?_⟩
          · cases b with
            | true =>
              obtain ⟨target', -, hstep⟩ := Option.bind_eq_some_iff.mp hstep
              cases hstep
              rfl
            | false =>
              cases hstep
              rfl
          · rcases List.mem_append.mp hr' with hr' | hr'
            · exact hall r' hr'
            · exact ⟨b, List.mem_singleton.mp hr' ▸ hb⟩)
        hbody
      refine ⟨hrows.1, fun r hr => ?_⟩
      by_cases hk : r < k
      · exact hall r hk
      · refine hrows.2 r ?_
        rw [rowsFrom_natCast (Nat.le_of_lt hlt), List.mem_range'_1]
        omega)
    hsnapshots hsnapshots.nonneg ⟨rfl, nofun⟩ hrun
  exact hall

/-- Two selections that a table holds have the same contents. -/
theorem HoldsSelection.content_eq {left target : TableData} {rows rows' : List Nat}
    (h : HoldsSelection left.tableData rows target)
    (h' : HoldsSelection left.tableData rows' target) :
    rows.map (left.row left.tableData.keys) = rows'.map (left.row left.tableData.keys) := by
  have hlength : rows.length = rows'.length := by
    have := h.count.symm.trans h'.count
    exact_mod_cast this
  refine List.ext_getElem (by simp [hlength]) fun k hk hk' => ?_
  simp only [List.length_map] at hk hk'
  simp only [List.getElem_map, TableData.row]
  refine List.map_congr_left fun name hname => ?_
  have hmem := AList.mem_keys.mpr hname
  rw [← ((h.cells k _ (List.getElem?_eq_getElem hk)) name hmem).2.2,
    ((h'.cells k _ (List.getElem?_eq_getElem hk')) name hmem).2.2]

/-- Rows with the same contents have the same values. -/
theorem value?_eq_of_row_eq {t : TableData} {n r r' : Nat} (hwf : t.WellFormed n) (hr : r < n)
    (h : t.row t.tableData.keys r = t.row t.tableData.keys r') :
    ∀ name ∈ t.tableData, (t.tableData.get name).value? r = (t.tableData.get name).value? r' := by
  intro name hname
  have hcell := List.map_inj_left.mp h name (AList.mem_keys.mp hname)
  obtain ⟨x, hx⟩ := ColData.cell?_isSome (hwf.column name hname) hr
  rw [ColData.value?_of_cell? hx, ColData.value?_of_cell? (hcell ▸ hx)]

/-- Two filters of the rows that a table holds are the same filter, where each
depends on the cells of a row only. -/
theorem HoldsSelection.filter_eq {left target : TableData} {n : Nat} {kept wanted : Nat → Bool}
    (h : HoldsSelection left.tableData ((List.range n).filter kept) target)
    (h' : HoldsSelection left.tableData ((List.range n).filter wanted) target)
    (hcontent : ∀ r < n, ∀ r' < n,
      left.row left.tableData.keys r = left.row left.tableData.keys r' →
      kept r = kept r' ∧ wanted r = wanted r') : ∀ r < n, kept r = wanted r := by
  have hsame := h.content_eq h'
  -- a row with the contents of a row that is kept, or wanted, is so itself
  intro r hr
  rw [Bool.eq_iff_iff]
  constructor
  · intro hk
    have hmem : left.row left.tableData.keys r ∈
        ((List.range n).filter wanted).map (left.row left.tableData.keys) := by
      rw [← hsame]
      exact List.mem_map_of_mem (List.mem_filter.mpr ⟨List.mem_range.mpr hr, hk⟩)
    obtain ⟨r', hr', heq⟩ := List.mem_map.mp hmem
    obtain ⟨hr', hw⟩ := List.mem_filter.mp hr'
    exact (hcontent r' (List.mem_range.mp hr') r hr heq).2 ▸ hw
  · intro hw
    have hmem : left.row left.tableData.keys r ∈
        ((List.range n).filter kept).map (left.row left.tableData.keys) := by
      rw [hsame]
      exact List.mem_map_of_mem (List.mem_filter.mpr ⟨List.mem_range.mpr hr, hw⟩)
    obtain ⟨r', hr', heq⟩ := List.mem_map.mp hmem
    obtain ⟨hr', hk⟩ := List.mem_filter.mp hr'
    exact (hcontent r' (List.mem_range.mp hr') r hr heq).1 ▸ hk

/-- **What a selection keeps**: where the verdicts and the rows wanted depend
on the cells of a row only, the loop keeps exactly the rows wanted if and only
if each of its verdicts says whether the row is wanted. -/
theorem selectLoop_exact_iff (hverdict : Decides verdict final hash V) (wanted : Nat → Bool)
    (hcontent : ∀ r < n, ∀ r' < n,
      final.row final.tableData.keys r = final.row final.tableData.keys r' →
      V r = V r' ∧ wanted r = wanted r')
    (hsnapshots : Snapshots delivered final n) :
    (∃ target, selectLoop verdict hash delivered = some target ∧
      HoldsSelection final.tableData ((List.range n).filter wanted) target) ↔
      ∀ r < n, V r = some (wanted r) := by
  refine ⟨fun ⟨target, hrun, hwanted⟩ => ?_, fun h => selectLoop_kept hverdict h hsnapshots⟩
  let kept : Nat → Bool := fun r => (V r).getD false
  have hkept : ∀ r < n, V r = some (kept r) := by
    intro r hr
    obtain ⟨passed, hpassed⟩ := selectLoop_decided hverdict hsnapshots hrun r hr
    simp [kept, hpassed]
  obtain ⟨target', hrun', hholds⟩ := selectLoop_kept hverdict hkept hsnapshots
  obtain rfl := Option.some.inj (hrun.symm.trans hrun')
  intro r hr
  rw [hkept r hr, Option.some.injEq]
  refine hholds.filter_eq hwanted (fun i hi i' hi' hrow => ?_) r hr
  obtain ⟨hV, hw⟩ := hcontent i hi i' hi' hrow
  exact ⟨congrArg (·.getD false) hV, hw⟩

end

end KetiEngine.Merging
