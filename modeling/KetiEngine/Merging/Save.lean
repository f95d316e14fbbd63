import KetiEngine.Lib.Loops
import KetiEngine.Merging.Contents

/-!
# Save — what `saveTableData` keeps of a table

`saveTableData` copies the rows from `offset` to `length` of a result when
`length` is no more than its rows, and the whole result when it is more. A
snippet with a LIMIT hands the two numbers of the LIMIT on.
-/

namespace KetiEngine.Merging

open KetiEngine Loops

/-- `SnippetRequest.Limit`. -/
structure Limit where
  offset : Int := 0
  length : Int := 0

/-- The end of `RunSnippetWork`: the last table is saved, within the LIMIT
when the snippet has one. -/
def saveResult (db : DataBuffer) (snippet : SavedSnippet) (limit : Limit) (table : TableData) :
    Option DataBuffer :=
  if limit.length ≠ 0 then saveTableData db snippet table limit.offset limit.length
  else saveTableData db snippet table 0 table.rowCount

/-! ## Slices -/

/-- `d` is the rows `first`, …, `first + count - 1` of `c`. -/
structure WindowOf (d c : ColData) (first count : Nat) : Prop where
  type : d.type = c.type
  length : d.HasLength count
  cells : ∀ j < count, d.cell? j = c.cell? (first + j)

theorem slice_of_le {α : Type} {v : List α} {a b : Nat} (hab : a ≤ b) (hb : b ≤ v.length) :
    WorkBuffer.slice v a b = some ((v.take b).drop a) := by
  unfold WorkBuffer.slice
  rw [if_pos (by omega)]
  simp

theorem getElem?_slice {α : Type} (v : List α) {a b j : Nat} (hj : j < b - a) :
    ((v.take b).drop a)[j]? = v[a + j]? := by
  rw [List.getElem?_drop, List.getElem?_take_of_lt (by omega)]

/-- A column of `n` rows is sliced within them. -/
theorem slicedColumn_spec {c : ColData} {n a b : Nat} (hc : c.HasLength n) (hs : c.Stored)
    (hab : a ≤ b) (hb : b ≤ n) :
    ∃ d, WorkBuffer.slicedColumn c a b = some d ∧ WindowOf d c a (b - a) := by
  have hvec := hc.vec
  have hnull := slice_of_le hab (hc.null.symm ▸ hb)
  unfold ColData.vecLength at hvec
  unfold WorkBuffer.slicedColumn
  rcases hs with ht | ht | ht | ht
  all_goals
    simp only [ht] at hvec ⊢
    rw [slice_of_le hab (hvec.symm ▸ hb), hnull]
    refine ⟨_, rfl, ht.symm, ⟨?_, ?_, ?_⟩, fun j hj => ?_⟩
    · simp only [ColData.vecLength, List.length_drop, List.length_take]
      omega
    · simp only [List.length_drop, List.length_take, hc.null]
      omega
    · simp only
      omega
    · simp only [ColData.cell?, ColData.value?, ht, getElem?_slice _ hj]

/-- A slice keeps the vector of the column's type only. -/
theorem slicedColumn_oneVector {c d : ColData} {offset length : Int}
    (h : WorkBuffer.slicedColumn c offset length = some d) : d.OneVector := by
  unfold WorkBuffer.slicedColumn at h
  cases ht : c.type <;> simp only [ht] at h
  case empty | boolean =>
    cases h
    exact ⟨fun _ => rfl, fun _ _ => rfl, fun _ => rfl⟩
  all_goals
    obtain ⟨vec, -, h⟩ := Option.bind_eq_some_iff.mp h
    obtain ⟨isnull, -, h⟩ := Option.bind_eq_some_iff.mp h
    cases h
    constructor <;> simp

/-- **The loop over the columns**: every column of the result is replaced by
its slice, the others stay. -/
theorem saveColumns_of_sliced {t : TableData} {offset length : Int} {sliced : ColData → ColData}
    (h : ∀ name ∈ t.tableData, WorkBuffer.slicedColumn (t.tableData.get name) offset length =
      some (sliced (t.tableData.get name))) (td : ColMap) :
    ∃ td', WorkBuffer.saveColumns td t offset length = some td' ∧
      (∀ name, name ∈ td' ↔ name ∈ t.tableData ∨ name ∈ td) ∧
      (∀ name, name ∉ t.tableData → td'.get name = td.get name) ∧
      ∀ name ∈ t.tableData, td'.get name = sliced (t.tableData.get name) := by
  have hloop : WorkBuffer.saveColumns td t offset length = some (t.tableData.entries.foldl
      (fun m e => ColMap.modify m e.1 fun _ => sliced e.2) td) := by
    refine foldlM_of_forall (fun td e he => ?_) td
    have hget : t.tableData.get e.1 = e.2 := ColMap.get_of_lookup (ColMap.mem_of_entry he)
    have hmem : e.1 ∈ t.tableData := AList.mem_keys.mp (List.mem_map_of_mem he)
    rw [← hget, h e.1 hmem]
    rfl
  obtain ⟨hnames, hother, hget⟩ :=
    ColMap.foldl_entries (fun c _ => sliced c) t.tableData td rfl
  exact ⟨_, hloop, hnames, hother, hget⟩

/-- `saveTableData` with a length within the rows of the result. -/
theorem save_of_sliced {w : WorkBuffer} {snippet : SavedSnippet} {t : TableData}
    {offset length : Int} {sliced : ColData → ColData} (hlength : length ≤ t.rowCount)
    (h : ∀ name ∈ t.tableData, WorkBuffer.slicedColumn (t.tableData.get name) offset length =
      some (sliced (t.tableData.get name))) :
    ∃ w', w.save snippet t offset length = some w' ∧ w'.rowCount = length - offset ∧
      w'.status = .workDone ∧
      (∀ name, name ∈ w'.tableData ↔
        name ∈ t.tableData ∨ name ∈ snippet.columnAlias ∨ name ∈ w.tableData) ∧
      ∀ name ∈ t.tableData, w'.tableData.get name = sliced (t.tableData.get name) := by
  obtain ⟨td₀, hadd, -, hmem⟩ := WorkBuffer.foldl_addColumn
    { w with tableAlias := snippet.tableAlias } snippet.columnAlias
  obtain ⟨td, hloop, hnames, -, hget⟩ := saveColumns_of_sliced h td₀
  refine ⟨{ w with
    tableAlias := snippet.tableAlias
    tableColumn := w.tableColumn ++ snippet.columnAlias
    tableData := td
    rowCount := length - offset
    status := .workDone }, ?_, rfl, rfl, fun name => ?_, hget⟩
  · simp only [WorkBuffer.save, hadd, if_pos hlength, hloop]
    rfl
  · rw [hnames, hmem]

/-- The same for a result of `n` rows: each column is its window. -/
theorem save_within {w : WorkBuffer} {snippet : SavedSnippet} {t : TableData} {n a b : Nat}
    (hwf : t.WellFormed n) (hab : a ≤ b) (hb : b ≤ n) :
    ∃ w', w.save snippet t a b = some w' ∧ w'.rowCount = b - a ∧ w'.status = .workDone ∧
      (∀ name, name ∈ w'.tableData ↔
        name ∈ t.tableData ∨ name ∈ snippet.columnAlias ∨ name ∈ w.tableData) ∧
      ∀ name ∈ t.tableData, WindowOf (w'.tableData.get name) (t.tableData.get name) a (b - a) := by
  let sliced : ColData → ColData := fun c => (WorkBuffer.slicedColumn c a b).getD {}
  have hsliced : ∀ name ∈ t.tableData, WorkBuffer.slicedColumn (t.tableData.get name) a b =
        some (sliced (t.tableData.get name)) ∧
      WindowOf (sliced (t.tableData.get name)) (t.tableData.get name) a (b - a) := by
    intro name hname
    obtain ⟨d, hd, hwindow⟩ :=
      slicedColumn_spec (hwf.column name hname) (hwf.stored name hname) hab hb
    have hd' : sliced (t.tableData.get name) = d := by simp [sliced, hd]
    exact hd' ▸ ⟨hd, hwindow⟩
  have hlength : (b : Int) ≤ t.rowCount := by
    rw [hwf.count]
    exact_mod_cast hb
  obtain ⟨w', hsave, hrows, hstatus, hnames, hget⟩ :=
    save_of_sliced hlength fun name hname => (hsliced name hname).1
  refine ⟨w', hsave, hrows, hstatus, hnames, fun name hname => ?_⟩
  rw [hget name hname]
  exact (hsliced name hname).2

/-- `saveTableData` with a length beyond the rows of the result. -/
theorem save_beyond {w : WorkBuffer} {snippet : SavedSnippet} {t : TableData}
    {offset length : Int} (hlength : ¬ length ≤ t.rowCount) :
    ∃ w', w.save snippet t offset length = some w' ∧ w'.tableData = t.tableData ∧
      w'.rowCount = t.rowCount ∧ w'.status = .workDone := by
  simp only [WorkBuffer.save, if_neg hlength]
  exact ⟨_, rfl, rfl, rfl, rfl⟩

/-- The row count of a saved table. -/
theorem rowCount_of_save {w w' : WorkBuffer} {snippet : SavedSnippet} {t : TableData}
    {offset length : Int} (h : w.save snippet t offset length = some w') :
    w'.rowCount = if length ≤ t.rowCount then length - offset else t.rowCount := by
  unfold WorkBuffer.save at h
  by_cases hlength : length ≤ t.rowCount
  · simp only [if_pos hlength] at h ⊢
    obtain ⟨td, -, h⟩ := Option.bind_eq_some_iff.mp h
    cases h
    rfl
  · simp only [if_neg hlength] at h ⊢
    cases h
    rfl

/-- The columns of a saved table have values in the vector of their type only. -/
theorem oneVector_of_save {w w' : WorkBuffer} {snippet : SavedSnippet} {t : TableData}
    {offset length : Int} (hlength : length ≤ t.rowCount)
    (h : w.save snippet t offset length = some w') :
    ∀ name ∈ t.tableData, (w'.tableData.get name).OneVector := by
  unfold WorkBuffer.save at h
  simp only [if_pos hlength] at h
  obtain ⟨td, hloop, h⟩ := Option.bind_eq_some_iff.mp h
  cases h
  refine foldlM_induction (P := fun done (td : ColMap) =>
    ∀ name ∈ done.map Sigma.fst, (td.get name).OneVector) nofun ?_ hloop
  intro done e rest td td' _ htd hround name hname
  obtain ⟨column, hsliced, hround⟩ := Option.bind_eq_some_iff.mp hround
  cases hround
  by_cases hne : name = e.1
  · subst hne
    rw [ColMap.get_insert]
    exact slicedColumn_oneVector hsliced
  · rw [ColMap.get_insert_ne td column hne]
    refine htd name ?_
    simpa [hne] using hname

/-! ## The window of a LIMIT -/

/-- The rows of a LIMIT in a table of `n` rows. -/
def windowLength (n offset length : Nat) : Nat := min (offset + length) n - offset

/-- The buffer holds the rows of the LIMIT: in its row count and in every
column of the result. -/
structure HoldsWindow (w : WorkBuffer) (t : TableData) (n offset length : Nat) : Prop where
  rowCount : w.rowCount = windowLength n offset length
  columns : ∀ name ∈ t.tableData, name ∈ w.tableData ∧
    WindowOf (w.tableData.get name) (t.tableData.get name) offset (windowLength n offset length)

/-- **A saved table holds the window** exactly for these offsets and lengths. -/
theorem save_holdsWindow_iff {w : WorkBuffer} {snippet : SavedSnippet} {t : TableData}
    {n offset length : Nat} (hwf : t.WellFormed n) (hpos : 0 < length) :
    (∃ w', w.save snippet t offset length = some w' ∧ HoldsWindow w' t n offset length) ↔
      offset = 0 ∨ n = 0 ∨ (n = length ∧ offset ≤ n) := by
  have hcount := hwf.count
  constructor
  · -- the row count alone rules out every other offset and length
    rintro ⟨w', hsave, hwindow⟩
    have hrows := rowCount_of_save hsave
    rw [hwindow.rowCount, hcount] at hrows
    unfold windowLength at hrows
    split at hrows <;> omega
  · intro hcase
    by_cases hlength : length ≤ n
    · -- the slice from `offset` to `length` is the window
      have hwithin : windowLength n offset length = length - offset ∧ offset ≤ length := by
        unfold windowLength
        omega
      obtain ⟨w', hsave, hrows, -, hnames, hwindow⟩ := save_within (w := w) hwf hwithin.2 hlength
      refine ⟨w', hsave, ?_, fun name hname => ⟨(hnames name).mpr (.inl hname), ?_⟩⟩
      · rw [hrows, hwithin.1]
        omega
      · rw [hwithin.1]
        exact hwindow name hname
    · -- the whole result is stored, which is the window
      have hbeyond : windowLength n offset length = n ∧ (offset = 0 ∨ n = 0) := by
        unfold windowLength
        omega
      obtain ⟨w', hsave, hdata, hrows, -⟩ :=
        @save_beyond w snippet t offset length (by omega)
      refine ⟨w', hsave, by rw [hrows, hbeyond.1, hcount], fun name hname => ?_⟩
      rw [hdata, hbeyond.1]
      refine ⟨hname, rfl, hwf.column name hname, fun j hj => ?_⟩
      rcases hbeyond.2 with rfl | rfl
      · rw [Nat.zero_add]
      · omega

/-- **LIMIT keeps the requested window** exactly where the offset is 0, the
result is empty, or the length is the number of its rows and the offset is
within them. -/
theorem saveResult_holdsWindow_iff {db : DataBuffer} {snippet : SavedSnippet} {limit : Limit}
    {table : TableData} {n : Nat} {w : WorkBuffer}
    (hw : db.work? snippet.queryId snippet.workId = some w) (htable : table.WellFormed n)
    (hoffset : 0 ≤ limit.offset) (hlength : 0 < limit.length) :
    (∃ db' w', saveResult db snippet limit table = some db' ∧
      db'.work? snippet.queryId snippet.workId = some w' ∧
      HoldsWindow w' table n limit.offset.toNat limit.length.toNat) ↔
      limit.offset = 0 ∨ n = 0 ∨ (n = limit.length ∧ limit.offset ≤ n) := by
  obtain ⟨offset, hoffset'⟩ := Int.eq_ofNat_of_zero_le hoffset
  obtain ⟨length, hlength'⟩ := Int.eq_ofNat_of_zero_le hlength.le
  have hcond : (limit.offset = 0 ∨ n = 0 ∨ (n = limit.length ∧ limit.offset ≤ n)) ↔
      offset = 0 ∨ n = 0 ∨ (n = length ∧ offset ≤ n) := by omega
  rw [hcond, ← @save_holdsWindow_iff w snippet table n offset length htable (by omega)]
  have hlimited : limit.length ≠ 0 := by omega
  have hrun : saveResult db snippet limit table =
      saveTableData db snippet table offset length := by
    rw [saveResult, if_pos hlimited, hoffset', hlength']
  simp only [hrun, hoffset', hlength', Int.toNat_natCast]
  constructor
  · rintro ⟨db', w', hsave, hw', hwindow⟩
    obtain ⟨w₀, w₁, hw₀, hsaved, hw₁⟩ := saveTableData_spec hsave
    obtain rfl := Option.some.inj (hw.symm.trans hw₀)
    obtain rfl := Option.some.inj (hw'.symm.trans hw₁)
    exact ⟨w', hsaved, hwindow⟩
  · rintro ⟨w', hsaved, hwindow⟩
    obtain ⟨db', hsave, hw'⟩ := saveTableData_of_save hw hsaved
    exact ⟨db', w', hsave, hw', hwindow⟩

/-- Query 1 with the new buffer of work 2. -/
def newBuffer : DataBuffer :=
  AList.singleton 1 { queryId := 1, workBufferList := AList.singleton 2 {} }

/-- LIMIT 3 of four rows. -/
theorem saveResult_first_rows :
    (∃ db' w', saveResult newBuffer ⟨1, 2, "r", ["n"]⟩ { length := 3 }
        (numberTable "n" [4, 5, 6, 7] .workDone) = some db' ∧
      db'.work? 1 2 = some w' ∧
      HoldsWindow w' (numberTable "n" [4, 5, 6, 7] .workDone) 4 0 3) ↔
      (0 : Int) = 0 ∨ 4 = 0 ∨ ((4 : Nat) = (3 : Int) ∧ (0 : Int) ≤ (4 : Nat)) :=
  saveResult_holdsWindow_iff rfl (numberTable_wellFormed "n" [4, 5, 6, 7] .workDone)
    (by decide) (by decide)

/-- Of three rows, OFFSET 1 LIMIT 2 keeps one, and OFFSET 2 LIMIT 1 leaves the
defined behaviour. -/
theorem saveResult_lost_rows :
    (∃ db' w', saveResult newBuffer ⟨1, 2, "r", ["n"]⟩ ⟨1, 2⟩
        (numberTable "n" [4, 5, 6] .workDone) = some db' ∧
      db'.work? 1 2 = some w' ∧ w'.rowCount = 1 ∧
      ¬ HoldsWindow w' (numberTable "n" [4, 5, 6] .workDone) 3 1 2) ∧
    saveResult newBuffer ⟨1, 2, "r", ["n"]⟩ ⟨2, 1⟩
      (numberTable "n" [4, 5, 6] .workDone) = none := by
  refine ⟨⟨_, _, rfl, rfl, rfl, fun h => ?_⟩, rfl⟩
  exact absurd h.rowCount (by decide)

end KetiEngine.Merging
