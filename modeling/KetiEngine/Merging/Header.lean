import KetiEngine.Merging.Contents

/-!
# Header — what the header of a CSD result may leave out

The constructor `BlockResult(json, data)` and the reads of the column types
and lengths that follow it. The constructor goes on without the two lists and
skips the entries that are no integers; what comes after reads by position.
-/

namespace KetiEngine.Merging

open KetiEngine

/-! ## The header -/

/-- `BUFF_SIZE`. -/
def buffSize : Nat := 500000

/-- What stands under a key that should hold a list of integers. -/
inductive JsonField where
  | missing
  | noArray
  | array (entries : List (Option Int))
  deriving DecidableEq, Repr

/-- `HasMember(key) && document[key].IsArray()`, else an empty array. An
entry for which `IsInt()` fails is `none`. -/
def JsonField.entries : JsonField → List (Option Int)
  | .missing | .noArray => []
  | .array entries => entries

/-- The header of a CSD result. `row_count` is not negative. -/
structure ResultHeader where
  queryId : Int
  workId : Int
  tableAlias : String
  rowCount : Nat
  rowOffset : List Int
  columnAlias : List String
  returnColumnType : JsonField
  returnColumnLength : JsonField
  length : Int
  currentBlockCount : Int
  totalBlockCount : Int
  scannedRowCount : Int
  filteredRowCount : Int

/-! ## The constructor -/

/-- The loop over `return_datatype_`: the pairs it pushes. A read of
`return_offlen_` beyond its end is `none`. -/
def returnColumns : List (Option Int) → List (Option Int) → Option (List (Int × Int))
  | [], _ => some []
  -- `||` reads the length only behind an integer type
  | none :: types, lengths => returnColumns types lengths.tail
  | some _ :: _, [] => none
  | some datatype :: types, offlen :: lengths => do
      let columns ← returnColumns types lengths
      pure ((offlen.map (datatype, ·)).toList ++ columns)

namespace ResultHeader

/-- `return_datatype` and `return_offlen`, pair by pair. -/
def columns (header : ResultHeader) : Option (List (Int × Int)) :=
  returnColumns header.returnColumnType.entries header.returnColumnLength.entries

/-- `BlockResult(json, data)`. -/
def blockResult (header : ResultHeader) (data : List UInt8) : Option BlockResult := do
  let columns ← header.columns
  let data ← bytesAt data 0 header.length
  pure {
    queryId := header.queryId
    workId := header.workId
    data := data
    length := header.length
    rowOffset := header.rowOffset
    rowCount := header.rowCount
    tableTotalBlockCount := header.totalBlockCount
    resultBlockCount := header.currentBlockCount
    returnDatatype := columns.map Prod.fst
    returnOfflen := columns.map Prod.snd
    scannedRowCount := header.scannedRowCount
    filteredRowCount := header.filteredRowCount
    tableAlias := header.tableAlias
    columnAlias := header.columnAlias
    sameLength := by simp }

/-- The positions that hold an integer in both lists. -/
def integerColumns (header : ResultHeader) : Nat :=
  (header.returnColumnType.entries.zip header.returnColumnLength.entries).countP
    fun p => p.1.isSome && p.2.isSome

/-- Every integer type has an entry at its position in the other list. -/
def TypesCovered (header : ResultHeader) : Prop :=
  ∀ (i : Nat) (datatype : Int), header.returnColumnType.entries[i]? = some (some datatype) →
    i < header.returnColumnLength.entries.length

/-- `row_offset` has `row_count` increasing entries below `length`, which the
data buffer can hold. -/
structure WellFormed (header : ResultHeader) : Prop where
  rows : header.rowOffset.length = header.rowCount
  increasing : header.rowOffset.Pairwise (· < ·)
  below : ∀ offset ∈ header.rowOffset, offset < header.length
  length_le : header.length ≤ buffSize

end ResultHeader

/-- The loop reads beyond the lengths at an integer type that has none. -/
theorem returnColumns_eq_none_iff (types lengths : List (Option Int)) :
    returnColumns types lengths = none ↔
      ∃ (i : Nat) (datatype : Int), types[i]? = some (some datatype) ∧ lengths.length ≤ i := by
  fun_induction returnColumns types lengths with
  | case1 lengths => simp
  | case2 types lengths ih =>
    rw [ih]
    constructor
    · rintro ⟨i, datatype, hi, hle⟩
      rw [List.length_tail] at hle
      exact ⟨i + 1, datatype, by simpa using hi, by omega⟩
    · rintro ⟨i, datatype, hi, hle⟩
      cases i with
      | zero => simp at hi
      | succ i => exact ⟨i, datatype, by simpa using hi, by rw [List.length_tail]; omega⟩
  | case3 datatype types =>
    simp only [true_iff]
    exact ⟨0, datatype, rfl, Nat.le_refl _⟩
  | case4 datatype types offlen lengths ih =>
    refine Iff.trans ?_ (ih.trans ?_)
    · cases returnColumns types lengths <;> simp
    constructor
    · rintro ⟨i, value, hi, hle⟩
      exact ⟨i + 1, value, by simpa using hi, by simpa using hle⟩
    · rintro ⟨i, value, hi, hle⟩
      cases i with
      | zero => simp at hle
      | succ i => exact ⟨i, value, by simpa using hi, by simpa using hle⟩

/-- The loop pushes a pair for every position with two integers. -/
theorem length_of_returnColumns {types lengths : List (Option Int)} {columns : List (Int × Int)}
    (h : returnColumns types lengths = some columns) :
    columns.length =
      (types.zip lengths).countP fun p => p.1.isSome && p.2.isSome := by
  fun_induction returnColumns types lengths generalizing columns with
  | case1 lengths =>
    cases h
    simp
  | case2 types lengths ih =>
    rw [ih h]
    cases lengths <;> simp
  | case3 datatype types => cases h
  | case4 datatype types offlen lengths ih =>
    obtain ⟨rest, hrest, h⟩ := Option.bind_eq_some_iff.mp h
    cases h
    cases offlen <;> simp [ih hrest]

/-! ## Reading by position -/

/-- Where one round of `mergeResult` reads `return_datatype` and
`return_offlen`: for every row `getColOffset` reads both at each of their
positions, and the `switch` reads a type for each column of the table. -/
def mergeReads (colCount : Nat) (result : BlockResult) : List Nat :=
  if result.length ≠ 0 then
    (List.range result.rowCount).flatMap fun _ =>
      List.range result.returnDatatype.length ++ List.range colCount
  else []

theorem mergeReads_within_iff (colCount : Nat) (result : BlockResult) :
    (∀ i ∈ mergeReads colCount result, i < result.returnDatatype.length) ↔
      (result.length ≠ 0 → 0 < result.rowCount → colCount ≤ result.returnDatatype.length) := by
  unfold mergeReads
  split
  · rename_i hlen
    simp only [List.mem_flatMap, List.mem_append, List.mem_range]
    constructor
    · intro h _ hrows
      by_contra hlt
      exact absurd (h _ ⟨0, hrows, .inr (Nat.lt_of_not_le hlt)⟩) (Nat.lt_irrefl _)
    · rintro h i ⟨row, hrow, hi | hi⟩
      · exact hi
      · exact Nat.lt_of_lt_of_le hi (h hlen (Nat.zero_lt_of_lt hrow))
  · rename_i hlen
    simp [hlen]

namespace WorkBuffer

/-- The columns a result with these aliases is read for: `pushResult` adds
those of the first result of a work to the table. -/
def columnsFor (w : WorkBuffer) (columnAlias : List String) : List String :=
  if w.status = .initialized then w.tableColumn ++ columnAlias else w.tableColumn

/-- `save_table_column_type` reads a type for each column. -/
theorem saveTableColumnType_eq_none_iff (w : WorkBuffer) {types lens : List Int}
    (hlen : lens.length = types.length) :
    w.saveTableColumnType types lens = none ↔ types.length < w.tableColumn.length := by
  constructor
  · intro h
    by_contra hle
    have htotal : w.tableColumn.zipIdx.foldlM (fun td (p : String × Nat) => do
          let colType ← types[p.2]?
          let colLen ← lens[p.2]?
          pure (td.modify p.1 (typedColumn colType colLen))) w.tableData =
        some (w.tableColumn.zipIdx.foldl (fun td p =>
          td.modify p.1 (typedColumn (types.getD p.2 0) (lens.getD p.2 0))) w.tableData) := by
      refine Loops.foldlM_of_forall (fun td p hp => ?_) _
      have hp2 : p.2 < w.tableColumn.length := by
        have := List.snd_lt_of_mem_zipIdx hp
        omega
      have ht : p.2 < types.length := by omega
      have hl : p.2 < lens.length := by omega
      simp [List.getElem?_eq_getElem ht, List.getElem?_eq_getElem hl, List.getD]
    rw [saveTableColumnType, htotal] at h
    cases h
  · intro hlt
    have hmem : (w.tableColumn[types.length], types.length) ∈ w.tableColumn.zipIdx :=
      List.mem_zipIdx_iff_getElem?.mpr (List.getElem?_eq_getElem hlt)
    rw [saveTableColumnType, Loops.foldlM_eq_none hmem]
    · rfl
    · intro td
      simp

/-- `pushResult` reads a type for each column when the result is the first. -/
theorem push_eq_none_iff (w : WorkBuffer) (result : BlockResult) :
    w.push result = none ↔ w.status = .initialized ∧
      result.returnDatatype.length < (w.columnsFor result.columnAlias).length := by
  by_cases hstatus : w.status = .initialized
  · obtain ⟨td, hadd, -⟩ :=
      foldl_addColumn { w with tableAlias := result.tableAlias } result.columnAlias
    have hnone := saveTableColumnType_eq_none_iff
      (result.columnAlias.foldl addColumn { w with tableAlias := result.tableAlias })
      result.sameLength
    have hcolumns : (result.columnAlias.foldl addColumn
        { w with tableAlias := result.tableAlias }).tableColumn =
          w.tableColumn ++ result.columnAlias := by rw [hadd]
    rw [hcolumns] at hnone
    rw [and_iff_right hstatus, columnsFor, if_pos hstatus, ← hnone, push, if_pos hstatus, start]
    cases (result.columnAlias.foldl addColumn
      { w with tableAlias := result.tableAlias }).saveTableColumnType
        result.returnDatatype result.returnOfflen <;> simp
  · simp [push, hstatus]

theorem push_eq_some {w w' : WorkBuffer} {result : BlockResult} {started : Bool}
    (h : w.push result = some (w', started)) :
    w'.tableColumn = w.columnsFor result.columnAlias ∧
      w'.workBufferQueue = w.workBufferQueue ++ [result] := by
  unfold columnsFor
  by_cases hstatus : w.status = .initialized
  · rw [push, if_pos hstatus] at h
    obtain ⟨w₁, hstart, h⟩ := Option.bind_eq_some_iff.mp h
    cases h
    obtain ⟨w₂, htypes, hstart⟩ := Option.bind_eq_some_iff.mp hstart
    cases hstart
    obtain ⟨td, hadd, -⟩ :=
      foldl_addColumn { w with tableAlias := result.tableAlias } result.columnAlias
    rw [hadd] at htypes
    obtain ⟨vals, -, rfl⟩ := saveTableColumnType_eq htypes
    simp [enqueue, hstatus]
  · obtain ⟨-, rfl⟩ := push_started hstatus h
    simp [hstatus]

/-! ## A header and the reads it leads to -/

/-- `pushResult` does not queue the result. -/
def Rejects (w : WorkBuffer) (result : BlockResult) : Prop :=
  ∃ w' started, w.push result = some (w', started) ∧ w'.workBufferQueue = w.workBufferQueue

/-- The reads for a result stay within its two lists: those of `pushResult`,
and those of the round of `mergeResult` that takes the result. -/
def ReadsWithin (w : WorkBuffer) (result : BlockResult) : Prop :=
  ∃ w' started, w.push result = some (w', started) ∧
    ∀ i ∈ mergeReads w'.tableColumn.length result,
      i < result.returnDatatype.length ∧ i < result.returnOfflen.length

/-- A header that leads to no read beyond the two lists. -/
def Withstands (w : WorkBuffer) (header : ResultHeader) (data : List UInt8) : Prop :=
  header.columns ≠ none ∧
    ∀ result, header.blockResult data = some result → w.Rejects result ∨ w.ReadsWithin result

/-- There is no check in `pushResult`. -/
theorem not_rejects (w : WorkBuffer) (result : BlockResult) : ¬ w.Rejects result := by
  rintro ⟨w', started, hpush, hqueue⟩
  have := (push_eq_some hpush).2
  rw [hqueue] at this
  simp at this

theorem readsWithin_iff (w : WorkBuffer) (result : BlockResult) :
    w.ReadsWithin result ↔
      (w.status = .initialized ∨ result.length ≠ 0 ∧ 0 < result.rowCount →
        (w.columnsFor result.columnAlias).length ≤ result.returnDatatype.length) := by
  have hboth : ∀ i, i < result.returnDatatype.length ∧ i < result.returnOfflen.length ↔
      i < result.returnDatatype.length := fun i => by rw [result.sameLength, and_self]
  constructor
  · rintro ⟨w', started, hpush, hreads⟩
    simp only [hboth] at hreads
    rw [(push_eq_some hpush).1, mergeReads_within_iff] at hreads
    rintro (hstatus | ⟨hlen, hrows⟩)
    · by_contra hlt
      rw [(push_eq_none_iff w result).mpr ⟨hstatus, Nat.lt_of_not_le hlt⟩] at hpush
      cases hpush
    · exact hreads hlen hrows
  · intro hcount
    have hsome : w.push result ≠ none := fun hnone => by
      obtain ⟨hstatus, hlt⟩ := (push_eq_none_iff w result).mp hnone
      exact Nat.not_le_of_lt hlt (hcount (.inl hstatus))
    obtain ⟨⟨w', started⟩, hpush⟩ := Option.ne_none_iff_exists'.mp hsome
    refine ⟨w', started, hpush, ?_⟩
    simp only [hboth]
    rw [(push_eq_some hpush).1, mergeReads_within_iff]
    exact fun hlen hrows => hcount (.inr ⟨hlen, hrows⟩)

end WorkBuffer

namespace ResultHeader

/-- Once the result is constructed, the columns of the table are read if it is
the first of its work or has rows. -/
def ColumnsRead (w : WorkBuffer) (header : ResultHeader) : Prop :=
  0 ≤ header.length ∧
    (w.status = .initialized ∨ header.length ≠ 0 ∧ 0 < header.rowCount)

theorem columns_eq_none_iff (header : ResultHeader) :
    header.columns = none ↔ ¬ header.TypesCovered := by
  simp only [columns, returnColumns_eq_none_iff, TypesCovered, not_forall, Nat.not_lt,
    exists_prop]

theorem blockResult_spec {header : ResultHeader} {data : List UInt8} {result : BlockResult}
    (h : header.blockResult data = some result) :
    0 ≤ header.length ∧ result.length = header.length ∧ result.rowCount = header.rowCount ∧
      result.columnAlias = header.columnAlias ∧
      result.returnDatatype.length = header.integerColumns := by
  obtain ⟨columns, hcolumns, h⟩ := Option.bind_eq_some_iff.mp h
  obtain ⟨bytes, hbytes, h⟩ := Option.bind_eq_some_iff.mp h
  cases h
  refine ⟨?_, rfl, rfl, rfl, (List.length_map _).trans (length_of_returnColumns hcolumns)⟩
  by_contra hneg
  rw [bytesAt, if_neg fun hbounds => hneg hbounds.2.1] at hbytes
  cases hbytes

theorem blockResult_isSome {header : ResultHeader} {data : List UInt8}
    (hcolumns : header.columns ≠ none) (hlength : 0 ≤ header.length)
    (hdata : header.length ≤ data.length) : ∃ result, header.blockResult data = some result := by
  obtain ⟨columns, hcolumns⟩ := Option.ne_none_iff_exists'.mp hcolumns
  have hbytes : bytesAt data 0 header.length =
      some ((data.drop 0).take header.length.toNat) :=
    if_pos ⟨Int.le_refl 0, hlength, by omega⟩
  exact ⟨_, by rw [blockResult, hcolumns, hbytes]; rfl⟩

end ResultHeader

/-- **A header leads to no read beyond the two lists** if and only if every
integer type has an entry at its position among the lengths and, where the
columns are read, there are as many positions with two integers as columns. -/
theorem withstands_iff (w : WorkBuffer) {header : ResultHeader} {data : List UInt8}
    (hheader : header.WellFormed) (hdata : data.length = buffSize) :
    w.Withstands header data ↔ header.TypesCovered ∧
      (header.ColumnsRead w →
        (w.columnsFor header.columnAlias).length ≤ header.integerColumns) := by
  unfold WorkBuffer.Withstands
  rw [Ne, header.columns_eq_none_iff, not_not]
  refine and_congr_right fun htypes => ?_
  have hcolumns : header.columns ≠ none := fun hnone =>
    header.columns_eq_none_iff.mp hnone htypes
  constructor
  · rintro hsafe ⟨hlength, hread⟩
    obtain ⟨result, hresult⟩ := ResultHeader.blockResult_isSome hcolumns hlength
      (hdata ▸ hheader.length_le)
    obtain ⟨-, hlen, hcount, halias, htypes⟩ := ResultHeader.blockResult_spec hresult
    have hwithin := (hsafe result hresult).resolve_left (w.not_rejects result)
    rw [w.readsWithin_iff, halias, htypes, hlen, hcount] at hwithin
    exact hwithin hread
  · intro hcolumns result hresult
    obtain ⟨hlength, hlen, hcount, halias, htypes⟩ := ResultHeader.blockResult_spec hresult
    right
    rw [w.readsWithin_iff, halias, htypes, hlen, hcount]
    exact fun hread => hcolumns ⟨hlength, hread⟩

/-- A result of one row in one column `a`. -/
def oneColumn (returnColumnType returnColumnLength : JsonField) : ResultHeader where
  queryId := 1
  workId := 0
  tableAlias := "t"
  rowCount := 1
  rowOffset := [0]
  columnAlias := ["a"]
  returnColumnType := returnColumnType
  returnColumnLength := returnColumnLength
  length := 4
  currentBlockCount := 1
  totalBlockCount := 1
  scannedRowCount := 1
  filteredRowCount := 1

theorem oneColumn_wellFormed (returnColumnType returnColumnLength : JsonField) :
    (oneColumn returnColumnType returnColumnLength).WellFormed where
  rows := rfl
  increasing := List.pairwise_singleton _ _
  below := by simp [oneColumn]
  length_le := by simp [oneColumn, buffSize]

/-- The column as an `INT32` of four bytes. -/
theorem withstands_int32 :
    WorkBuffer.Withstands {} (oneColumn (.array [some 3]) (.array [some 4]))
      (List.replicate buffSize 0) := by
  refine (withstands_iff {} (oneColumn_wellFormed _ _) List.length_replicate).mpr ⟨?_, ?_⟩
  · intro i datatype hi
    have := (List.getElem?_eq_some_iff.mp hi).1
    simpa [oneColumn, JsonField.entries] using this
  · intro _
    decide

/-- Without the two lists, `save_table_column_type` reads the type of the
column from an empty vector. -/
theorem not_withstands_missing :
    (oneColumn .missing .missing).WellFormed ∧
    ¬ WorkBuffer.Withstands {} (oneColumn .missing .missing) (List.replicate buffSize 0) := by
  refine ⟨oneColumn_wellFormed _ _, fun h => ?_⟩
  obtain ⟨result, hresult⟩ := @ResultHeader.blockResult_isSome (oneColumn .missing .missing)
    (List.replicate buffSize 0) h.1 (by decide) (by rw [List.length_replicate]; decide)
  obtain ⟨-, -, -, halias, htypes⟩ := ResultHeader.blockResult_spec hresult
  have hwithin := (h.2 result hresult).resolve_left (WorkBuffer.not_rejects _ _)
  rw [WorkBuffer.readsWithin_iff, halias, htypes] at hwithin
  exact absurd (hwithin (.inl rfl)) (by decide)

end KetiEngine.Merging
