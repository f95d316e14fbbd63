import KetiEngine.Table
import KetiEngine.Lib.LittleEndian
import KetiEngine.Lib.Loops

/-!
# Block — decoding the row blocks of a CSD

`BlockResult`, `getColOffset` and the decoding half of `mergeResult`. A
read outside a buffer, a copy of a negative length and the use of a variable
that was never set are undefined in the source; they are `none` here.
-/

namespace KetiEngine.Merging

open KetiEngine

/-- A CSD result as `BlockResult(json, data)` leaves it. The constructor
pushes a type and a length together, so the two lists have one length. -/
structure BlockResult where
  queryId : Int
  workId : Int
  data : List UInt8
  length : Int
  rowOffset : List Int
  rowCount : Nat
  tableTotalBlockCount : Int
  resultBlockCount : Int
  returnDatatype : List Int
  returnOfflen : List Int
  scannedRowCount : Int
  filteredRowCount : Int
  tableAlias : String
  columnAlias : List String
  sameLength : returnOfflen.length = returnDatatype.length
  deriving DecidableEq

/-! ## Reading buffers -/

/-- `buf[off]`. -/
def byteAt (buf : List UInt8) (off : Int) : Option UInt8 :=
  if 0 ≤ off then buf[off.toNat]? else none

/-- `memcpy(dst, buf + off, len)`: the bytes copied. -/
def bytesAt (buf : List UInt8) (off len : Int) : Option (List UInt8) :=
  if 0 ≤ off ∧ 0 ≤ len ∧ off + len ≤ buf.length then
    some ((buf.drop off.toNat).take len.toNat)
  else none

/-- `*((intN_t *)buf)` for an integer of `n` bytes. -/
def intAt (buf : List UInt8) (n : Nat) : Option Int :=
  if n ≤ buf.length then some (LittleEndian.toInt (buf.take n)) else none

/-- The byte positions `getColOffset` stores, one for each column. `tune` is
how far the VARSTRING columns so far are shorter than declared. -/
def getColOffset.go (rowData : List UInt8) :
    List Int → List Int → Int → Int → Option (List Int)
  | [], _, _, _ => some []
  | _ :: _, [], _, _ => none
  | colType :: types, colLen :: lens, colOffset, tune => do
      let newColOffset := colOffset + tune
      let tune ←
        if colType = MySQLDataType.varString.code then
          if colLen < 256 then do
            let b ← byteAt rowData newColOffset
            pure (tune + (b.toNat + 1 - colLen))
          else do
            let b₀ ← byteAt rowData newColOffset
            let b₁ ← byteAt rowData (newColOffset + 1)
            pure (tune + (LittleEndian.toNat [b₀, b₁] + 2 - colLen))
        else pure tune
      let rest ← go rowData types lens (colOffset + colLen) tune
      pure (newColOffset :: rest)

def getColOffset (rowData : List UInt8) (returnDatatype tableOfflen : List Int) :
    Option (List Int) :=
  getColOffset.go rowData returnDatatype tableOfflen 0 0

/-! ## The branches of the decoder -/

/-- The complement of the first seven bytes. -/
def complementSeven (tempbuf : List UInt8) : Option (List UInt8) :=
  if 7 ≤ tempbuf.length then
    some ((tempbuf.take 7).map (fun x => ~~~x) ++ tempbuf.drop 7)
  else none

/-- The fraction of a decimal: one, two or three bytes. -/
def decimalFraction : List UInt8 → Option ℚ
  | [r₀] => some ((LittleEndian.toInt [r₀] : ℚ) / 100)
  | [r₀, r₁] => some ((LittleEndian.toInt [r₀, r₁] : ℚ) / 10000)
  | [r₀, r₁, r₂] => some ((LittleEndian.toInt [r₀, r₁, r₂, 0] : ℚ) / 1000000)
  | _ => none

/-- The `MySQL_NEWDECIMAL` branch: six integer bytes, most significant
first, and a fraction of one to three bytes. A negative number is stored
complemented with its top bit clear; only seven bytes are complemented. -/
def decodeDecimal (tempbuf : List UInt8) : Option Double := do
  let b ← tempbuf.head?
  let isNegative := b.toNat < 128
  let tempbuf ← (if isNegative then complementSeven tempbuf else some tempbuf)
  let tempbuf := tempbuf.modify 0 (· ^^^ 0x80)
  let ivalue ← intAt ((tempbuf.take 6).reverse ++ [0, 0]) 8
  let rvalue ← decimalFraction (tempbuf.drop 6)
  let myValue : ℚ := ivalue + rvalue
  pure (.fin (if isNegative then -myValue else myValue))

/-- The `switch` of `mergeResult` on the column's type. The inner `none` is
its `default` branch, which pushes no value. -/
def decodeColumn (rowData : List UInt8) (colType colOffset colLen : Int) :
    Option (Option Value) :=
  match MySQLDataType.ofCode? colType with
  | some .byte => do
      let tempbuf ← bytesAt rowData colOffset colLen
      let myValue ← intAt tempbuf 1
      pure (some (.int myValue))
  | some .int16 => do
      let tempbuf ← bytesAt rowData colOffset colLen
      let myValue ← intAt tempbuf 2
      pure (some (.int myValue))
  | some .int32 => do
      let tempbuf ← bytesAt rowData colOffset colLen
      let myValue ← intAt tempbuf 4
      pure (some (.int myValue))
  | some .int64 => do
      let tempbuf ← bytesAt rowData colOffset colLen
      let myValue ← intAt tempbuf 8
      pure (some (.int myValue))
  | some .float32 => do
      let tempbuf ← bytesAt rowData colOffset colLen
      if 4 ≤ tempbuf.length then
        pure (some (.float (Double.ofBits 8 23 (LittleEndian.toNat (tempbuf.take 4)))))
      else none
  | some .double => do
      let tempbuf ← bytesAt rowData colOffset colLen
      if 8 ≤ tempbuf.length then
        pure (some (.float (Double.ofBits 11 52 (LittleEndian.toNat (tempbuf.take 8)))))
      else none
  | some .newDecimal => do
      let tempbuf ← bytesAt rowData colOffset colLen
      let myValue ← decodeDecimal tempbuf
      pure (some (.float myValue))
  | some .date => do
      let tempbuf ← bytesAt rowData colOffset colLen
      -- `tempbuf` has one byte more than the column, and byte 3 is cleared
      if 3 ≤ tempbuf.length then
        pure (some (.int (LittleEndian.toInt (tempbuf.take 3 ++ [0]))))
      else none
  | some .timestamp => do
      let tempbuf ← bytesAt rowData colOffset colLen
      let myValue ← intAt tempbuf 4
      pure (some (.int myValue))
  | some .string => do
      let tempbuf ← bytesAt rowData colOffset colLen
      pure (some (.string (cString tempbuf)))
  | some .varString =>
      -- the prefix is taken to be one byte when the encoded column is short
      if colLen < 258 then do
        let tempbuf ← bytesAt rowData (colOffset + 1) (colLen - 1)
        pure (some (.string (cString tempbuf)))
      else do
        let tempbuf ← bytesAt rowData (colOffset + 2) (colLen - 2)
        pure (some (.string (cString tempbuf)))
  | none => some none

/-! ## A row, a block -/

namespace BlockResult

/-- `row_data`: the bytes of row `i`. -/
def rowData (result : BlockResult) (i : Nat) : Option (List UInt8) := do
  let newRowOffset := result.rowOffset ++ [result.length]
  let start ← result.rowOffset[i]?
  let next ← newRowOffset[i + 1]?
  bytesAt result.data start (next - start)

/-- `col_offset_list`, an array of `colCount + 1` entries: what
`getColOffset` stores, and the end of the row as the last entry. -/
def colOffsetList (result : BlockResult) (rowData : List UInt8) (colCount : Nat) :
    Option (List Int) := do
  let offsets ← getColOffset rowData result.returnDatatype result.returnOfflen
  if colCount ≤ offsets.length ∧ offsets.length ≤ colCount + 1 then
    pure (offsets.take colCount ++ [(rowData.length : Int)])
  else none

/-- The value of column `j` in the row at `rowData`. -/
def columnValue (result : BlockResult) (rowData : List UInt8) (offsets : List Int)
    (j : Nat) : Option (Option Value) := do
  let colOffset ← offsets[j]?
  let next ← offsets[j + 1]?
  let colType ← result.returnDatatype[j]?
  decodeColumn rowData colType colOffset (next - colOffset)

end BlockResult

/-- `vec.push_back(value); isnull.push_back(false); row_count++`. -/
def pushDecoded (c : ColData) (v : Option Value) : ColData :=
  (v.elim c c.pushValue).pushNull false

/-- One round of the row loop of `mergeResult`. -/
def mergeRow (tableColumn : List String) (result : BlockResult) (td : ColMap)
    (i : Nat) : Option ColMap := do
  let rowData ← result.rowData i
  let offsets ← result.colOffsetList rowData tableColumn.length
  tableColumn.zipIdx.foldlM (fun td (p : String × Nat) => do
    let v ← result.columnValue rowData offsets p.2
    pure (td.modify p.1 fun c => pushDecoded c v)) td

/-- The row loop of `mergeResult`; a result of length 0 is skipped. -/
def mergeRows (tableColumn : List String) (result : BlockResult) (td : ColMap) :
    Option ColMap :=
  if result.length ≠ 0 then
    (List.range result.rowCount).foldlM (mergeRow tableColumn result) td
  else some td

/-! ## Decoding apart from storing

The values of a block do not depend on the table they go to: `decodeRows`
reads them, `pushRow` stores them, and `mergeRows` is one after the other. -/

/-- The values of row `i` in `colCount` columns. -/
def decodeRow (colCount : Nat) (result : BlockResult) (i : Nat) :
    Option (List (Option Value)) := do
  let rowData ← result.rowData i
  let offsets ← result.colOffsetList rowData colCount
  (List.range colCount).mapM (result.columnValue rowData offsets)

/-- The values of all rows of a block. -/
def decodeRows (colCount : Nat) (result : BlockResult) :
    Option (List (List (Option Value))) :=
  if result.length ≠ 0 then
    (List.range result.rowCount).mapM (decodeRow colCount result)
  else some []

/-- Store one row of decoded values. -/
def pushRow (names : List String) (td : ColMap) (vals : List (Option Value)) : ColMap :=
  (names.zip vals).foldl (fun td p => td.modify p.1 fun c => pushDecoded c p.2) td

theorem mergeRow_eq (names : List String) (result : BlockResult) (td : ColMap)
    (i : Nat) :
    mergeRow names result td i =
      (decodeRow names.length result i).map (pushRow names td) := by
  unfold mergeRow decodeRow
  cases hrow : result.rowData i with
  | none => rfl
  | some rowData =>
    simp only [Option.bind_eq_bind, Option.bind_some]
    cases hoff : result.colOffsetList rowData names.length with
    | none => rfl
    | some offsets =>
      simp only [Option.bind_some]
      have hloop := Loops.foldlM_read_then_write
        (fun p : String × Nat => result.columnValue rowData offsets p.2)
        (fun (td : ColMap) p v => td.modify p.1 fun c => pushDecoded c v)
        names.zipIdx td
      simp only [Option.map_eq_bind] at hloop
      have hread : names.zipIdx.mapM
            (fun p : String × Nat => result.columnValue rowData offsets p.2)
          = (List.range names.length).mapM (result.columnValue rowData offsets) := by
        have hsnd : names.zipIdx.map Prod.snd = List.range names.length := by
          rw [List.zipIdx_map_snd, List.range_eq_range']
        rw [← hsnd, List.mapM_map]
        rfl
      rw [← hread]
      refine hloop.trans ?_
      cases hvals : names.zipIdx.mapM
          (fun p : String × Nat => result.columnValue rowData offsets p.2) with
      | none => rfl
      | some vals =>
        have hlen : vals.length = names.length := by
          simpa using Loops.length_of_mapM hvals
        have hzip : names.zip vals =
            (names.zipIdx.zip vals).map fun q => (q.1.1, q.2) := by
          apply List.ext_getElem
          · simp
          · intro j h1 h2
            simp
        simp [pushRow, hzip, List.foldl_map]

/-- `mergeResult`'s row loop decodes the block and stores the rows in order. -/
theorem mergeRows_eq (names : List String) (result : BlockResult) (td : ColMap) :
    mergeRows names result td =
      (decodeRows names.length result).map (List.foldl (pushRow names) td) := by
  unfold mergeRows decodeRows
  split
  · have hloop := Loops.foldlM_read_then_write (decodeRow names.length result)
      (fun td _ vals => pushRow names td vals) (List.range result.rowCount) td
    have hstep : mergeRow names result =
        fun td i => (decodeRow names.length result i).map (pushRow names td) := by
      funext td i
      exact mergeRow_eq names result td i
    rw [hstep, hloop]
    cases hrows : (List.range result.rowCount).mapM (decodeRow names.length result) with
    | none => rfl
    | some rows =>
      have hlen := Loops.length_of_mapM hrows
      have hsnd : ((List.range result.rowCount).zip rows).map Prod.snd = rows :=
        List.map_snd_zip (by simp [hlen])
      simp only [Option.map_some, Option.some.injEq]
      conv_rhs => rw [← hsnd, List.foldl_map]
  · rfl

/-! ## Storing decoded rows -/

theorem pushDecoded_some (c : ColData) (v : Value) :
    pushDecoded c (some v) = c.appendValues [v] :=
  (c.appendValues_singleton v).symm

theorem get_pushRow_notMem (names : List String) (td : ColMap)
    (vals : List (Option Value)) {other : String} (h : other ∉ names) :
    (pushRow names td vals).get other = td.get other := by
  apply ColMap.get_foldl_modify_notMem (fun v c => pushDecoded c v)
  intro hmem
  obtain ⟨p, hp, rfl⟩ := List.mem_map.mp hmem
  exact h (List.of_mem_zip hp).1

/-- One stored row extends every column by its own value. -/
theorem get_pushRow (names : List String) (td : ColMap) (vals : List Value)
    (hnodup : names.Nodup) (hlen : vals.length = names.length) {j : Nat}
    {name : String} (hname : names[j]? = some name) :
    (pushRow names td (vals.map some)).get name =
      (td.get name).appendValues (vals[j]?.toList) := by
  obtain ⟨hj, rfl⟩ := List.getElem?_eq_some_iff.mp hname
  have hjv : j < vals.length := hlen.symm ▸ hj
  have hfst : (names.zip (vals.map some)).map Prod.fst = names :=
    List.map_fst_zip (by simp [hlen])
  have hmem : (names[j], some vals[j]) ∈ names.zip (vals.map some) := by
    refine List.mem_iff_getElem.mpr ⟨j, by simp [hlen, hj], by simp⟩
  unfold pushRow
  rw [ColMap.get_foldl_modify (fun v c => pushDecoded c v) _ td (by rwa [hfst]) hmem,
    pushDecoded_some, List.getElem?_eq_getElem hjv]
  rfl

/-- The column of the values at position `j` of the rows. -/
def columnOf (rows : List (List Value)) (j : Nat) : List Value :=
  rows.filterMap (·[j]?)

theorem columnOf_getElem? {rows : List (List Value)} {j : Nat}
    (h : ∀ row ∈ rows, j < row.length) (i : Nat) :
    (columnOf rows j)[i]? = rows[i]?.bind (·[j]?) := by
  induction rows generalizing i with
  | nil => rfl
  | cons row rows ih =>
    obtain ⟨v, hrow⟩ : ∃ v, row[j]? = some v :=
      ⟨_, List.getElem?_eq_getElem (h row (by simp))⟩
    have hcons : columnOf (row :: rows) j = v :: columnOf rows j :=
      List.filterMap_cons_some hrow
    rw [hcons]
    cases i with
    | zero => simp [hrow]
    | succ i => simpa using ih (fun r hr => h r (by simp [hr])) i

theorem length_columnOf {rows : List (List Value)} {j : Nat}
    (h : ∀ row ∈ rows, j < row.length) : (columnOf rows j).length = rows.length := by
  rw [columnOf, List.filterMap_length_eq_length]
  intro row hrow
  simp [h row hrow]

/-- Storing rows appends to every column its values, in row order. -/
theorem get_foldl_pushRow (names : List String) (td : ColMap)
    (rows : List (List Value)) (hnodup : names.Nodup)
    (hlen : ∀ row ∈ rows, row.length = names.length) {j : Nat} {name : String}
    (hname : names[j]? = some name) :
    ((rows.map (List.map some)).foldl (pushRow names) td).get name =
      (td.get name).appendValues (columnOf rows j) := by
  induction rows generalizing td with
  | nil => simp [columnOf]
  | cons row rows ih =>
    have hrow := hlen row (by simp)
    rw [List.map_cons, List.foldl_cons, ih _ fun r hr => hlen r (by simp [hr]),
      get_pushRow names td row hnodup hrow hname, ← ColData.appendValues_append]
    congr 1
    have hj : j < row.length := hrow ▸ (List.getElem?_eq_some_iff.mp hname).1
    simp [columnOf, List.getElem?_eq_getElem hj]

theorem get_foldl_pushRow_notMem (names : List String) (td : ColMap)
    (rows : List (List (Option Value))) {other : String} (h : other ∉ names) :
    (rows.foldl (pushRow names) td).get other = td.get other := by
  induction rows generalizing td with
  | nil => rfl
  | cons row rows ih => rw [List.foldl_cons, ih, get_pushRow_notMem names td row h]

/-- Storing rows adds no column where all columns are there. -/
theorem mem_foldl_pushRow (names : List String) (td : ColMap)
    (rows : List (List (Option Value))) (hnames : ∀ name ∈ names, name ∈ td) {other : String} :
    other ∈ rows.foldl (pushRow names) td ↔ other ∈ td := by
  have hstep : ∀ (td : ColMap) (vals : List (Option Value)), (∀ name ∈ names, name ∈ td) →
      ∀ other, other ∈ pushRow names td vals ↔ other ∈ td := by
    intro td vals htd other
    unfold pushRow
    rw [ColMap.mem_foldl_modify (fun v c => pushDecoded c v)]
    refine ⟨fun h => h.elim (fun hmem => ?_) id, .inr⟩
    obtain ⟨p, hp, rfl⟩ := List.mem_map.mp hmem
    exact htd _ (List.of_mem_zip hp).1
  induction rows generalizing td with
  | nil => rfl
  | cons row rows ih =>
    have hkeep := ih (pushRow names td row) fun name hname =>
      (hstep td row hnames name).mpr (hnames name hname)
    exact hkeep.trans (hstep td row hnames other)

end KetiEngine.Merging
