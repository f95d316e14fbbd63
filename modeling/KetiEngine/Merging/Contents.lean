import KetiEngine.Merging.Buffer
import Mathlib.Data.List.ReduceOption

/-!
# Contents — what the critical sections do to a table

One lemma for each critical section of a work buffer: `push` gives a new
buffer its columns and queues the result, `merge` appends the decoded rows,
`save` copies a table, `read` copies the buffer out.
-/

namespace KetiEngine.Merging

open KetiEngine

/-! ## Decoded rows -/

/-- The vector type `save_table_column_type` gives a column. -/
def vectorType : MySQLDataType → VectorType
  | .byte | .int16 | .int32 | .int64 | .timestamp => .int
  | .float32 | .double | .newDecimal => .float
  | .date => .date
  | .string | .varString => .string

theorem typedColumn_type {code : Int} {t : MySQLDataType} (len : Int) (c : ColData)
    (h : MySQLDataType.ofCode? code = some t) :
    (typedColumn code len c).type = vectorType t := by
  unfold typedColumn
  rw [h]
  cases t <;> rfl

theorem typedColumn_default {code len : Int} : ∃ type realSize,
    typedColumn code len {} = { type, realSize } := by
  unfold typedColumn
  split <;> exact ⟨_, _, rfl⟩

/-- A known column decodes to a value of the column's kind. -/
theorem decodeColumn_accepts {rowData : List UInt8} {code off len : Int}
    {t : MySQLDataType} {o : Option Value} (ht : MySQLDataType.ofCode? code = some t)
    (h : decodeColumn rowData code off len = some o) :
    ∃ v, o = some v ∧ (vectorType t).Accepts v := by
  unfold decodeColumn at h
  rw [ht] at h
  cases t with
  | byte | int16 | int32 | int64 | timestamp =>
    obtain ⟨buf, -, h⟩ := Option.bind_eq_some_iff.mp h
    obtain ⟨n, -, h⟩ := Option.bind_eq_some_iff.mp h
    cases h
    exact ⟨_, rfl, trivial⟩
  | newDecimal =>
    obtain ⟨buf, -, h⟩ := Option.bind_eq_some_iff.mp h
    obtain ⟨x, -, h⟩ := Option.bind_eq_some_iff.mp h
    cases h
    exact ⟨_, rfl, trivial⟩
  | float32 | double | date =>
    obtain ⟨buf, -, h⟩ := Option.bind_eq_some_iff.mp h
    simp only [Option.ite_none_right_eq_some, Option.pure_def, Option.some.injEq] at h
    obtain ⟨-, rfl⟩ := h
    exact ⟨_, rfl, trivial⟩
  | string =>
    obtain ⟨buf, -, h⟩ := Option.bind_eq_some_iff.mp h
    cases h
    exact ⟨_, rfl, trivial⟩
  | varString =>
    simp only at h
    split at h
    all_goals
      obtain ⟨buf, -, h⟩ := Option.bind_eq_some_iff.mp h
      cases h
      exact ⟨_, rfl, trivial⟩

/-- The column types of a result are types the decoder has a branch for. -/
def KnownTypes (types : List Int) : Prop :=
  ∀ code ∈ types, (MySQLDataType.ofCode? code).isSome

/-- `v` is of the kind of the column type with code `code`. -/
def OfType (code : Int) (v : Value) : Prop :=
  ∃ t, MySQLDataType.ofCode? code = some t ∧ (vectorType t).Accepts v

/-- A row of values for `colCount` columns of these types. -/
structure RowOf (types : List Int) (colCount : Nat) (row : List Value) : Prop where
  length : row.length = colCount
  ofType : ∀ (j : Nat) (v : Value), row[j]? = some v → ∃ code, types[j]? = some code ∧
    OfType code v

private theorem reduceOption_map_some (vs : List Value) :
    (vs.map some).reduceOption = vs := by
  induction vs with
  | nil => rfl
  | cons v vs ih => rw [List.map_cons, List.reduceOption_cons_of_some, ih]

private theorem map_some_reduceOption {vals : List (Option Value)}
    (h : ∀ o ∈ vals, o.isSome) : vals.reduceOption.map some = vals := by
  induction vals with
  | nil => rfl
  | cons o vals ih =>
    obtain ⟨v, rfl⟩ := Option.isSome_iff_exists.mp (h o (by simp))
    rw [List.reduceOption_cons_of_some, List.map_cons, ih fun o ho => h o (by simp [ho])]

theorem decodeRow_known {colCount i : Nat} {r : BlockResult} {vals : List (Option Value)}
    (hknown : KnownTypes r.returnDatatype) (h : decodeRow colCount r i = some vals) :
    ∃ row, vals = row.map some ∧ RowOf r.returnDatatype colCount row := by
  unfold decodeRow at h
  obtain ⟨rowData, -, h⟩ := Option.bind_eq_some_iff.mp h
  obtain ⟨offsets, -, h⟩ := Option.bind_eq_some_iff.mp h
  have hlen : vals.length = colCount := by simpa using Loops.length_of_mapM h
  have hcell : ∀ (j : Nat) (o : Option Value), vals[j]? = some o → ∃ v code, o = some v ∧
      r.returnDatatype[j]? = some code ∧ OfType code v := by
    intro j o ho
    have hj : j < colCount := hlen ▸ (List.getElem?_eq_some_iff.mp ho).1
    have hread := (Loops.getElem?_of_mapM h (List.getElem?_range hj)).trans ho
    unfold BlockResult.columnValue at hread
    obtain ⟨off, -, hread⟩ := Option.bind_eq_some_iff.mp hread
    obtain ⟨next, -, hread⟩ := Option.bind_eq_some_iff.mp hread
    obtain ⟨code, hcode, hread⟩ := Option.bind_eq_some_iff.mp hread
    obtain ⟨t, ht⟩ := Option.isSome_iff_exists.mp (hknown code (List.mem_of_getElem? hcode))
    obtain ⟨v, hv, hacc⟩ := decodeColumn_accepts ht hread
    exact ⟨v, code, hv, hcode, t, ht, hacc⟩
  have hsome : vals.reduceOption.map some = vals := by
    apply map_some_reduceOption
    intro o ho
    obtain ⟨j, hj⟩ := List.getElem?_of_mem ho
    obtain ⟨v, -, rfl, -⟩ := hcell j o hj
    rfl
  refine ⟨vals.reduceOption, hsome.symm, ?_, ?_⟩
  · rw [← hlen, ← congrArg List.length hsome, List.length_map]
  · intro j v hv
    obtain ⟨v', code, hv', hcode, htype⟩ := hcell j (some v) (by rw [← hsome]; simp [hv])
    cases hv'
    exact ⟨code, hcode, htype⟩

/-- The decoded rows of a result, for a table of `colCount` columns. -/
def BlockResult.decoded (colCount : Nat) (r : BlockResult) : List (List Value) :=
  ((decodeRows colCount r).getD []).map List.reduceOption

/-- **A result of known types that decodes at all** decodes to full rows:
one value of the right kind for each column, and as many rows as it says
unless it has no bytes. -/
theorem decodeRows_known {colCount : Nat} {r : BlockResult}
    {vals : List (List (Option Value))} (hknown : KnownTypes r.returnDatatype)
    (h : decodeRows colCount r = some vals) :
    vals = (r.decoded colCount).map (List.map some) ∧
      (∀ row ∈ r.decoded colCount, RowOf r.returnDatatype colCount row) ∧
      (r.decoded colCount).length = if r.length ≠ 0 then r.rowCount else 0 := by
  have hrow : ∀ row ∈ vals, ∃ vs, row = vs.map some ∧ RowOf r.returnDatatype colCount vs := by
    intro row hmem
    unfold decodeRows at h
    split at h
    · obtain ⟨i, -, hi⟩ : ∃ i ∈ List.range r.rowCount, decodeRow colCount r i = some row := by
        obtain ⟨j, hj⟩ := List.getElem?_of_mem hmem
        have hlen : vals.length = r.rowCount := by simpa using Loops.length_of_mapM h
        have hj' : j < r.rowCount := hlen ▸ (List.getElem?_eq_some_iff.mp hj).1
        exact ⟨j, List.mem_range.mpr hj',
          (Loops.getElem?_of_mapM h (List.getElem?_range hj')).trans hj⟩
      exact decodeRow_known hknown hi
    · cases h
      simp at hmem
  have hdec : r.decoded colCount = vals.map List.reduceOption := by
    simp [BlockResult.decoded, h]
  refine ⟨?_, ?_, ?_⟩
  · rw [hdec, List.map_map]
    conv_lhs => rw [← List.map_id vals]
    apply List.map_congr_left
    intro row hmem
    obtain ⟨vs, rfl, -⟩ := hrow row hmem
    simp [reduceOption_map_some]
  · intro row hmem
    rw [hdec] at hmem
    obtain ⟨vals', hmem', rfl⟩ := List.mem_map.mp hmem
    obtain ⟨vs, rfl, hvs⟩ := hrow vals' hmem'
    rwa [reduceOption_map_some]
  · rw [hdec, List.length_map]
    unfold decodeRows at h
    split at h
    · rename_i hlen
      rw [Loops.length_of_mapM h, List.length_range, if_pos hlen]
    · rename_i hlen
      cases h
      rw [if_neg hlen]
      rfl

/-! ## The critical sections -/

namespace WorkBuffer

/-- The columns `names`, added to a buffer. -/
theorem foldl_addColumn (w : WorkBuffer) (names : List String) :
    ∃ td, names.foldl addColumn w =
        { w with tableColumn := w.tableColumn ++ names, tableData := td } ∧
      (∀ name, td.get name = w.tableData.get name) ∧
      ∀ name, name ∈ td ↔ name ∈ names ∨ name ∈ w.tableData := by
  induction names generalizing w with
  | nil => exact ⟨w.tableData, by simp⟩
  | cons first names ih =>
    obtain ⟨td, htd, hget, hmem⟩ := ih (w.addColumn first)
    refine ⟨td, ?_, ?_, ?_⟩
    · rw [List.foldl_cons, htd]
      simp [addColumn]
    · intro name
      rw [hget]
      exact ColMap.get_insertNew_default _ _ _
    · intro name
      rw [hmem]
      simp only [addColumn, ColMap.mem_insertNew, List.mem_cons]
      tauto

private theorem zip_fst {α β : Type} {l : List α} {l' : List β} (h : l'.length = l.length) :
    (l.zip l').map Prod.fst = l :=
  List.map_fst_zip (Nat.le_of_eq h.symm)

private def typeAt (types lens : List Int) (p : String × Nat) : Option (Int × Int) := do
  let colType ← types[p.2]?
  let colLen ← lens[p.2]?
  pure (colType, colLen)

/-- `save_table_column_type` as two loops: read all types, then store them. -/
theorem saveTableColumnType_eq {w w' : WorkBuffer} {types lens : List Int}
    (h : w.saveTableColumnType types lens = some w') :
    ∃ vals, w.tableColumn.zipIdx.mapM (typeAt types lens) = some vals ∧
      w' = { w with
        tableData := (w.tableColumn.zip vals).foldl
          (fun td p => td.modify p.1 (typedColumn p.2.1 p.2.2)) w.tableData } := by
  unfold saveTableColumnType at h
  obtain ⟨td, hloop, h⟩ := Option.bind_eq_some_iff.mp h
  cases h
  have hsplit := Loops.foldlM_read_then_write (typeAt types lens)
    (fun (td : ColMap) p (v : Int × Int) => td.modify p.1 (typedColumn v.1 v.2))
    w.tableColumn.zipIdx w.tableData
  have hbody : (fun (td : ColMap) (p : String × Nat) => (typeAt types lens p).map
        fun v => td.modify p.1 (typedColumn v.1 v.2)) =
      (fun td p => do
        let colType ← types[p.2]?
        let colLen ← lens[p.2]?
        pure (td.modify p.1 (typedColumn colType colLen))) := by
    funext td p
    unfold typeAt
    cases types[p.2]? with
    | none => rfl
    | some code => cases lens[p.2]? with
      | none => rfl
      | some len => rfl
  rw [hbody, hloop] at hsplit
  obtain ⟨vals, hvals, htd⟩ := Option.map_eq_some_iff.mp hsplit.symm
  have hlen : vals.length = w.tableColumn.length := by
    simpa using Loops.length_of_mapM hvals
  have hzip : w.tableColumn.zip vals =
      (w.tableColumn.zipIdx.zip vals).map fun q => (q.1.1, q.2) := by
    apply List.ext_getElem
    · simp
    · intro j h1 h2
      simp
  refine ⟨vals, hvals, ?_⟩
  rw [← htd, hzip, List.foldl_map]

/-- `save_table_column_type` sets the type of every column. -/
theorem saveTableColumnType_spec {w w' : WorkBuffer} {types lens : List Int}
    (hnodup : w.tableColumn.Nodup) (h : w.saveTableColumnType types lens = some w') :
    ∃ td, w' = { w with tableData := td } ∧
      (∀ name, name ∈ td ↔ name ∈ w.tableColumn ∨ name ∈ w.tableData) ∧
      (∀ name, name ∉ w.tableColumn → td.get name = w.tableData.get name) ∧
      ∀ (j : Nat) (name : String), w.tableColumn[j]? = some name →
        ∃ code len, types[j]? = some code ∧ lens[j]? = some len ∧
          td.get name = typedColumn code len (w.tableData.get name) := by
  obtain ⟨vals, hvals, rfl⟩ := saveTableColumnType_eq h
  have hlen : vals.length = w.tableColumn.length := by
    simpa using Loops.length_of_mapM hvals
  have hfst := zip_fst hlen
  refine ⟨_, rfl, ?_, ?_, ?_⟩
  · intro name
    rw [ColMap.mem_foldl_modify (fun v : Int × Int => typedColumn v.1 v.2), hfst]
  · intro name hname
    exact ColMap.get_foldl_modify_notMem
      (fun v : Int × Int => typedColumn v.1 v.2) _ _ (by rwa [hfst])
  · intro j name hname
    have hzip : w.tableColumn.zipIdx[j]? = some (name, j) := by simp [hname]
    obtain ⟨hj, rfl⟩ := List.getElem?_eq_some_iff.mp hname
    have hjv : j < vals.length := hlen.symm ▸ hj
    have hread := Loops.getElem?_of_mapM hvals hzip
    rw [List.getElem?_eq_getElem hjv] at hread
    obtain ⟨code, hcode, hread⟩ := Option.bind_eq_some_iff.mp hread
    obtain ⟨len, hlen', hread⟩ := Option.bind_eq_some_iff.mp hread
    simp only [Option.pure_def, Option.some.injEq] at hread
    refine ⟨code, len, hcode, hlen', ?_⟩
    -- a name comes once, so only its own pair writes its column
    have hin : (w.tableColumn[j], vals[j]) ∈ w.tableColumn.zip vals :=
      List.mem_iff_getElem.mpr ⟨j, by simp [hlen, hj], by simp⟩
    rw [ColMap.get_foldl_modify (fun v : Int × Int => typedColumn v.1 v.2) _ _
      (by rwa [hfst]) hin, ← hread]

/-- **The first `push`** gives the buffer the columns of its result. -/
theorem push_initialized {w w' : WorkBuffer} {r : BlockResult} {started : Bool}
    (hw : w = {}) (hnodup : r.columnAlias.Nodup) (h : w.push r = some (w', started)) :
    started = true ∧ ∃ td, w' =
        { workBufferQueue := [r], tableAlias := r.tableAlias, tableColumn := r.columnAlias,
          tableData := td, tableTotalBlockCount := r.tableTotalBlockCount,
          status := .notFinished } ∧
      (∀ name, name ∈ td ↔ name ∈ r.columnAlias) ∧
      ∀ (j : Nat) (name : String), r.columnAlias[j]? = some name →
        ∃ code len, r.returnDatatype[j]? = some code ∧ r.returnOfflen[j]? = some len ∧
          td.get name = typedColumn code len {} := by
  subst hw
  simp only [push, if_true] at h
  obtain ⟨w₁, hstart, h⟩ := Option.bind_eq_some_iff.mp h
  cases h
  unfold start at hstart
  obtain ⟨w₂, htypes, hstart⟩ := Option.bind_eq_some_iff.mp hstart
  cases hstart
  obtain ⟨td, hadd, hget, hmem⟩ :=
    foldl_addColumn { ({} : WorkBuffer) with tableAlias := r.tableAlias } r.columnAlias
  rw [hadd] at htypes
  obtain ⟨td', rfl, hmem', -, hcol⟩ := saveTableColumnType_spec (by simpa using hnodup) htypes
  refine ⟨rfl, td', by simp [enqueue], ?_, ?_⟩
  · intro name
    rw [hmem', hmem]
    simp
  · intro j name hname
    obtain ⟨code, len, hcode, hlen, hc⟩ := hcol j name (by simpa using hname)
    refine ⟨code, len, hcode, hlen, ?_⟩
    rw [hc, hget]
    rfl

/-- Every later `push` only queues its result. -/
theorem push_started {w w' : WorkBuffer} {r : BlockResult} {started : Bool}
    (hw : w.status ≠ .initialized) (h : w.push r = some (w', started)) :
    started = false ∧ w' = { w with workBufferQueue := w.workBufferQueue ++ [r] } := by
  unfold push at h
  rw [if_neg hw] at h
  cases h
  exact ⟨rfl, rfl⟩

/-- **`merge`** appends the rows of a result of known types, and finishes the
work when the last block has been merged. -/
theorem merge_spec {w w' : WorkBuffer} {r : BlockResult} {done : Bool}
    (hknown : KnownTypes r.returnDatatype) (h : w.merge r = some (w', done)) :
    (decodeRows w.tableColumn.length r).isSome ∧
    done = decide (w.mergedBlockCount + r.resultBlockCount = w.tableTotalBlockCount) ∧
    w' = { w with
      tableData := ((r.decoded w.tableColumn.length).map (List.map some)).foldl
        (pushRow w.tableColumn) w.tableData
      mergedBlockCount := w.mergedBlockCount + r.resultBlockCount
      rowCount := w.rowCount + r.rowCount
      status := if w.mergedBlockCount + r.resultBlockCount = w.tableTotalBlockCount
        then .workDone else w.status } := by
  unfold merge at h
  obtain ⟨td, hrows, h⟩ := Option.bind_eq_some_iff.mp h
  rw [mergeRows_eq] at hrows
  obtain ⟨vals, hvals, rfl⟩ := Option.map_eq_some_iff.mp hrows
  obtain ⟨hdecoded, -, -⟩ := decodeRows_known hknown hvals
  refine ⟨by simp [hvals], ?_⟩
  simp only at h
  split at h
  · rename_i hcount
    cases h
    simp [hcount, ← hdecoded]
  · rename_i hcount
    cases h
    simp [hcount, ← hdecoded]

end WorkBuffer

end KetiEngine.Merging
