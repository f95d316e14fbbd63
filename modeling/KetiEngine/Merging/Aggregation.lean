import KetiEngine.Merging.Projection
import KetiEngine.Lib.Loops
import KetiEngine.Lib.Reorder
import Mathlib.Data.List.Dedup

/-!
# Aggregation — the result columns of a projection list

`Aggregation`: one result column for each projection, appended to the column
of its alias. The accumulators of `SUM`, `AVG`, `MIN` and `MAX` carry the
type tag of one row. A sum of integers is an `int64_t` and wraps around; the
rows of a table number no more than an `int` holds. A `float` that the source
leaves uninitialised is `none`.
-/

namespace KetiEngine.Merging

open KetiEngine
open Reorder (pick)

/-! ## The accumulators -/

/-- `push_back(value); isnull.push_back(false); row_count++`, by the type. -/
def pushT (c : ColData) (t : T) : ColData :=
  match t.type with
  | .string => (c.pushValue (.string t.varString)).pushNull false
  | .int | .date => (c.pushValue (.int t.varInt)).pushNull false
  | .float => (c.pushValue (.float t.varFloat)).pushNull false
  | .empty | .boolean => c

/-- A column of rows: the type and the decimals are those of the last. -/
def rowsColumn (ts : List T) : ColData :=
  let t := ts.getLast?.getD {}
  { ts.foldl pushT {} with type := t.type, realSize := max 0 t.realSize }

/-- One row of `SUM` and of `AVG`, which leaves `real_size` unused. -/
def sumRow (t t_ : T) : T :=
  match t_.type with
  | .int => { t with varInt := toInt64 (t.varInt + t_.varInt) }
  | .float => {
      t with
      varFloat := t.varFloat.add t_.varFloat
      realSize := max t.realSize t_.realSize }
  | _ => t

/-- `SUM`: the type is that of the last row. -/
def sumColumn (ts : List T) : ColData :=
  let t := ts.foldl sumRow {}
  match (ts.getLast?.getD {}).type with
  | .int => { intvec := [t.varInt], isnull := [false], rowCount := 1, type := .int }
  | .float => {
      floatvec := [t.varFloat]
      isnull := [false]
      rowCount := 1
      type := .float
      realSize := max 0 t.realSize }
  | _ => {}

/-- The average by the type of the last row. -/
def average (targetRowCount : Int) (t : T) : VectorType → Option Double
  | .int => some (Double.ofInt (t.varInt.tdiv targetRowCount)).toFloat
  | .float => some (t.varFloat.div (.ofInt targetRowCount)).toFloat
  | _ => none

def avgColumn (targetRowCount : Int) (ts : List T) : Option ColData :=
  (average targetRowCount (ts.foldl sumRow {}) (ts.getLast?.getD {}).type).map fun avg =>
    { floatvec := [avg], isnull := [false], rowCount := 1, type := .float, realSize := 6 }

/-- The column of a count. -/
def countColumn (count : Int) : ColData :=
  { intvec := [count], isnull := [false], rowCount := 1, type := .int }

/-- The size of a `std::set` of the column's values. A NaN in a
`set<float>` is undefined behaviour. -/
def distinctRowCount (c : ColData) : Option Int :=
  match c.type with
  | .int => some (c.intvec.map toInt32).dedup.length
  | .float =>
      if .nan ∈ c.floatvec then none else some (c.floatvec.map Double.toFloat).dedup.length
  | .string => some c.strvec.dedup.length
  | _ => some 0

/-- One row of `MIN` and of `MAX`, by the type of the accumulator. -/
def pickRow (onInt : Int → Int → Bool) (onFloat : Double → Double → Bool)
    (onString : String → String → Bool) (t t_ : T) : T :=
  match t.type with
  | .int => { t with varInt := pick onInt t.varInt t_.varInt }
  | .float => { t with varFloat := pick onFloat t.varFloat t_.varFloat }
  | .string => { t with varString := pick onString t.varString t_.varString }
  | _ => t

def minRow : T → T → T :=
  pickRow (fun a b => a < b) (fun a b => a.blt b) fun a b => a < b

def maxRow : T → T → T :=
  pickRow (fun a b => a > b) (fun a b => b.blt a) fun a b => a > b

/-- The end of `MIN` and of `MAX`: the value by the type of the accumulator,
the type `type`. -/
def pickColumn (t : T) (type : VectorType) : ColData :=
  match t.type with
  | .int => { intvec := [t.varInt], isnull := [false], rowCount := 1, type }
  | .float => {
      floatvec := [t.varFloat]
      isnull := [false]
      rowCount := 1
      type
      realSize := max 0 t.realSize }
  | .string => { strvec := [t.varString], isnull := [false], rowCount := 1, type }
  | _ => { type }

/-- `MIN`: the type is that of the first row. -/
def minColumn (first : T) (rest : List T) : ColData :=
  let t := rest.foldl minRow first
  pickColumn t t.type

/-- `MAX` starts from the value of the first row. -/
def maxStart (first : T) : T :=
  match first.type with
  | .int => { varInt := first.varInt, type := .int }
  | .float => { varFloat := first.varFloat, type := .float }
  | _ => {}

/-- `MAX`: the value has the type of the first row, the column that of the
last. -/
def maxColumn (first : T) (rest : List T) : ColData :=
  pickColumn (rest.foldl maxRow (maxStart first)) (rest.getLast?.getD first).type

/-! ## `Aggregation` -/

/-- `Projection` on the rows from `start` on. -/
def projectRows (t : TableData) (p : Projection) (start : Nat) : Option (List T) :=
  (List.range' start (t.rowCount.toNat - start)).mapM (projection t.tableData p)

/-- `value_size() == 1 && value_type(0) == COLUMN`. -/
def isBareColumn (p : Projection) : Option Bool :=
  if p.value.length = 1 then p.valueType[0]?.map fun type => type = .column else some false

/-- `colData` of a projection. -/
def projectionColumn (isGroupby : Bool) (t : TableData) (p : Projection) : Option ColData :=
  match p.selectType with
  | .columnName =>
      if isGroupby then
        (projection t.tableData p 0).map fun t =>
          { pushT {} t with type := t.type, realSize := max 0 t.realSize }
      else do
        let bare ← isBareColumn p
        if bare then p.value[0]?.map t.tableData.get else (projectRows t p 0).map rowsColumn
  | .sum => (projectRows t p 0).map sumColumn
  | .avg => projectRows t p 0 >>= avgColumn t.rowCount
  | .count => p.value[0]?.map fun col => countColumn ((t.tableData.get col).isnull.count false)
  | .countStar => some (countColumn t.rowCount)
  | .countDistinct => do
      let col ← p.value[0]?
      let count ← distinctRowCount (t.tableData.get col)
      pure (countColumn count)
  | .top => some {}
  | .min => do
      let first ← projection t.tableData p 0
      let rest ← projectRows t p 1
      pure (minColumn first rest)
  | .max => do
      let first ← projection t.tableData p 0
      let rest ← projectRows t p 1
      pure (maxColumn first rest)

/-- `dest.table_data[alias[p]]` after `colData` has been appended. -/
def appendColumn (colData dest : ColData) : ColData :=
  let dest := match colData.type with
    | .int | .date => { dest with intvec := dest.intvec ++ colData.intvec }
    | .float => {
        dest with
        floatvec := dest.floatvec ++ colData.floatvec
        realSize := colData.realSize }
    | .string => { dest with strvec := dest.strvec ++ colData.strvec }
    | .empty | .boolean => dest
  { dest with
    isnull := dest.isnull ++ colData.isnull
    rowCount := dest.rowCount + colData.rowCount
    type := colData.type }

theorem type_appendColumn (c d : ColData) : (appendColumn c d).type = c.type := by
  unfold appendColumn
  cases c.type <;> rfl

theorem isnull_appendColumn (c d : ColData) :
    (appendColumn c d).isnull = d.isnull ++ c.isnull := by
  unfold appendColumn
  cases c.type <;> rfl

theorem rowCount_appendColumn (c d : ColData) :
    (appendColumn c d).rowCount = d.rowCount + c.rowCount := by
  unfold appendColumn
  cases c.type <;> rfl

/-- Only the vector the type names is appended. -/
theorem vectors_appendColumn (c d : ColData) :
    (appendColumn c d).strvec = d.strvec ++ (if c.type = .string then c.strvec else []) ∧
    (appendColumn c d).intvec =
      d.intvec ++ (if c.type = .int ∨ c.type = .date then c.intvec else []) ∧
    (appendColumn c d).floatvec = d.floatvec ++ (if c.type = .float then c.floatvec else []) := by
  unfold appendColumn
  cases c.type <;> simp

/-- A projection's column and the alias it goes to. -/
def resultColumn (isGroupby : Bool) (t : TableData) (columnAlias : List String)
    (e : Projection × Nat) : Option (String × ColData) := do
  let colData ← projectionColumn isGroupby t e.1
  let name ← columnAlias[e.2]?
  pure (name, colData)

/-- The end of a round: the column is appended, and the first row count that
is not zero is kept. -/
def appendResult (r : ColMap × Int) (e : String × ColData) : ColMap × Int :=
  (r.1.modify e.1 (appendColumn e.2), if r.2 = 0 then e.2.rowCount else r.2)

def aggregation (isGroupby : Bool) (t : TableData) (projections : List Projection)
    (columnAlias : List String) (dest : TableData) : Option TableData :=
  if t.rowCount = 0 then
    some { dest with
      tableData := columnAlias.foldl (fun m name => m.insertNew name {}) dest.tableData
      rowCount := 0 }
  else do
    let (tableData, resultRowNum) ← projections.zipIdx.foldlM
      (fun r e => (resultColumn isGroupby t columnAlias e).map (appendResult r)) (dest.tableData, 0)
    pure { dest with tableData, rowCount := dest.rowCount + resultRowNum }

/-! ## Totals -/

/-- The sum of the INT values. -/
def intTotal (ts : List T) : Int := ((ts.filter fun t => t.type = .int).map T.varInt).sum

/-- The sum of the FLOAT values. -/
def floatTotal (ts : List T) : Double := ((ts.filter fun t => t.type = .float).map T.varFloat).sum

/-- The accumulator of `SUM` holds both totals, the one of the INT values as
an `int64_t`. -/
theorem foldl_sumRow (ts : List T) {t : T} (ht : FitsInt64 t.varInt) :
    (ts.foldl sumRow t).varInt = toInt64 (t.varInt + intTotal ts) ∧
      (ts.foldl sumRow t).varFloat = t.varFloat + floatTotal ts := by
  induction ts generalizing t with
  | nil => simp [intTotal, floatTotal, ht.toInt64_eq]
  | cons u ts ih =>
    have hfits : FitsInt64 (sumRow t u).varInt := by
      unfold sumRow
      cases u.type <;> first | exact ht | exact fitsInt64_toInt64 _
    obtain ⟨hint, hfloat⟩ := ih hfits
    rw [List.foldl_cons, hint, hfloat]
    cases hu : u.type <;>
      simp [sumRow, hu, intTotal, floatTotal, ← Double.add_def, add_assoc]

theorem foldl_sumRow_varInt (ts : List T) : (ts.foldl sumRow {}).varInt = toInt64 (intTotal ts) := by
  rw [(foldl_sumRow ts (by decide)).1]
  exact congrArg toInt64 (zero_add _)

theorem foldl_sumRow_varFloat (ts : List T) : (ts.foldl sumRow {}).varFloat = floatTotal ts :=
  (foldl_sumRow ts (by decide)).2.trans (zero_add _)

theorem intTotal_of_int {ts : List T} (h : ∀ t ∈ ts, t.type = .int) :
    intTotal ts = (ts.map T.varInt).sum := by
  have hall : ts.filter (fun t => t.type = .int) = ts :=
    List.filter_eq_self.mpr fun t ht => by simpa using h t ht
  rw [intTotal, hall]

/-- `SUM` of rows that are all INT. -/
theorem sumColumn_of_int {ts : List T} (hne : ts ≠ []) (h : ∀ t ∈ ts, t.type = .int) :
    sumColumn ts = countColumn (toInt64 (ts.map T.varInt).sum) := by
  have hlast : (ts.getLast?.getD {}).type = .int := by
    rw [List.getLast?_eq_some_getLast hne, Option.getD_some]
    exact h _ (List.getLast_mem hne)
  have htotal : (ts.foldl sumRow {}).varInt = toInt64 (ts.map T.varInt).sum := by
    rw [foldl_sumRow_varInt, intTotal_of_int h]
  unfold sumColumn
  simp only [hlast, htotal]
  rfl

/-! ## What the loop leaves -/

/-- The projection of a table whose rows have the values of other rows. -/
theorem projectRows_of_rows {t : TableData} {p : Projection} {rows : List Nat} {value : Nat → T}
    (hcount : t.rowCount = rows.length)
    (h : ∀ k r : Nat, rows[k]? = some r → projection t.tableData p k = some (value r)) :
    projectRows t p 0 = some (rows.map value) := by
  unfold projectRows
  rw [hcount, Loops.mapM_eq_some_iff, List.forall₂_iff_get]
  refine ⟨by simp, fun k hk hk' => ?_⟩
  have hk : k < rows.length := by simpa using hk'
  simpa using h k rows[k] (List.getElem?_eq_getElem hk)

/-- `result_row_num`: the first row count that is not zero. -/
def resultRowNum (columns : List ColData) : Int :=
  columns.foldl (fun n c => if n = 0 then c.rowCount else n) 0

theorem resultRowNum_of_forall {columns : List ColData} {k : Int} (hk : k ≠ 0)
    (h : ∀ c ∈ columns, c.rowCount = k) :
    resultRowNum columns = if columns = [] then 0 else k := by
  have hkept : ∀ cs : List ColData,
      cs.foldl (fun n c => if n = 0 then c.rowCount else n) k = k := by
    intro cs
    induction cs with
    | nil => rfl
    | cons c cs ih => rw [List.foldl_cons, if_neg hk, ih]
  cases columns with
  | nil => rfl
  | cons c columns =>
    have hc := h c (by simp)
    simp [resultRowNum, hc, hkept]

/-- The columns are computed first and appended afterwards. -/
theorem aggregation_eq {isGroupby : Bool} {t : TableData} {projections : List Projection}
    {columnAlias : List String} {columns : List ColData} (hrows : t.rowCount ≠ 0)
    (hcolumns : projections.mapM (projectionColumn isGroupby t) = some columns)
    (halias : projections.length ≤ columnAlias.length) (dest : TableData) :
    aggregation isGroupby t projections columnAlias dest = some { dest with
      tableData := (columnAlias.zip columns).foldl
        (fun m e => m.modify e.1 (appendColumn e.2)) dest.tableData
      rowCount := dest.rowCount + resultRowNum columns } := by
  have hlength := Loops.length_of_mapM hcolumns
  have hread : projections.zipIdx.mapM (resultColumn isGroupby t columnAlias) =
      some (columnAlias.zip columns) := by
    rw [Loops.mapM_eq_some_iff, List.forall₂_iff_get]
    refine ⟨by simp; omega, fun i hi hi' => ?_⟩
    have hp : i < projections.length := by simpa using hi
    have hone := Loops.getElem?_of_mapM hcolumns (List.getElem?_eq_getElem hp)
    rw [List.getElem?_eq_getElem (show i < columns.length by omega)] at hone
    simp [resultColumn, hone, List.getElem?_eq_getElem (show i < columnAlias.length by omega)]
  -- the two halves of the loop's state are two loops
  have hsplit : ∀ (es : List (String × ColData)) (m : ColMap) (k : Int),
      es.foldl appendResult (m, k) =
        (es.foldl (fun m e => m.modify e.1 (appendColumn e.2)) m,
          (es.map Prod.snd).foldl (fun n c => if n = 0 then c.rowCount else n) k) := by
    intro es
    induction es with
    | nil => intro m k; rfl
    | cons e es ih => intro m k; exact ih _ _
  have hloop := Loops.foldlM_read_then_write (resultColumn isGroupby t columnAlias)
    (fun r _ e => appendResult r e) projections.zipIdx (dest.tableData, 0)
  rw [hread, Option.map_some] at hloop
  have hsnd : ∀ (l : List (Projection × Nat)) (es : List (String × ColData)) (r : ColMap × Int),
      l.length = es.length →
      (l.zip es).foldl (fun r e => appendResult r e.2) r = es.foldl appendResult r := by
    intro l es r he
    rw [← List.foldl_map (f := Prod.snd), List.map_snd_zip (by omega)]
  unfold aggregation
  rw [if_neg hrows, hloop, hsnd _ _ _ (by simp; omega), hsplit,
    List.map_snd_zip (by omega)]
  rfl

/-- A list of projections with a result has a column and an alias for each. -/
theorem columns_of_aggregation {isGroupby : Bool} {t : TableData} {projections : List Projection}
    {columnAlias : List String} {dest d : TableData} (hrows : t.rowCount ≠ 0)
    (h : aggregation isGroupby t projections columnAlias dest = some d) :
    ∃ columns, projections.mapM (projectionColumn isGroupby t) = some columns ∧
      projections.length ≤ columnAlias.length := by
  unfold aggregation at h
  rw [if_neg hrows] at h
  obtain ⟨r, hloop, -⟩ := Option.bind_eq_some_iff.mp h
  have hsplit := Loops.foldlM_read_then_write (resultColumn isGroupby t columnAlias)
    (fun r _ e => appendResult r e) projections.zipIdx (dest.tableData, 0)
  rw [hloop] at hsplit
  obtain ⟨es, hes, -⟩ := Option.map_eq_some_iff.mp hsplit.symm
  have hone : ∀ (i : Nat) (p : Projection), projections[i]? = some p →
      ∃ c name, projectionColumn isGroupby t p = some c ∧ columnAlias[i]? = some name := by
    intro i p hpi
    have hi := (List.getElem?_eq_some_iff.mp hpi).1
    have hzip : projections.zipIdx[i]? = some (p, i) := by simp [hpi]
    have hread := Loops.getElem?_of_mapM hes hzip
    have hes' : i < es.length := by simpa [Loops.length_of_mapM hes] using hi
    rw [List.getElem?_eq_getElem hes'] at hread
    obtain ⟨c, hc, hread⟩ := Option.bind_eq_some_iff.mp hread
    obtain ⟨name, hname, -⟩ := Option.bind_eq_some_iff.mp hread
    exact ⟨c, name, hc, hname⟩
  refine ⟨projections.map fun p => (projectionColumn isGroupby t p).getD {},
    Loops.mapM_of_forall fun p hp => ?_, ?_⟩
  · obtain ⟨i, hi⟩ := List.mem_iff_getElem?.mp hp
    obtain ⟨c, name, hc, -⟩ := hone i p hi
    rw [hc, Option.getD_some]
  · by_contra hlt
    obtain ⟨c, name, -, hname⟩ := hone columnAlias.length _
      (List.getElem?_eq_getElem (by omega))
    rw [List.getElem?_eq_none (Nat.le_refl _)] at hname
    cases hname

theorem mem_appended {columnAlias : List String} {columns : List ColData}
    (halias : columns.length ≤ columnAlias.length) (m : ColMap) (name : String) :
    name ∈ (columnAlias.zip columns).foldl (fun m e => m.modify e.1 (appendColumn e.2)) m ↔
      (∃ i < columns.length, columnAlias[i]? = some name) ∨ name ∈ m := by
  rw [ColMap.mem_foldl_modify appendColumn, List.zip_eq_zip_take_min, List.map_fst_zip (by simp),
    Nat.min_eq_right halias, List.mem_take_iff_getElem]
  simp only [List.getElem?_eq_some_iff, lt_inf_iff]
  constructor
  · rintro (⟨i, ⟨hi, hi'⟩, h⟩ | h)
    · exact .inl ⟨i, hi, hi', h⟩
    · exact .inr h
  · rintro (⟨i, hi, hi', h⟩ | h)
    · exact .inl ⟨i, ⟨hi, hi'⟩, h⟩
    · exact .inr h

/-- A result column, when the aliases differ. -/
theorem get_appended {columnAlias : List String} {columns : List ColData}
    (hnodup : columnAlias.Nodup) (m : ColMap) {i : Nat} {name : String} {c : ColData}
    (hname : columnAlias[i]? = some name) (hc : columns[i]? = some c) :
    ((columnAlias.zip columns).foldl (fun m e => m.modify e.1 (appendColumn e.2)) m).get name =
      appendColumn c (m.get name) := by
  refine ColMap.get_foldl_modify appendColumn _ m ?_ ?_
  · rw [List.zip_eq_zip_take_min, List.map_fst_zip (by simp)]
    exact hnodup.sublist (List.take_sublist _ _)
  · exact List.mem_of_getElem? (i := i) (by simp [List.getElem?_zip_eq_some, hname, hc])

end KetiEngine.Merging
