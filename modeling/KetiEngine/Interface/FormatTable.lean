import KetiEngine.Merging.QueryResult
import KetiEngine.Merging.RowWise
import KetiEngine.Offloading.ReturnType

/-!
# FormatTable — the table a user sees

`formatTable` writes the message of `GetQueryResult` as text. A cell is
written by the type of its column, so a number in a DATE column is written as
a date; `EXTRACT` leaves its numbers in one.
-/

namespace KetiEngine.Interface

open KetiEngine Merging

/-! ## A cell -/

/-- `q` in units of `10⁻ᵈ`, halves rounded to the even neighbour. -/
def roundDigits (digits : Nat) (q : ℚ) : Nat :=
  let scaled : ℚ := q * 10 ^ digits
  let n : Nat := scaled.floor.toNat
  let rest : ℚ := scaled - n
  if rest < 1 / 2 then n
  else if 1 / 2 < rest then n + 1
  else if n % 2 = 0 then n else n + 1

/-- `std::fixed << std::setprecision(precision) << x`; a negative precision
means six digits. -/
def fixedText (precision : Int) : Double → String
  | .nan => "nan"
  | .inf s => if s then "-inf" else "inf"
  | .fin q =>
      let digits := if precision < 0 then 6 else precision.toNat
      let n := roundDigits digits (if q < 0 then -q else q)
      let frac := toString (n % 10 ^ digits)
      (if q < 0 then "-" else "") ++ toString (n / 10 ^ digits) ++
        (if digits = 0 then ""
        else "." ++ String.ofList (List.replicate (digits - frac.length) '0') ++ frac)

/-- `formattedMonth` and `formattedDay`. -/
def twoDigits (n : Int) : String := (if n < 10 then "0" else "") ++ toString n

/-- `date`: the year, the month and the day of a packed date. -/
def dateText (n : Int) : String :=
  toString (n.tdiv 512) ++ "-" ++ twoDigits ((n.tmod 512).tdiv 32) ++ "-" ++
    twoDigits ((n.tmod 512).tmod 32)

/-- `cell.str()` in row `i`; it is empty where the column has no entry. -/
def cellText (col : QueryResultColumn) (i : Nat) : String :=
  match col.colType with
  | .string => col.stringCol.getD i ""
  | .int => (col.intCol[i]?.map toString).getD ""
  | .float => (col.doubleCol[i]?.map (fixedText col.realSize)).getD ""
  | .date => (col.intCol[i]?.map dateText).getD ""
  | .empty => ""

/-! ## The table -/

/-- `max_col_width[col_name]`. -/
def maxColWidth (colName : String) (col : QueryResultColumn) : Nat :=
  match col.colType with
  | .string => (col.stringCol.map String.length).foldl max colName.length
  | .int => (col.intCol.map fun val => (toString val).length).foldl max colName.length
  | .float =>
      (col.doubleCol.map fun val => (fixedText col.realSize val).length).foldl max colName.length
  | .date => max colName.length 12
  | .empty => colName.length

/-- `std::setw(width) << std::left << s`. -/
def setwLeft (width : Nat) (s : String) : String :=
  s ++ String.ofList (List.replicate (width - s.length) ' ')

/-- A line of dashes. -/
def borderLine (columns : List ((_ : String) × QueryResultColumn)) : String :=
  "+" ++ String.join (columns.map fun e =>
    String.ofList (List.replicate (maxColWidth e.1 e.2 + 2) '-') ++ "+") ++ "\n"

/-- A line with a cell for each column. -/
def cellLine (columns : List ((_ : String) × QueryResultColumn))
    (cell : (_ : String) × QueryResultColumn → String) : String :=
  "|" ++ String.join (columns.map fun e =>
    " " ++ setwLeft (maxColWidth e.1 e.2) (cell e) ++ " |") ++ "\n"

/-- `formatTable`; the columns stand in the unspecified order of the map. -/
def formatTable (result : QueryResult) : String :=
  let columns := result.queryResult.entries
  borderLine columns ++ cellLine columns (fun e => e.1) ++ borderLine columns ++
    String.join ((List.range result.rowCount.toNat).map fun i =>
      cellLine columns fun e => cellText e.2 i) ++
    borderLine columns

/-- Row `i` of the table has the text `text` in the column `name`. -/
def Prints (result : QueryResult) (name : String) (i : Nat) (text : String) : Prop :=
  i < result.rowCount ∧ ∃ col, result.queryResult.lookup name = some col ∧ cellText col i = text

theorem infix_join {s : String} {l : List String} (h : s ∈ l) :
    s.toList <:+: (String.join l).toList := by
  obtain ⟨before, after, rfl⟩ := List.append_of_mem h
  refine ⟨(String.join before).toList, (String.join after).toList, ?_⟩
  rw [String.join_append, String.join_cons, String.toList_append, String.toList_append,
    List.append_assoc]

/-- What a row prints stands in the text of the table, padded to the width of
its column. -/
theorem infix_formatTable {result : QueryResult} {name : String} {i : Nat} {text : String}
    (h : Prints result name i text) : ∃ col, result.queryResult.lookup name = some col ∧
      (" " ++ setwLeft (maxColWidth name col) text ++ " |").toList <:+:
        (formatTable result).toList := by
  obtain ⟨hi, col, hcol, rfl⟩ := h
  have hmem : (⟨name, col⟩ : (_ : String) × QueryResultColumn) ∈ result.queryResult.entries :=
    AList.mem_lookup_iff.mp hcol
  have hcell := infix_join (List.mem_map_of_mem (f := fun e : (_ : String) × QueryResultColumn =>
    " " ++ setwLeft (maxColWidth e.1 e.2) (cellText e.2 i) ++ " |") hmem)
  have hline := infix_join (List.mem_map_of_mem
    (f := fun i => cellLine result.queryResult.entries fun e => cellText e.2 i)
    (List.mem_range.mpr (show i < result.rowCount.toNat by omega)))
  refine ⟨col, hcol, hcell.trans (List.IsInfix.trans ?_ (hline.trans ?_))⟩
  · rw [cellLine, String.toList_append, String.toList_append]
    exact List.infix_append _ _ _
  · simp only [formatTable, String.toList_append]
    exact List.infix_append _ _ _

/-! ## `EXTRACT` of a packed date -/

/-- A date as the engine packs it. -/
structure PackedDate where
  year : Nat
  month : Nat
  day : Nat
  month_lt : month < 16
  day_lt : day < 32

def PackedDate.packed (date : PackedDate) : Int :=
  date.year * 512 + date.month * 32 + date.day

/-- The fields `EXTRACT` knows. -/
inductive DateUnit where
  | year | month | day
  deriving DecidableEq, Repr

def DateUnit.word : DateUnit → String
  | .year => "YEAR"
  | .month => "MONTH"
  | .day => "DAY"

def DateUnit.field (date : PackedDate) : DateUnit → Nat
  | .year => date.year
  | .month => date.month
  | .day => date.day

theorem datePart_packed (unit : DateUnit) (date : PackedDate) :
    datePart unit.word date.packed = some (unit.field date : Int) := by
  have hmonth := date.month_lt
  have hday := date.day_lt
  have hmod : date.packed.tmod 512 = date.month * 32 + date.day := by
    rw [Int.tmod_eq_emod_of_nonneg (by simp only [PackedDate.packed]; omega)]
    simp only [PackedDate.packed]
    omega
  cases unit with
  | year =>
    have hdiv : date.packed.tdiv 512 = date.year := by
      rw [Int.tdiv_eq_ediv_of_nonneg (by simp only [PackedDate.packed]; omega)]
      simp only [PackedDate.packed]
      omega
    simp [datePart, DateUnit.word, DateUnit.field, hdiv]
  | month =>
    have hdiv : ((date.month : Int) * 32 + date.day).tdiv 32 = date.month := by
      rw [Int.tdiv_eq_ediv_of_nonneg (by omega)]
      omega
    simp [datePart, DateUnit.word, DateUnit.field, hmod, hdiv]
  | day =>
    have hrest : ((date.month : Int) * 32 + date.day).tmod 32 = date.day := by
      rw [Int.tmod_eq_emod_of_nonneg (by omega)]
      omega
    simp [datePart, DateUnit.word, DateUnit.field, hmod, hrest]

/-- `EXTRACT(unit FROM col)`. -/
structure IsExtract (p : Projection) (unit : DateUnit) (col : String) : Prop where
  select : p.selectType = .columnName
  value : p.value = ["EXTRACT", unit.word, col]
  type : p.valueType[2]? = some .column

section
variable {p : Projection} {unit : DateUnit} {col : String} (hp : IsExtract p unit col)
include hp

theorem projection_extract_type {t : ColMap} {r : Nat} {x : T} (h : projection t p r = some x) :
    x.type = .date := by
  simp only [projection, projectionValue, hp.value] at h
  exact extractValue_type (by simpa using h)

theorem projection_extract {t : ColMap} {r : Nat} {date : PackedDate}
    (hdate : (t.get col).intvec[r]? = some date.packed) (hfits : date.packed < 2 ^ 31) :
    projection t p r = some { varInt := unit.field date, type := .date } := by
  have hsame : toInt32 date.packed = date.packed :=
    (toInt32_eq_self_iff _).mpr ⟨by simp only [PackedDate.packed]; omega, hfits⟩
  simp only [projection, projectionValue, hp.value]
  simp [extractValue, hp.value, hp.type, rowEnv, hdate, hsame, datePart_packed]

/-- The column of an `EXTRACT` is a DATE column of its values. -/
theorem projectionColumn_extract {t : TableData} (hrows : 0 < t.rowCount) {c : ColData}
    (h : projectionColumn false t p = some c) :
    c.type = .date ∧ ∀ r : Nat, r < t.rowCount → ∃ x, projection t.tableData p r = some x ∧
      c.intvec[r]? = some x.varInt := by
  have hbare : isBareColumn p = some false := by simp [isBareColumn, hp.value]
  simp only [projectionColumn, hp.select, hbare] at h
  obtain ⟨ts, hts, rfl⟩ := Option.map_eq_some_iff.mp (by simpa using h)
  have hlen : ts.length = t.rowCount.toNat := by simpa using Loops.length_of_mapM hts
  have hread : ∀ r : Nat, r < ts.length → projection t.tableData p r = ts[r]? := by
    intro r hr
    have hrange : (List.range' 0 (t.rowCount.toNat - 0))[r]? = some r := by
      rw [List.getElem?_range' (by omega), Nat.zero_add, Nat.one_mul]
    exact Loops.getElem?_of_mapM hts hrange
  have htype : ∀ x ∈ ts, x.type = .date := by
    intro x hx
    obtain ⟨r, hx⟩ := List.getElem?_of_mem hx
    have hr := (List.getElem?_eq_some_iff.mp hx).1
    exact projection_extract_type hp ((hread r hr).trans hx)
  have hints : (ts.filterMap T.value?).filterMap Value.int? = ts.map T.varInt := by
    rw [List.filterMap_filterMap, ← List.filterMap_eq_map]
    refine List.filterMap_congr fun x hx => ?_
    simp [T.value?, htype x hx, Value.int?]
  have hne : ts ≠ [] := List.ne_nil_of_length_pos (by omega)
  refine ⟨?_, fun r hr => ?_⟩
  · simpa [rowsColumn, List.getLast?_eq_some_getLast hne] using htype _ (List.getLast_mem hne)
  · have hr' : r < ts.length := by omega
    refine ⟨ts[r], ?_, ?_⟩
    · rw [hread r hr', List.getElem?_eq_getElem hr']
    · rw [rowsColumn, foldl_pushT]
      simp [ColData.appendValues, hints, hr']

end

/-- The result column of an `EXTRACT` whose alias no other projection has. -/
theorem resultColumn_extract {t d : TableData} (hrows : 0 < t.rowCount)
    {projections : List Projection} {columnAlias : List String} {k : Nat} {p : Projection}
    {unit : DateUnit} {col name : String} (hk : projections[k]? = some p)
    (hp : IsExtract p unit col) (hname : columnAlias[k]? = some name) (hnodup : columnAlias.Nodup)
    (h : aggregation false t projections columnAlias {} = some d) :
    name ∈ d.tableData ∧ (d.tableData.get name).type = .date ∧
      ∀ r : Nat, r < t.rowCount → ∃ x, projection t.tableData p r = some x ∧
        (d.tableData.get name).intvec[r]? = some x.varInt := by
  obtain ⟨columns, hcolumns, hlength⟩ := columns_of_aggregation hrows.ne' h
  rw [aggregation_eq hrows.ne' hcolumns hlength, Option.some.injEq] at h
  subst h
  have hcount := Loops.length_of_mapM hcolumns
  have hk' := (List.getElem?_eq_some_iff.mp hk).1
  have hc : columns[k]? = some columns[k] := List.getElem?_eq_getElem (by omega)
  have hcolumn := (Loops.getElem?_of_mapM hcolumns hk).trans hc
  obtain ⟨htype, hvalues⟩ := projectionColumn_extract hp hrows hcolumn
  have hget := get_appended hnodup ({} : TableData).tableData hname hc
  refine ⟨(mem_appended (by omega) _ _).mpr (.inl ⟨k, by omega, hname⟩), ?_, fun r hr => ?_⟩
  · rw [hget, type_appendColumn, htype]
  · obtain ⟨x, hx, hint⟩ := hvalues r hr
    refine ⟨x, hx, ?_⟩
    rw [hget, (vectors_appendColumn _ _).2.1, htype]
    simpa [ColMap.get] using hint

/-! ## What the user sees of it -/

/-- A cell of a DATE column is no decimal number: it is empty or has dashes. -/
theorem cellText_date_ne {col : QueryResultColumn} (hcol : col.colType = .date) (i n : Nat) :
    cellText col i ≠ toString n := by
  intro h
  have hdigits : ∀ c ∈ (cellText col i).toList, c.isDigit = true := by
    rw [h, toList_natText]
    exact fun c hc => Nat.isDigit_of_mem_toDigits (by decide) (by decide) hc
  have hne : (cellText col i).toList ≠ [] := by
    rw [h, toList_natText]
    exact Nat.toDigits_ne_nil
  simp only [cellText, hcol] at hdigits hne
  cases hm : col.intCol[i]? with
  | none => simp [hm] at hne
  | some m =>
    rw [hm] at hdigits
    have hdash : '-' ∈ (dateText m).toList := by simp [dateText]
    exact absurd (hdigits '-' hdash) (by decide)

/-- An INT column is printed in decimal. -/
theorem cellText_int {c : ColData} (hc : c.type = .int) {i : Nat} {n : Int}
    (hn : c.intvec[i]? = some n) (hfits : -2 ^ 31 ≤ n ∧ n < 2 ^ 31) :
    cellText (queryResultColumn c) i = toString n := by
  simp [queryResultColumn, cellText, hc, hn, (toInt32_eq_self_iff n).mpr hfits]

/-- A DATE column is printed as dates. -/
theorem cellText_date {c : ColData} (hc : c.type = .date) {i : Nat} {n : Int}
    (hn : c.intvec[i]? = some n) (hfits : -2 ^ 31 ≤ n ∧ n < 2 ^ 31) :
    cellText (queryResultColumn c) i = dateText n := by
  simp [queryResultColumn, cellText, hc, hn, (toInt32_eq_self_iff n).mpr hfits]

/-- The offloaded `EXTRACT` is declared an INT32, and arrives as a number. -/
theorem offloaded_extract {p : Projection} {unit : DateUnit} {col : String}
    (hp : IsExtract p unit col) (m : Offloading.ColumnMaps) :
    ∃ type length, Offloading.projectionReturn m p = some (m, [(type, length)]) ∧
      ∀ (c : ColData) (i : Nat) (n : Int), c.intvec[i]? = some n → -2 ^ 31 ≤ n ∧ n < 2 ^ 31 →
        cellText (queryResultColumn (typedColumn type length c)) i = toString n := by
  refine ⟨3, 4, ?_, fun c i n hn hfits => cellText_int rfl hn hfits⟩
  simp [Offloading.projectionReturn, hp.value]

/-- **The merged `EXTRACT`** prints the field of a row's date as a date, and
so never as the number it is. -/
theorem extract_never_prints {t d : TableData} {projections : List Projection}
    {columnAlias : List String} {k : Nat} {p : Projection} {unit : DateUnit} {col name : String}
    (hk : projections[k]? = some p) (hp : IsExtract p unit col)
    (hname : columnAlias[k]? = some name) (hnodup : columnAlias.Nodup)
    (hrun : aggregation false t projections columnAlias {} = some d)
    {db : DataBuffer} {request : Request} {wid : Int} {w : WorkBuffer}
    (hasked : workIdOf db request.queryId request.workId request.tableName = some wid)
    (hw : db.work? request.queryId wid = some w) (hdone : w.status = .workDone)
    (hdata : w.tableData = d.tableData) (hcount : w.rowCount = d.rowCount)
    {r : Nat} (hr : r < t.rowCount) {date : PackedDate}
    (hdate : (t.tableData.get col).intvec[r]? = some date.packed) :
    ∃ result db', getQueryResult db request = some (result, db') ∧
      (date.packed < 2 ^ 31 → r < d.rowCount →
        Prints result name r (dateText (unit.field date))) ∧
      ¬ Prints result name r (toString (unit.field date)) := by
  obtain ⟨hmem, htype, hvalues⟩ :=
    resultColumn_extract (by omega) hk hp hname hnodup hrun
  obtain ⟨u, result, hget, rfl, hu, hucount⟩ := getQueryResult_spec hasked hw hdone
  have hlookup : (queryResultOf u).queryResult.lookup name =
      some (queryResultColumn (d.tableData.get name)) := by
    rw [lookup_queryResultOf, hu, hdata, ColMap.lookup_eq_get hmem, Option.map_some]
  refine ⟨_, _, hget, fun hfits hprinted => ⟨?_, _, hlookup, ?_⟩, ?_⟩
  · change (r : Int) < u.rowCount
    rw [hucount, hcount]
    exact hprinted
  · obtain ⟨x, hx, hint⟩ := hvalues r hr
    rw [projection_extract hp hdate hfits] at hx
    obtain rfl := Option.some.inj hx
    refine cellText_date htype hint ?_
    have hsmall : (unit.field date : Int) ≤ date.packed := by
      cases unit <;> simp only [DateUnit.field, PackedDate.packed] <;> omega
    constructor <;> omega
  · rintro ⟨-, c, hc, htext⟩
    obtain rfl := Option.some.inj (hlookup.symm.trans hc)
    exact cellText_date_ne (by simp [queryResultColumn, htype]) _ _ htext

/-- 15 March 2024. -/
def shipDate : PackedDate := ⟨2024, 3, 15, by decide, by decide⟩

def shipments : TableData where
  tableData := AList.singleton "shipped"
    { type := .date, intvec := [shipDate.packed], isnull := [false], rowCount := 1 }
  rowCount := 1

/-- `EXTRACT(YEAR FROM shipped)`. -/
def shipYear : Projection where
  value := ["EXTRACT", "YEAR", "shipped"]
  valueType := [.string, .string, .column]

/-- Query 1, whose finished work 2 is the table `d` under the name `years`. -/
def yearsBuffer (d : TableData) : DataBuffer :=
  AList.singleton 1
    { queryId := 1
      workBufferList := AList.singleton 2
        { tableAlias := "years"
          tableColumn := ["year"]
          tableData := d.tableData
          rowCount := d.rowCount
          status := .workDone }
      tablenameWorkidMap := AList.singleton "years" 2 }

theorem extract_never_prints_year :
    ∃ d result db', aggregation false shipments [shipYear] ["year"] {} = some d ∧
      getQueryResult (yearsBuffer d) ⟨1, -1, "years"⟩ = some (result, db') ∧
      (shipDate.packed < 2 ^ 31 → (0 : Nat) < d.rowCount →
        Prints result "year" 0 (dateText (DateUnit.year.field shipDate))) ∧
      ¬ Prints result "year" 0 (toString (DateUnit.year.field shipDate)) := by
  obtain ⟨d, hd⟩ : ∃ d, aggregation false shipments [shipYear] ["year"] {} = some d :=
    Option.isSome_iff_exists.mp (by decide +kernel)
  obtain ⟨result, db', h⟩ := @extract_never_prints shipments d [shipYear] ["year"] 0 shipYear
    .year "shipped" "year" rfl ⟨rfl, rfl, rfl⟩ rfl (by decide) hd (yearsBuffer d)
    ⟨1, -1, "years"⟩ 2 _ rfl rfl rfl rfl rfl 0 (by decide) shipDate rfl
  exact ⟨d, result, db', hd, h⟩

/-- The year 2024 is printed as the date `3-15-08`. -/
theorem extract_prints_3_15_08 :
    ∃ d result db', aggregation false shipments [shipYear] ["year"] {} = some d ∧
      getQueryResult (yearsBuffer d) ⟨1, -1, "years"⟩ = some (result, db') ∧
      Prints result "year" 0 "3-15-08" ∧ ¬ Prints result "year" 0 "2024" := by
  have hyear : (aggregation false shipments [shipYear] ["year"] {}).map
      (fun d => (d.rowCount, d.tableData.lookup "year")) = some (1, some
        { type := .date, intvec := [2024], isnull := [false], rowCount := 1 }) := by
    decide +kernel
  obtain ⟨d, hd, hcolumn⟩ := Option.map_eq_some_iff.mp hyear
  obtain ⟨hcount, hcolumn⟩ := Prod.mk.inj hcolumn
  obtain ⟨u, result, hget, rfl, hu, hucount⟩ := @getQueryResult_spec (yearsBuffer d)
    ⟨1, -1, "years"⟩ 2 _ rfl rfl rfl
  have hlookup : (queryResultOf u).queryResult.lookup "year" = some (queryResultColumn
      { type := .date, intvec := [2024], isnull := [false], rowCount := 1 }) := by
    rw [lookup_queryResultOf, hu]
    exact congrArg (Option.map queryResultColumn) hcolumn
  have htext : cellText (queryResultColumn
      { type := .date, intvec := [2024], isnull := [false], rowCount := 1 }) 0 = "3-15-08" := by
    decide
  refine ⟨d, _, _, hd, hget, ⟨?_, _, hlookup, htext⟩, ?_⟩
  · change (0 : Int) < u.rowCount
    rw [hucount]
    exact hcount ▸ Int.zero_lt_one
  · rintro ⟨-, c, hc, hyear⟩
    obtain rfl := Option.some.inj (hlookup.symm.trans hc)
    exact absurd (htext.symm.trans hyear) (by decide)

end KetiEngine.Interface
