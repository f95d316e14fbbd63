import KetiEngine.Merging.BareColumn
import KetiEngine.Merging.DependencyIn
import KetiEngine.Merging.DependencyJoin
import KetiEngine.Merging.FilterRows
import KetiEngine.Merging.OuterJoin
import KetiEngine.Merging.In
import KetiEngine.Merging.SortRows
import KetiEngine.Merging.Union

/-!
# RunSnippet — `RunSnippetWork` for every type of snippet

The `switch` over the type of a snippet makes `target_table_` from one table
that is waited for and one that is read while it grows. After it come the
projection, HAVING, ORDER BY, LIMIT and the save, the same for all types.
-/

namespace KetiEngine.Merging

open KetiEngine Loops

/-! ## The source functions -/

/-- `SnippetRequest.SnippetType`. -/
inductive SnippetType where
  | fullScan | indexScan | indexTableScan | aggregation | filter | innerJoin | leftOuterJoin
  | rightOuterJoin | crossJoin | union | «in» | exist | dependencyInnerJoin | dependencyExist
  | dependencyIn | tmaxSnippet
  deriving DecidableEq, Repr

/-- A snippet for the merging module. -/
structure QuerySnippet extends MergeSnippet where
  type : SnippetType
  orderBy : Order := ⟨[], []⟩
  dependency : Dependency := {}

namespace QuerySnippet

/-- Which entry of `table_name` the `switch` gets from
`GetFinishedTableData`. -/
def finishedTable? (m : QuerySnippet) : Option Nat :=
  match m.type with
  | .aggregation | .innerJoin | .rightOuterJoin | .union => some 0
  | .leftOuterJoin | .in | .dependencyInnerJoin | .dependencyExist | .dependencyIn => some 1
  | .filter | .crossJoin | .fullScan | .indexScan | .indexTableScan | .exist | .tmaxSnippet => none

/-- Which entry it goes through with `GetTableData`, after that. -/
def growingTable? (m : QuerySnippet) : Option Nat :=
  match m.type with
  | .innerJoin | .rightOuterJoin => some 1
  | .union => if m.filtering.length = 0 then none else some 1
  | .leftOuterJoin | .in | .dependencyInnerJoin | .dependencyExist | .dependencyIn => some 0
  | .aggregation | .filter | .crossJoin | .fullScan | .indexScan | .indexTableScan | .exist
  | .tmaxSnippet => none

/-- `target_table_` after the `switch`, from the table that was waited for and
the tables that were delivered. `CrossJoin` is empty and some types have no
case. -/
def targetTable (m : QuerySnippet) (finished : TableData) (delivered : List TableData) :
    Option TableData :=
  match m.type with
  | .aggregation => some finished
  | .filter => filtering {} m.filtering {}
  | .innerJoin => innerJoinHash m.filtering finished delivered
  | .leftOuterJoin => leftOuterJoinHash m.filtering finished delivered
  | .rightOuterJoin => rightOuterJoinHash m.filtering finished delivered
  | .union => union m.filtering finished delivered
  | .in => mergeIn m.filtering finished delivered
  | .dependencyInnerJoin =>
      dependencyInnerJoin (m.groupBy ≠ []) m.filtering m.dependency finished delivered
  | .dependencyExist => dependencyExist m.filtering m.dependency finished delivered
  | .dependencyIn => dependencyIn (m.groupBy ≠ []) m.filtering m.dependency finished delivered
  | .crossJoin | .fullScan | .indexScan | .indexTableScan | .exist | .tmaxSnippet => some {}

/-- `having_table_`, or `result_table_` where there is no HAVING. -/
def havingTable (m : QuerySnippet) (resultTable : TableData) : Option TableData :=
  if m.having = [] then some resultTable else filtering resultTable m.having {}

/-- `order_by_table_`, or the table before it where there is no ORDER BY. -/
def orderByTable (sort : SortFunction) (m : QuerySnippet) (table : TableData) : Option TableData :=
  if m.orderBy.columnName = [] then some table else Merging.orderBy sort table m.orderBy [] {}

/-- From `result_table_` to the table that is saved. -/
def lastTable (sort : SortFunction) (m : QuerySnippet) (resultTable : TableData) :
    Option TableData :=
  m.havingTable resultTable >>= m.orderByTable sort

/-- What `saveTableData` reads of the snippet. -/
def saved (m : QuerySnippet) : SavedSnippet := ⟨m.queryId, m.workId, m.tableAlias, m.columnAlias⟩

end QuerySnippet

/-- `RunSnippetWork` after `InitializeBuffer`, with the tables that it gets
from the buffer manager. -/
def runSnippetWork (sort : SortFunction) (db : DataBuffer) (m : QuerySnippet)
    (finished : TableData) (delivered : List TableData) : Option DataBuffer := do
  let targetTable ← m.targetTable finished delivered
  let resultTable ← columnProjection targetTable m.groupBy m.projection m.columnAlias
  let table ← m.lastTable sort resultTable
  saveResult db m.saved m.limit table

/-- `runFilterSnippet` is the FILTER case of it, without ORDER BY. -/
theorem runSnippetWork_filter (sort : SortFunction) (db : DataBuffer) (snippet : MergeSnippet)
    (finished : TableData) (delivered : List TableData) :
    runFilterSnippet db snippet =
      runSnippetWork sort
        (initializeBuffer db snippet.queryId snippet.workId snippet.tableAlias)
        { snippet with type := .filter } finished delivered := by
  simp only [runFilterSnippet, runSnippetWork, MergeQueryManager.filterCase,
    MergeQueryManager.projectTarget, MergeQueryManager.saveLast, MergeQueryManager.saved,
    QuerySnippet.targetTable, QuerySnippet.lastTable, QuerySnippet.havingTable,
    QuerySnippet.orderByTable, QuerySnippet.saved, filtering_empty, Option.bind_eq_bind,
    Option.bind_some, Option.pure_def, if_true]
  cases columnProjection {} snippet.groupBy snippet.projection snippet.columnAlias with
  | none => rfl
  | some resultTable =>
    by_cases hhaving : snippet.having = []
    · simp [hhaving, QuerySnippet.orderByTable]
    · simp only [hhaving, if_false, Option.bind_some]
      cases filtering resultTable snippet.having {} <;> rfl

/-! ## Tables made of rows of another table -/

/-- `d` is these rows of `source`, in every column. -/
structure HoldsTable (source : ColMap) (rows : List Nat) (d : TableData) : Prop where
  wellFormed : d.WellFormed rows.length
  names : ∀ name, name ∈ d.tableData ↔ name ∈ source
  type : ∀ name ∈ source, (d.tableData.get name).type = (source.get name).type
  cells : ∀ name ∈ source, ∀ k,
    (d.tableData.get name).cell? k = rows[k]?.bind (source.get name).cell?

section
variable {t d e : TableData} {source : ColMap} {n : Nat} {rows order : List Nat} {orders : Order}

/-- Behind the last row there are no cells. -/
theorem cell?_eq_none {c : ColData} {k : Nat} (h : c.HasLength n) (hk : n ≤ k) :
    c.cell? k = none := by
  have hnull : c.isnull[k]? = none := List.getElem?_eq_none (by rw [h.null]; exact hk)
  unfold ColData.cell?
  rw [hnull]
  cases c.value? k <;> rfl

/-- A table is all of its rows. -/
theorem holdsTable_self (hw : t.WellFormed n) : HoldsTable t.tableData (List.range n) t := by
  constructor
  case wellFormed => simpa using hw
  case names => exact fun _ => Iff.rfl
  case type => exact fun _ _ => rfl
  case cells =>
    intro name hname k
    by_cases hk : k < n
    · simp [hk]
    · rw [cell?_eq_none (hw.column name hname) (by omega),
        List.getElem?_eq_none (by simpa using hk), Option.bind_none]

theorem Kept.holdsTable (h : Kept t.tableData false rows d) (hw : t.WellFormed n)
    (hrows : ∀ r ∈ rows, r < n) : HoldsTable t.tableData rows d := by
  have hnames : ∀ name, name ∈ d.tableData ↔ name ∈ t.tableData := fun name => by simp [h.names]
  have hcells := fun name (hname : name ∈ t.tableData) =>
    h.copies.cell? (h.typed rfl) hname (hw.column name hname) hrows
  constructor
  case names => exact hnames
  case type => exact h.typed rfl
  case cells => exact fun name hname => (hcells name hname).2
  case wellFormed =>
    constructor
    case count => exact h.count
    case column => exact fun name hname => (hcells name ((hnames name).mp hname)).1
    case stored =>
      intro name hname
      have hin := (hnames name).mp hname
      unfold ColData.Stored
      rw [h.typed rfl name hin]
      exact hw.stored name hin

/-- Rows `order` of a table that is the rows `rows` of another. -/
theorem getElem?_filterMap_rows (horder : ∀ i ∈ order, i < rows.length) (k : Nat) :
    (order.filterMap (rows[·]?))[k]? = order[k]?.bind (rows[·]?) :=
  Loops.getElem?_filterMap (fun i hi =>
    ⟨rows.get ⟨i, horder i hi⟩, List.getElem?_eq_getElem (horder i hi)⟩) k

/-- A table in another order is the rows in that order. -/
theorem HoldsTable.inOrder (h : HoldsTable source rows d) (he : RowsInOrder d order e)
    (hwe : e.WellFormed rows.length) (horder : order.Perm (List.range rows.length)) :
    HoldsTable source (order.filterMap (rows[·]?)) e := by
  have hlt : ∀ i ∈ order, i < rows.length := fun i hi => List.mem_range.mp (horder.mem_iff.mp hi)
  have hlength : (order.filterMap (rows[·]?)).length = rows.length := by
    rw [List.filterMap_length_eq_length.mpr fun i hi => by simp [hlt i hi], horder.length_eq,
      List.length_range]
  constructor
  case wellFormed => rwa [hlength]
  case names => exact fun name => (he.names name).trans (h.names name)
  case type =>
    intro name hname
    rw [he.type name ((h.names name).mpr hname), h.type name hname]
  case cells =>
    intro name hname k
    rw [he.cells name ((h.names name).mpr hname), getElem?_filterMap_rows hlt, Option.bind_assoc]
    exact Option.bind_congr fun i _ => h.cells name hname i

/-- The rows in that order are the same rows. -/
theorem perm_filterMap_rows (horder : order.Perm (List.range rows.length)) :
    (order.filterMap (rows[·]?)).Perm rows := by
  have hall : (List.range rows.length).filterMap (rows[·]?) = rows := by
    apply List.ext_getElem?
    intro k
    rw [getElem?_filterMap_rows fun i hi => List.mem_range.mp hi]
    by_cases hk : k < rows.length
    · simp [hk]
    · simp [hk]
  have hperm := horder.filterMap (rows[·]?)
  rwa [hall] at hperm

/-- A value of `d` is the value of `source` in the row it comes from. -/
theorem HoldsTable.value? (h : HoldsTable source rows d) {name : String} (hname : name ∈ source)
    {i r : Nat} (hi : rows[i]? = some r) :
    ∃ v, (d.tableData.get name).value? i = some v ∧ (source.get name).value? r = some v := by
  have hlt : i < rows.length := (List.getElem?_eq_some_iff.mp hi).1
  obtain ⟨x, hx⟩ := ColData.cell?_isSome (h.wellFormed.column name ((h.names name).mpr hname)) hlt
  have hsource : (source.get name).cell? r = some x := by
    rw [← hx, h.cells name hname, hi, Option.bind_some]
  exact ⟨x.value, ColData.value?_of_cell? hx, ColData.value?_of_cell? hsource⟩

/-- The order columns of a table are those of the rows it is made of. -/
theorem HoldsTable.ordersBy (h : HoldsTable source rows d) (ho : OrdersBy source orders) :
    OrdersBy d.tableData orders := by
  constructor
  case directions => exact ho.directions
  case columns => exact fun name hname => (h.names name).mpr (ho.columns name hname)
  case noNaN =>
    intro name hname hfloat hnan
    have hin := ho.columns name hname
    have hlength := h.wellFormed.column name ((h.names name).mpr hin)
    have hsource : (source.get name).type = .float := (h.type name hin).symm.trans hfloat
    -- a NaN of `d` would be one of `source`
    obtain ⟨i, hi⟩ := List.getElem?_of_mem hnan
    have hlt : i < rows.length := by
      have hvec := hlength.vec
      simp only [ColData.vecLength, hfloat] at hvec
      exact hvec ▸ (List.getElem?_eq_some_iff.mp hi).1
    obtain ⟨v, hv, hvs⟩ := h.value? hin (List.getElem?_eq_getElem hlt)
    simp only [ColData.value?, hfloat, hi, Option.map_some, Option.some.injEq] at hv
    subst hv
    simp only [ColData.value?, hsource, Option.map_eq_some_iff, Value.float.injEq,
      exists_eq_right] at hvs
    exact ho.noNaN name hname hsource (List.mem_of_getElem? hvs)

/-- The rows of a table are ordered as the rows they come from. -/
theorem HoldsTable.rowOrder_eq (h : HoldsTable source rows d) (ho : OrdersBy source orders)
    {i j r s : Nat} (hi : rows[i]? = some r) (hj : rows[j]? = some s) :
    rowOrder d.tableData orders i j = rowOrder source orders r s := by
  refine Lexicographic.lexicographic_congr fun p hp => ?_
  have hin := ho.columns p.1 (List.of_mem_zip hp).1
  have htype := h.type p.1 hin
  obtain ⟨v, hvi, hvr⟩ := h.value? hin hi
  obtain ⟨w, hwj, hws⟩ := h.value? hin hj
  exact directed_congr p.2 (columnOrder_of_values htype hvi hvr hwj hws)
    (columnOrder_of_values htype hwj hws hvi hvr)

end

/-! ## HAVING, ORDER BY and LIMIT of a result -/

/-- The rows of a result that satisfy HAVING. -/
def havingRows (m : QuerySnippet) (resultTable : TableData) (n : Nat) : List Nat :=
  (List.range n).filter (rowSatisfies m.having resultTable.tableData)

/-- HAVING is absent or a conjunction, and ORDER BY is absent or about columns
of the result. The integers that HAVING compares are `int`s, and the strings
have no blanks around them. -/
structure Answers (m : QuerySnippet) (resultTable : TableData) : Prop where
  having : m.having = [] ∨ ConjunctionOf resultTable.tableData m.having
  orderBy : m.orderBy.columnName = [] ∨ OrdersBy resultTable.tableData m.orderBy
  fits : ∀ name ∈ comparedColumns m.having, (resultTable.tableData.get name).type = .int →
    ∀ n ∈ (resultTable.tableData.get name).intvec, FitsInt32 n
  trimmed : ∀ name ∈ comparedColumns m.having, (resultTable.tableData.get name).type = .string →
    ∀ text ∈ (resultTable.tableData.get name).strvec, trim text = text

section
variable {m : QuerySnippet} {t d : TableData} {n : Nat} {rows : List Nat} {sort : SortFunction}

/-- The values that HAVING compares are not changed by the cut to 32 bits. -/
theorem Answers.rowSatisfies_eq (h : Answers m t) (r : Nat) :
    rowSatisfiesNarrow m.having t.tableData r = rowSatisfies m.having t.tableData r := by
  refine all_congr_mem fun c hc => ?_
  unfold relatesLiteral
  cases hcolumn : c.lv.value[0]? with
  | none => rfl
  | some column =>
    have hcompared : column ∈ comparedColumns m.having := List.mem_filterMap.mpr ⟨c, hc, hcolumn⟩
    cases hv : (t.tableData.get column).value? r with
    | none => simp only [hv, Option.map_none]
    | some v =>
      have hcut : literalOf (t.tableData.get column).type c = none ∨
          narrow (trimValue v) = trimValue v := by
        unfold ColData.value? at hv
        cases htype : (t.tableData.get column).type <;>
          simp only [htype, Option.map_eq_some_iff, reduceCtorEq] at hv
        case string =>
          obtain ⟨text, -, rfl⟩ := hv
          exact .inr rfl
        case int =>
          obtain ⟨k, hk, rfl⟩ := hv
          have hfits := h.fits column hcompared htype k (List.mem_of_getElem? hk)
          exact .inr (congrArg Value.int hfits.toInt32_eq)
        all_goals exact .inl rfl
      cases hliteral : literalOf (t.tableData.get column).type c with
      | none => simp only [hv, hliteral, Option.map_some]
      | some w =>
        have hsame := hcut.resolve_left (by simp [hliteral])
        simp only [hv, hliteral, Option.map_some, hsame, id_eq]

/-- Trimming them changes nothing. -/
theorem Answers.get_trimmed (h : Answers m t) (name : String) :
    (Merging.trimmed t (comparedColumns m.having)).get name = t.tableData.get name := by
  rw [Merging.trimmed, get_trimColumns]
  split
  · rename_i hname
    unfold trimColumn
    split
    · rename_i htype
      have hkept : trimRows t.rowCount.toNat (t.tableData.get name).strvec =
          (t.tableData.get name).strvec := by
        refine List.ext_getElem? fun i => ?_
        rw [getElem?_trimRows]
        cases htext : (t.tableData.get name).strvec[i]? with
        | none => rfl
        | some text =>
          rw [Option.map_some, h.trimmed name hname htype text (List.mem_of_getElem? htext), ite_self]
      rw [hkept]
    · rfl
  · rfl

theorem havingTable_spec (hw : t.WellFormed n) (hanswer : Answers m t) :
    ∃ d, m.havingTable t = some d ∧ HoldsTable t.tableData (havingRows m t n) d := by
  unfold QuerySnippet.havingTable
  by_cases hnone : m.having = []
  · refine ⟨t, if_pos hnone, ?_⟩
    have hall : havingRows m t n = List.range n := by
      simp [havingRows, hnone, rowSatisfies, conjuncts]
    rw [hall]
    exact holdsTable_self hw
  · have hconj := hanswer.having.resolve_left hnone
    obtain ⟨d, hrun, hkept⟩ := filtering_kept hw hconj
    have hrows : (List.range n).filter (rowSatisfiesNarrow m.having t.tableData) =
        havingRows m t n := List.filter_congr fun r _ => hanswer.rowSatisfies_eq r
    rw [hrows] at hkept
    have hholds := Kept.holdsTable
      (t := { t with tableData := trimmed t (comparedColumns m.having) }) hkept
      (trimmed_wellFormed hw hconj.columns) fun r hr => List.mem_range.mp (List.mem_filter.mp hr).1
    refine ⟨d, (if_neg hnone).trans hrun, hholds.wellFormed, fun name => ?_, fun name hname => ?_,
      fun name hname => ?_⟩
    · exact (hholds.names name).trans (mem_trimColumns hconj.columns)
    · exact (hholds.type name ((mem_trimColumns hconj.columns).mpr hname)).trans
        (congrArg _ (hanswer.get_trimmed name))
    · rw [← hanswer.get_trimmed name]
      exact hholds.cells name ((mem_trimColumns hconj.columns).mpr hname)

/-- ORDER BY leaves the same rows in an order in which no row comes after a
greater one. -/
theorem orderByTable_spec (hsort : Sorts sort) {source : ColMap} (h : HoldsTable source rows d)
    (ho : m.orderBy.columnName = [] ∨ OrdersBy source m.orderBy) :
    ∃ e rows', m.orderByTable sort d = some e ∧ rows'.Perm rows ∧ HoldsTable source rows' e ∧
      (m.orderBy.columnName = [] → rows' = rows) ∧
      (m.orderBy.columnName ≠ [] →
        rows'.Pairwise fun r s => rowOrder source m.orderBy r s ≠ .gt) := by
  unfold QuerySnippet.orderByTable
  by_cases hnone : m.orderBy.columnName = []
  · exact ⟨d, rows, if_pos hnone, .refl _, h, fun _ => rfl, fun hne => absurd hnone hne⟩
  have ho := ho.resolve_left hnone
  rw [if_neg hnone]
  rcases Nat.eq_zero_or_pos rows.length with hzero | hpos
  · -- an empty table is handed on as it is
    obtain rfl := List.eq_nil_of_length_eq_zero hzero
    refine ⟨d, [], ?_, .refl _, h, fun hne => absurd hne hnone, fun _ => .nil⟩
    exact if_pos h.wellFormed.count
  · obtain ⟨e, order, hrun, hperm, hrows, -, hwe, hsorted⟩ :=
      orderBy_sorts hsort h.wellFormed hpos (h.ordersBy ho)
    have he := h.inOrder hrows hwe hperm
    refine ⟨e, _, hrun, perm_filterMap_rows hperm, he, fun hne => absurd hne hnone, fun _ => ?_⟩
    rw [List.pairwise_iff_getElem]
    intro i j hi hj hij
    rw [← he.rowOrder_eq ho (List.getElem?_eq_getElem hi) (List.getElem?_eq_getElem hj)]
    have hlength := (perm_filterMap_rows hperm).length_eq
    exact hsorted i j hij (by omega)

/-- What `saveResult` keeps of the rows of a result: the length is where they
end, and a length beyond them keeps everything. -/
def Limit.window (limit : Limit) (rows : List Nat) : List Nat :=
  if limit.length ≠ 0 ∧ limit.length ≤ rows.length then
    (rows.take limit.length.toNat).drop limit.offset.toNat
  else rows

/-- What a LIMIT asks for: as many rows as its length from its offset on, and
all of them from there without a length. -/
def Limit.asks (limit : Limit) (rows : List Nat) : List Nat :=
  let later := rows.drop limit.offset.toNat
  if limit.length = 0 then later else later.take limit.length.toNat

/-- From the first row on, the source keeps what the LIMIT asks for. -/
theorem Limit.window_eq_asks {limit : Limit} (hoffset : limit.offset = 0)
    (hlength : 0 ≤ limit.length) (rows : List Nat) : limit.window rows = limit.asks rows := by
  unfold window asks
  rw [hoffset, Int.toNat_zero, List.drop_zero, List.drop_zero]
  by_cases hzero : limit.length = 0
  · rw [if_neg fun h => h.1 hzero, if_pos hzero]
  · rw [if_neg hzero]
    split
    · rfl
    · exact (List.take_of_length_le (by omega)).symm

/-- A window of the columns is a window of the rows. -/
theorem HoldsTable.window {source : ColMap} {w : TableData} {a b : Nat}
    (h : HoldsTable source rows d) (hb : b ≤ rows.length) (hcount : w.rowCount = (b - a : Nat))
    (hnames : ∀ name, name ∈ w.tableData ↔ name ∈ source)
    (hcolumns : ∀ name ∈ d.tableData,
      WindowOf (w.tableData.get name) (d.tableData.get name) a (b - a)) :
    HoldsTable source ((rows.take b).drop a) w := by
  have hlength : ((rows.take b).drop a).length = b - a := by
    rw [List.length_drop, List.length_take, Nat.min_eq_left hb]
  constructor
  case names => exact hnames
  case type =>
    intro name hname
    have hd := (h.names name).mpr hname
    exact (hcolumns name hd).type.trans (h.type name hname)
  case cells =>
    intro name hname k
    have hwindow := hcolumns name ((h.names name).mpr hname)
    by_cases hk : k < b - a
    · rw [hwindow.cells k hk, h.cells name hname, List.getElem?_drop,
        List.getElem?_take_of_lt (by omega)]
    · rw [cell?_eq_none hwindow.length (by omega), List.getElem?_eq_none (by omega),
        Option.bind_none]
  case wellFormed =>
    rw [hlength]
    constructor
    case count => exact hcount
    case column => exact fun name hname =>
      (hcolumns name ((h.names name).mpr ((hnames name).mp hname))).length
    case stored =>
      intro name hname
      have hd := (h.names name).mpr ((hnames name).mp hname)
      unfold ColData.Stored
      rw [(hcolumns name hd).type]
      exact h.wellFormed.stored name hd

/-- The last table of a snippet is saved, within its LIMIT. -/
theorem saveResult_holdsTable {source : ColMap} {db : DataBuffer} {snippet : SavedSnippet}
    {limit : Limit} (h : HoldsTable source rows d) (hoffset : 0 ≤ limit.offset)
    (hlength : limit.length = 0 ∨ limit.offset ≤ limit.length)
    (hw : db.work? snippet.queryId snippet.workId = some {})
    (halias : ∀ name ∈ snippet.columnAlias, name ∈ source) :
    ∃ db' w, saveResult db snippet limit d = some db' ∧
      db'.work? snippet.queryId snippet.workId = some w ∧ w.status = .workDone ∧
      HoldsTable source (limit.window rows) w.table := by
  have hcount := h.wellFormed.count
  have hwindow : ∀ a b : Nat, a ≤ b → b ≤ rows.length → ∃ db' w,
      saveTableData db snippet d a b = some db' ∧
      db'.work? snippet.queryId snippet.workId = some w ∧ w.status = .workDone ∧
      HoldsTable source ((rows.take b).drop a) w.table := by
    intro a b hab hb
    obtain ⟨w, hsave, hrows, hstatus, hnames, hcolumns⟩ :=
      @save_within {} snippet _ _ _ _ h.wellFormed hab hb
    obtain ⟨db', hrun, hwork⟩ := saveTableData_of_save hw hsave
    refine ⟨db', w, hrun, hwork, hstatus, h.window hb ?_ (fun name => ?_) hcolumns⟩
    · show w.rowCount = _
      rw [hrows, Nat.cast_sub hab]
    · show name ∈ w.tableData ↔ _
      rw [hnames, h.names]
      exact ⟨fun hname => hname.elim id fun hname => hname.elim (halias name) fun hnew =>
        absurd hnew (AList.notMem_empty name), .inl⟩
  unfold saveResult Limit.window
  by_cases hzero : limit.length = 0
  · obtain ⟨db', w, hrun, hrest⟩ := hwindow 0 rows.length (Nat.zero_le _) (Nat.le_refl _)
    rw [List.take_length, List.drop_zero] at hrest
    refine ⟨db', w, ?_, by rwa [if_neg fun hne => hne.1 hzero]⟩
    rw [if_neg fun hne => hne hzero, hcount]
    exact hrun
  · have hoffset' := Int.toNat_of_nonneg hoffset
    have hlength' : (limit.length.toNat : Int) = limit.length := Int.toNat_of_nonneg (by omega)
    by_cases hwithin : limit.length ≤ rows.length
    · obtain ⟨db', w, hrun, hrest⟩ := hwindow limit.offset.toNat limit.length.toNat (by omega)
        (by omega)
      rw [hoffset', hlength'] at hrun
      exact ⟨db', w, by rwa [if_pos hzero], by rwa [if_pos ⟨hzero, hwithin⟩]⟩
    · obtain ⟨w, hsave, hdata, hrows, hstatus⟩ := @save_beyond {} snippet d limit.offset
        limit.length (by omega)
      obtain ⟨db', hrun, hwork⟩ := saveTableData_of_save hw hsave
      refine ⟨db', w, by rwa [if_pos hzero], hwork, hstatus, ?_⟩
      rw [if_neg fun hboth => hwithin hboth.2]
      have htable : w.table.tableData = d.tableData := hdata
      constructor
      case names => exact htable ▸ h.names
      case type => exact htable ▸ h.type
      case cells => exact htable ▸ h.cells
      case wellFormed =>
        exact ⟨hrows.trans hcount, htable ▸ h.wellFormed.column, htable ▸ h.wellFormed.stored⟩

end

/-! ## A snippet of bare columns -/

/-- `result` is the columns of `source` under their aliases. -/
structure Renamed (source : TableData) (columns : List (String × String)) (result : TableData) :
    Prop where
  names : ∀ name, name ∈ result.tableData ↔ name ∈ columns.map Prod.fst
  type : ∀ p ∈ columns,
    (result.tableData.get p.1).type = (source.tableData.get p.2).type
  cells : ∀ p ∈ columns, ∀ k,
    (result.tableData.get p.1).cell? k = (source.tableData.get p.2).cell? k

/-- A column appended to a new one reads as before. -/
theorem cell?_appendColumn_new (c : ColData) : (appendColumn c {}).cell? = c.cell? := by
  funext k
  unfold ColData.cell?
  rw [value?_appendColumn_new, isnull_appendColumn, List.nil_append]

theorem hasLength_appendColumn_new {c : ColData} {n : Nat} (h : c.HasLength n) :
    (appendColumn c {}).HasLength n := by
  obtain ⟨hstr, hint, hfloat⟩ := vectors_appendColumn c {}
  constructor
  case vec =>
    have hvec := h.vec
    unfold ColData.vecLength at hvec ⊢
    rw [type_appendColumn, hstr, hint, hfloat]
    cases ht : c.type <;> simpa [ht] using hvec
  case null => rw [isnull_appendColumn, List.nil_append, h.null]
  case count => rw [rowCount_appendColumn, Int.zero_add, h.count]

/-- The projection of bare columns. -/
theorem columnProjection_bare {source : TableData} {n : Nat} {snippet : SnippetRequest}
    {columns : List (String × String)} (hw : source.WellFormed n) (hn : 0 < n)
    (hbare : BareColumns snippet columns) (hne : columns ≠ [])
    (hdistinct : (columns.map Prod.fst).Nodup) (hin : ∀ p ∈ columns, p.2 ∈ source.tableData) :
    ∃ result, columnProjection source [] snippet.projection snippet.columnAlias = some result ∧
      result.WellFormed n ∧ Renamed source columns result := by
  let cols := columns.map fun p => source.tableData.get p.2
  have hrows : source.rowCount ≠ 0 := (hw.rowCount_pos hn).ne'
  have hcolumns : snippet.projection.mapM (projectionColumn false source) = some cols := by
    rw [hbare.projections, mapM_eq_some_iff, List.forall₂_map_left_iff, List.forall₂_map_right_iff]
    exact List.forall₂_same.mpr fun p _ => rfl
  have hcount : resultRowNum cols = n := by
    rw [resultRowNum_of_forall (k := n) (by omega) fun c hc => ?_]
    · simp [cols, hne]
    · obtain ⟨p, hp, rfl⟩ := List.mem_map.mp hc
      exact (hw.column p.2 (hin p hp)).count
  have halias : snippet.projection.length ≤ snippet.columnAlias.length := by
    rw [hbare.projections, hbare.aliases, List.length_map, List.length_map]
  have hrun := aggregation_eq hrows hcolumns halias {}
  have hget : ∀ p ∈ columns, ((snippet.columnAlias.zip cols).foldl
      (fun (m : ColMap) e => m.modify e.1 (appendColumn e.2)) ∅).get p.1 =
        appendColumn (source.tableData.get p.2) {} := by
    intro p hp
    obtain ⟨i, hi⟩ := List.getElem?_of_mem hp
    have halias : snippet.columnAlias[i]? = some p.1 := by simp [hbare.aliases, hi]
    have hcol : cols[i]? = some (source.tableData.get p.2) := by simp [cols, hi]
    rw [get_appended (hbare.aliases ▸ hdistinct) ∅ halias hcol,
      ColMap.get_of_notMem (AList.notMem_empty p.1)]
  have hnames : ∀ name, name ∈ (snippet.columnAlias.zip cols).foldl
      (fun (m : ColMap) e => m.modify e.1 (appendColumn e.2)) ∅ ↔
        name ∈ columns.map Prod.fst := by
    intro name
    rw [mem_appended (by rw [hbare.aliases, List.length_map, List.length_map]), hbare.aliases]
    simp only [List.length_map, cols, AList.notMem_empty, or_false, List.mem_iff_getElem?]
    constructor
    · rintro ⟨i, -, hi⟩
      exact ⟨i, hi⟩
    · rintro ⟨i, hi⟩
      exact ⟨i, by simpa using (List.getElem?_eq_some_iff.mp hi).1, hi⟩
  have hshown : ∀ name ∈ columns.map Prod.fst, ∃ p ∈ columns, p.1 = name := fun name hname => by
    simpa using hname
  refine ⟨_, (if_pos rfl).trans hrun, ?_, ?_⟩
  · constructor
    case count =>
      show (0 : Int) + resultRowNum cols = n
      rw [hcount, Int.zero_add]
    case column =>
      intro name hname
      obtain ⟨p, hp, rfl⟩ := hshown name ((hnames name).mp hname)
      show ColData.HasLength (ColMap.get _ p.1) n
      rw [hget p hp]
      exact hasLength_appendColumn_new (hw.column p.2 (hin p hp))
    case stored =>
      intro name hname
      obtain ⟨p, hp, rfl⟩ := hshown name ((hnames name).mp hname)
      show ColData.Stored (ColMap.get _ p.1)
      rw [hget p hp]
      unfold ColData.Stored
      rw [type_appendColumn]
      exact hw.stored p.2 (hin p hp)
  · constructor
    case names => exact hnames
    case type =>
      intro p hp
      show (ColMap.get _ p.1).type = _
      rw [hget p hp, type_appendColumn]
    case cells =>
      intro p hp k
      show (ColMap.get _ p.1).cell? k = _
      rw [hget p hp, cell?_appendColumn_new]

/-- From the result table on a snippet of any type does the same: it saves the
rows that satisfy HAVING, in the order of ORDER BY, as many as the LIMIT asks for. -/
theorem runSnippetWork_of_result {sort : SortFunction} (hsort : Sorts sort) {db : DataBuffer}
    {m : QuerySnippet} {finished target result : TableData} {delivered : List TableData} {n : Nat}
    (htarget : m.targetTable finished delivered = some target)
    (hproject : columnProjection target m.groupBy m.projection m.columnAlias = some result)
    (hwell : result.WellFormed n) (hanswer : Answers m result)
    (halias : ∀ name ∈ m.columnAlias, name ∈ result.tableData)
    (hoffset : m.limit.offset = 0) (hlength : 0 ≤ m.limit.length)
    (hwork : db.work? m.queryId m.workId = some {}) :
    ∃ rows db' w, rows.Perm (havingRows m result n) ∧
      (m.orderBy.columnName = [] → rows = havingRows m result n) ∧
      (m.orderBy.columnName ≠ [] →
        rows.Pairwise fun r s => rowOrder result.tableData m.orderBy r s ≠ .gt) ∧
      runSnippetWork sort db m finished delivered = some db' ∧
      db'.work? m.queryId m.workId = some w ∧ w.status = .workDone ∧
      HoldsTable result.tableData (m.limit.asks rows) w.table := by
  obtain ⟨kept, hhaving, hkept⟩ := havingTable_spec hwell hanswer
  obtain ⟨last, rows, horder, hperm, hlast, hsame, hsorted⟩ :=
    orderByTable_spec hsort hkept hanswer.orderBy
  obtain ⟨db', w, hsave, hw', hstatus, hholds⟩ :=
    @saveResult_holdsTable _ _ _ db m.saved _ hlast hoffset.ge (hoffset.symm ▸ .inr hlength) hwork
      halias
  rw [Limit.window_eq_asks hoffset hlength] at hholds
  refine ⟨rows, db', w, hperm, hsame, hsorted, ?_, hw', hstatus, hholds⟩
  simp only [runSnippetWork, htarget, Option.bind_eq_bind, Option.bind_some, hproject,
    QuerySnippet.lastTable, hhaving, horder]
  exact hsave

/-- `SELECT n FROM totals HAVING n > 5 ORDER BY n DESC LIMIT 2`. -/
def topTwo : QuerySnippet where
  queryId := 1
  workId := 2
  tableName := ["totals"]
  projection := [{ value := ["n"], valueType := [.column] }]
  tableAlias := "top"
  columnAlias := ["n"]
  having := moreThanFive
  limit := ⟨0, 2⟩
  type := .aggregation
  orderBy := ⟨[.desc], ["n"]⟩

end KetiEngine.Merging
