import KetiEngine.Merging.Aggregation
import KetiEngine.Merging.Dependency

/-!
# DependencyJoin — comparison with a correlated aggregate

`DependencyInnerJoin`: for each left row a table of the right rows that pass
the dependency filter, one aggregate over it, and the comparison of a left
column with it. The type by which the left value is read is looked up before
the first table has been read.
-/

namespace KetiEngine.Merging

open KetiEngine Loops

/-! ## The source functions -/

/-- `lv_type`: the type of the column in a `left_table_` without columns. -/
def lvType (lvColumn : String) : VectorType :=
  (({} : TableData).tableData.get lvColumn).type

/-- `T lv`. -/
def leftValue (type : VectorType) (c : ColData) (r1 : Nat) : Option T :=
  match type with
  | .string => c.strvec[r1]?.map fun s => { varString := s, type }
  | .int => c.intvec[r1]?.map fun n => { varInt := n, type }
  | _ => c.floatvec[r1]?.map fun x => { varFloat := x, type }

/-- `dependency_subquery_filtered_table`; `passed` is what the flag is before
the first comparison. -/
def filteredTable (compare : Nat → Filter → Bool → Option Bool) (dependencyFilter : List Filter)
    (passed : Bool) (right : TableData) : Option TableData :=
  (List.range right.rowCount.toNat).foldlM (fun filtered r2 => do
    let passed ← dependencyLoop (compare r2) dependencyFilter passed
    if passed then keepRow right.tableData r2 filtered else pure filtered)
    { tableData := setTypes right.tableData ∅ }

/-- `dependency_alias` of `size` projections. -/
def dependencyAlias (size : Nat) : List String :=
  (List.range size).map fun a => "depcol" ++ toString a

/-- The comparison with the first column of the projection, by `lv_type`. -/
def compareScalar (oper : OperType) (lv : T) (c : ColData) : Option Bool :=
  if c.type = .empty then some false
  else
    match lv.type with
    | .string => c.strvec[0]?.map (compareByOperator stringComparison oper lv.varString)
    | .int =>
        if c.type = .int then c.intvec[0]?.map (compareByOperator intComparison oper lv.varInt)
        else c.floatvec[0]?.map fun x => compareByOperator intComparison oper lv.varInt x.toInt64
    | _ =>
        if c.type = .float then
          c.floatvec[0]?.map (compareByOperator doubleComparison oper lv.varFloat)
        else c.intvec[0]?.map fun n =>
          compareByOperator doubleComparison oper lv.varFloat (.ofInt64 n)

/-- The comparison of `DependencyInnerJoin`, which looks at the type of the
left column only. -/
def compareLeftTyped : ColMap → ColMap → Nat → Nat → Filter → Bool → Option Bool :=
  compareDependency (fun _ n => toInt32 n) fun _ n => (Double.ofInt n).toFloat

/-- `passed` for left row `r1`. -/
def scalarVerdict (isGroupby : Bool) (f : Filter) (dependency : Dependency) (right : TableData) :
    Verdict := fun left r1 hashTable => do
  let lvColumn ← f.lv.value[0]?
  let lv ← leftValue (lvType lvColumn) (left.tableData.get lvColumn) r1
  let filtered ← filteredTable (compareLeftTyped left.tableData right.tableData r1)
    dependency.dependencyFilter false right
  let projected ← aggregation isGroupby filtered dependency.dependencyProjection
    (dependencyAlias dependency.dependencyProjection.length) {}
  let e ← projected.tableData.entries.head?
  let passed ← compareScalar f.operator lv e.2
  pure (passed, hashTable)

/-- `DependencyInnerJoin`: `target_table_` at its end. -/
def dependencyInnerJoin (isGroupby : Bool) (filtering : List Filter) (dependency : Dependency)
    (right : TableData) (delivered : List TableData) : Option TableData := do
  let f ← filtering[0]?
  selectLoop (scalarVerdict isGroupby f dependency right) ∅ delivered

/-! ## The rows of the subquery -/

/-- The right rows that satisfy the dependency filter for left row `l`. -/
def matchingRows (filters : List Filter) (left right : ColMap) (m l : Nat) : List Nat :=
  (List.range m).filter (rowMatches filters left right l)

/-- The right rows that pass it as it is computed. -/
def narrowRows (filters : List Filter) (left right : ColMap) (m l : Nat) : List Nat :=
  (List.range m).filter (rowMatchesNarrow filters left right l)

theorem lt_of_mem_narrowRows {filters : List Filter} {left right : ColMap} {m l r : Nat}
    (h : r ∈ narrowRows filters left right m l) : r < m :=
  List.mem_range.mp (List.mem_filter.mp h).1

/-- No comparison is one of FLOAT columns. -/
def NoFloat (left : ColMap) (filters : List Filter) : Prop :=
  ∀ c ∈ conjuncts filters, comparesFloat left c = false

/-- A filtered table has these rows of the right table. -/
structure RowsOf (right : TableData) (rows : List Nat) (filtered : TableData) : Prop where
  kept : Kept right.tableData false rows filtered
  size : rows ≠ [] → ∀ name ∈ right.tableData, (right.tableData.get name).type = .float →
    (filtered.tableData.get name).realSize = (right.tableData.get name).realSize

theorem copyCell_realSize {c d d' : ColData} {i : Nat} (h : copyCell c i d = some d')
    (hfloat : c.type = .float) : d'.realSize = c.realSize := by
  unfold copyCell copyValue at h
  simp only [hfloat] at h
  obtain ⟨d₁, hvalue, h⟩ := Option.bind_eq_some_iff.mp h
  obtain ⟨x, -, rfl⟩ := Option.map_eq_some_iff.mp hvalue
  obtain ⟨b, -, h⟩ := Option.bind_eq_some_iff.mp h
  cases h
  rfl

/-- A copied row brings the decimals of the FLOAT columns along. -/
theorem copyRow_realSize {source target target' : ColMap} {i : Nat}
    (hstored : ∀ name ∈ source, (source.get name).Stored)
    (hcells : ∀ name ∈ source, ∃ x, (source.get name).cell? i = some x)
    (h : copyRow source i target = some target') {name : String} (hname : name ∈ source)
    (hfloat : (source.get name).type = .float) :
    (target'.get name).realSize = (source.get name).realSize := by
  have hcopied : ∀ name ∈ source,
      copyCell (source.get name) i (target.get name) =
        some ((copyCell (source.get name) i (target.get name)).getD {}) := by
    intro name hname
    obtain ⟨x, hx⟩ := hcells name hname
    obtain ⟨d', hd', -⟩ := copyCell_spec (d := target.get name) (hstored name hname) hx
    rw [hd', Option.getD_some]
  obtain ⟨target₁, hrun, -, -, hget⟩ := ColMap.foldlM_entries (f := fun c d => copyCell c i d)
    (g := fun name => (copyCell (source.get name) i (target.get name)).getD {}) hcopied
  obtain rfl : target₁ = target' := Option.some.inj (hrun.symm.trans h)
  rw [hget name hname]
  exact copyCell_realSize (hcopied name hname) hfloat

section
variable {left part : ColMap} {right : TableData} {filters : List Filter} {k m l : Nat}

/-- **The filtered table**: without FLOAT comparisons it has the right rows
that pass. -/
theorem filteredTable_spec {onInt : ColData → Int → Int} {onFloat : ColData → Int → Double}
    (honInt : ∀ rv n, rv.type = .int → onInt rv n = toInt32 n) (hpart : PartOf part left k)
    (hright : right.WellFormed m)
    (hown : ∀ name ∈ right.tableData, (right.tableData.get name).OneVector) (hl : l < k)
    (hfilters : Correlates left right.tableData filters) (hfloat : NoFloat left filters)
    {passed : Bool} (hpassed : filters = [] → passed = true) :
    ∃ filtered, filteredTable (compareDependency onInt onFloat part right.tableData l) filters
        passed right = some filtered ∧
      RowsOf right (narrowRows filters left right.tableData m l) filtered := by
  have hm : right.rowCount.toNat = m := by simp [hright.count]
  have hloop : ∀ r < m, dependencyLoop (compareDependency onInt onFloat part right.tableData l r)
      filters passed = some (rowMatchesNarrow filters left right.tableData l r) := by
    intro r hr
    have hreached : reached (satisfiesNarrow left right.tableData l r) (comparesFloat left)
        (conjuncts filters) = false :=
      reached_eq_false_iff.mpr fun before c after hsplit _ => hfloat c (by simp [hsplit])
    rw [dependencyLoop_spec honInt hpart hright.column hown hl hr hfilters hpassed, hreached]
    rfl
  obtain ⟨filtered, hrun, hrows⟩ := foldlM_total (l := List.range m)
    (P := fun done t => RowsOf right
      (done.filter (rowMatchesNarrow filters left right.tableData l)) t)
    (s := { tableData := setTypes right.tableData ∅ })
    (f := fun filtered r2 => do
      let passed ← dependencyLoop (compareDependency onInt onFloat part right.tableData l r2)
        filters passed
      if passed then keepRow right.tableData r2 filtered else pure filtered)
    ⟨selectTypes_kept (fun _ => Iff.rfl) (fun _ _ => rfl) (kept_init _), fun h => absurd rfl h⟩
    (fun done r rest t hsplit ht => by
      obtain ⟨-, hr⟩ := range_eq_append_cons hsplit
      rw [hloop r hr, List.filter_append]
      cases hp : rowMatchesNarrow filters left right.tableData l r with
      | false => exact ⟨t, rfl, by simpa [hp] using ht⟩
      | true =>
        obtain ⟨t', hkeep, hkept⟩ := keepRow_spec (PartOf.sameRow (.self hright) hr) ht.kept
        refine ⟨t', hkeep, by simpa [hp] using hkept, fun _ name hname hname' => ?_⟩
        obtain ⟨td, hcopy, hkeep⟩ := Option.bind_eq_some_iff.mp hkeep
        cases hkeep
        exact copyRow_realSize hright.stored
          (fun name hname => ColData.cell?_isSome (hright.column name hname) hr) hcopy hname hname')
  refine ⟨filtered, ?_, hrows⟩
  rw [filteredTable, hm]
  exact hrun

end

/-! ## The aggregate -/

/-- The projection is `COUNT(*)`, or a `SUM` of values that are INT. -/
def IntResult (right : TableData) (m : Nat) (p : Projection) : Prop :=
  p.selectType = .countStar ∨
    p.selectType = .sum ∧ ∀ r < m, ∃ t, projection right.tableData p r = some t ∧ t.type = .int

/-- The aggregate of a query over these rows of the right table. -/
def aggregateOf (right : TableData) (p : Projection) (rows : List Nat) : Int :=
  match p.selectType with
  | .countStar => rows.length
  | _ => (rows.map fun r => ((projection right.tableData p r).getD {}).varInt).sum

/-- The aggregate as it is held: a sum is an `int64_t`. -/
def heldAggregate (right : TableData) (p : Projection) (rows : List Nat) : Int :=
  match p.selectType with
  | .countStar => rows.length
  | _ => toInt64 (rows.map fun r => ((projection right.tableData p r).getD {}).varInt).sum

section
variable {right filtered : TableData} {m : Nat} {rows : List Nat} {p : Projection}

/-- A projection has on row `k` of the filtered table the value it has on the
row that was copied there. -/
theorem RowsOf.projection (hright : right.WellFormed m) (hrows : ∀ r ∈ rows, r < m)
    (h : RowsOf right rows filtered) {k r : Nat} (hk : rows[k]? = some r) {t : T}
    (ht : Merging.projection right.tableData p r = some t) (hnum : t.Numeric) :
    Merging.projection filtered.tableData p k = some t := by
  have hmem := List.mem_of_getElem? hk
  have htyped := h.kept.typed rfl
  refine SameOperands.projectionValue (sameOperands_of_values (fun name => ?_) hright.stored htyped
    (h.size (List.ne_nil_of_mem hmem)) fun name hname => ?_) ht hnum
  · rw [h.kept.names, eq_self_iff_true, true_and]
  · have hcell := (h.kept.copies.cell? htyped hname (hright.column name hname) hrows).2 k
    obtain ⟨x, hx⟩ := ColData.cell?_isSome (hright.column name hname) (hrows r hmem)
    rw [hk, Option.bind_some, hx] at hcell
    rw [ColData.value?_of_cell? hcell, ColData.value?_of_cell? hx]

/-- **The projected column** holds the aggregate. -/
theorem RowsOf.projectionColumn (hright : right.WellFormed m) (hrows : ∀ r ∈ rows, r < m)
    (hne : rows ≠ []) (h : RowsOf right rows filtered) (hp : IntResult right m p)
    (isGroupby : Bool) :
    Merging.projectionColumn isGroupby filtered p =
      some (countColumn (heldAggregate right p rows)) := by
  unfold Merging.projectionColumn heldAggregate
  rcases hp with hselect | ⟨hselect, hint⟩
  · simp only [hselect, h.kept.count]
  · simp only [hselect]
    have hall : projectRows filtered p 0 =
        some (rows.map fun r => (Merging.projection right.tableData p r).getD {}) := by
      refine projectRows_of_rows h.kept.count fun k r hk => ?_
      obtain ⟨t, ht, htype⟩ := hint r (hrows r (List.mem_of_getElem? hk))
      rw [ht, Option.getD_some]
      exact h.projection hright hrows hk ht (.inl htype)
    have hints : ∀ t ∈ rows.map fun r => (Merging.projection right.tableData p r).getD {},
        t.type = .int := by
      intro t ht
      obtain ⟨r, hr, rfl⟩ := List.mem_map.mp ht
      obtain ⟨t, ht, htype⟩ := hint r (hrows r hr)
      simpa [ht] using htype
    rw [hall, Option.map_some, sumColumn_of_int (by simpa using hne) hints, List.map_map]
    rfl

/-- The first column of the projection of the filtered table: without rows it
has no type. -/
theorem RowsOf.aggregation (hright : right.WellFormed m) (hrows : ∀ r ∈ rows, r < m)
    (h : RowsOf right rows filtered) (hp : IntResult right m p) (isGroupby : Bool) :
    ∃ projected, Merging.aggregation isGroupby filtered [p] (dependencyAlias 1) {} =
        some projected ∧
      projected.tableData.entries.head? = some ⟨"depcol0",
        if rows = [] then {} else countColumn (heldAggregate right p rows)⟩ := by
  by_cases hne : rows = []
  · have hzero : filtered.rowCount = 0 := by simp [h.kept.count, hne]
    unfold Merging.aggregation
    rw [if_pos hzero, if_pos hne]
    exact ⟨_, rfl, rfl⟩
  · have hcolumns : [p].mapM (Merging.projectionColumn isGroupby filtered) =
        some [countColumn (heldAggregate right p rows)] := by
      simp [h.projectionColumn hright hrows hne hp isGroupby]
    have hpos : filtered.rowCount ≠ 0 := by simp [h.kept.count, hne]
    refine ⟨_, aggregation_eq hpos hcolumns (by simp [dependencyAlias]) {}, ?_⟩
    rw [if_neg hne]
    rfl

end

/-! ## The verdict -/

/-- The comparison of a left value with a number. -/
def relatesNumber (oper : OperType) (n : Int) : Value → Bool
  | .int k => valuesRelate oper (.int k) (.int n)
  | .float x => valuesRelate oper (.float x) (.float (.ofInt n))
  | .string _ => false

/-- Left row `l` stands in the comparison to the aggregate over these rows of
the right table, of which there are some. -/
def scalarPasses (oper : OperType) (c : ColData) (right : TableData) (p : Projection) (l : Nat)
    (rows : List Nat) : Bool :=
  !rows.isEmpty && ((c.value? l).any (relatesNumber oper (aggregateOf right p rows)))

/-- The comparison of a FLOAT left value with a held aggregate, which is
converted to `double`. -/
def relatesHeld (oper : OperType) (n : Int) : Value → Bool
  | .float x => compareByOperator doubleComparison oper x (.ofInt64 n)
  | _ => false

/-- Left row `l` passes with these rows as the aggregate is held and compared. -/
def scalarPassesHeld (oper : OperType) (c : ColData) (right : TableData) (p : Projection)
    (l : Nat) (rows : List Nat) : Bool :=
  !rows.isEmpty && ((c.value? l).any (relatesHeld oper (heldAggregate right p rows)))

/-- The left value is read from `floatvec`, whatever the type of the column. -/
theorem leftValue_eq_none {c : ColData} (hown : c.OneVector) (hne : c.type ≠ .float)
    (lvColumn : String) (i : Nat) : leftValue (lvType lvColumn) c i = none := by
  have hnil : c.floatvec = [] := hown.float hne
  simp [leftValue, lvType, ColMap.get, hnil]

theorem leftValue_float {c : ColData} (hfloat : c.type = .float) {i : Nat} {v : Value}
    (hv : c.value? i = some v) (lvColumn : String) :
    ∃ x, v = .float x ∧
      leftValue (lvType lvColumn) c i = some { varFloat := x, type := .empty } := by
  unfold ColData.value? at hv
  simp only [hfloat, Option.map_eq_some_iff] at hv
  obtain ⟨x, hx, rfl⟩ := hv
  exact ⟨x, rfl, by simp [leftValue, lvType, ColMap.get, hx]⟩

/-- **The verdict on a left row**: without a FLOAT column to compare there is
none. -/
theorem scalarVerdict_decides {right final : TableData} {m : Nat} (hright : right.WellFormed m)
    (hown : ∀ name ∈ right.tableData, (right.tableData.get name).OneVector) {a : String}
    (ha : a ∈ final.tableData) (hleft : (final.tableData.get a).OneVector)
    {dependency : Dependency}
    (hfilters : Correlates final.tableData right.tableData dependency.dependencyFilter)
    (hfloat : NoFloat final.tableData dependency.dependencyFilter)
    (hne : dependency.dependencyFilter ≠ []) {p : Projection}
    (hprojection : dependency.dependencyProjection = [p]) (hp : IntResult right m p) {f : Filter}
    (hf : f.lv.value[0]? = some a) (isGroupby : Bool) (hash : HashTable) :
    Decides (scalarVerdict isGroupby f dependency right) final hash fun l =>
      if (final.tableData.get a).type = .float then
        some (scalarPassesHeld f.operator (final.tableData.get a) right p l
          (narrowRows dependency.dependencyFilter final.tableData right.tableData m l))
      else none := by
  intro t k l hpart hcount hl
  have hmem := (hpart.names a).mpr ha
  have hgrown := hpart.grown a hmem
  unfold scalarVerdict
  rw [hf, hprojection]
  by_cases htype : (final.tableData.get a).type = .float
  · obtain ⟨v, hv⟩ := ColData.value?_isSome (hpart.length a hmem) hl
    obtain ⟨x, rfl, hlv⟩ := leftValue_float (hgrown.type.trans htype) hv a
    obtain ⟨filtered, hfiltered, hrows⟩ : ∃ filtered, filteredTable
        (compareLeftTyped t.tableData right.tableData l) dependency.dependencyFilter false right =
          some filtered ∧
        RowsOf right (narrowRows dependency.dependencyFilter final.tableData right.tableData m l)
          filtered :=
      filteredTable_spec (fun _ _ _ => rfl) hpart hright hown hl hfilters hfloat
        fun hnil => absurd hnil hne
    obtain ⟨projected, haggregation, hhead⟩ :=
      hrows.aggregation hright (fun r => lt_of_mem_narrowRows) hp isGroupby
    have hprojected : aggregation isGroupby filtered [p] (dependencyAlias [p].length) {} =
        some projected := haggregation
    simp only [Option.bind_eq_bind, Option.bind_some, hlv, hfiltered, hprojected, hhead,
      if_pos htype, scalarPassesHeld, hgrown.value? hv, Option.any_some]
    by_cases hempty :
        narrowRows dependency.dependencyFilter final.tableData right.tableData m l = []
    · simp [hempty, compareScalar]
    · simp [hempty, compareScalar, countColumn, relatesHeld]
  · have hlv := leftValue_eq_none (hgrown.oneVector hleft) (hgrown.type ▸ htype) a l
    simp [hlv, htype]

/-- `SUM(key)`. -/
def keySum : Projection where
  selectType := .sum
  value := ["key"]
  valueType := [.column]

/-- `id = (SELECT SUM(key) FROM right WHERE id = key)`. -/
def sumOfKeys : Dependency := { idEqualsKey with dependencyProjection := [keySum] }

def idEqualsSum : Filter := { lv := ⟨[.column], ["id"]⟩, operator := .eq }

/-- Two orders, one of them dearer than the sum of its keys. -/
def orderPrices : TableData where
  tableData := ((∅ : ColMap).insert "id"
    { type := .int, intvec := [1, 2], isnull := [false, false], rowCount := 2 }).insert "price"
    { type := .float, floatvec := [.fin 3, .fin (3 / 2)], isnull := [false, false], rowCount := 2 }
  rowCount := 2
  status := .workDone

theorem mem_orderPrices {name : String} :
    name ∈ orderPrices.tableData ↔ name = "price" ∨ name = "id" := by
  simp [orderPrices, -AList.insert_empty]

theorem orderPrices_snapshots : Snapshots [orderPrices] orderPrices 2 := by
  have hwell : orderPrices.WellFormed 2 := by
    constructor
    case count => rfl
    case column =>
      intro name hname
      rcases mem_orderPrices.mp hname with rfl | rfl <;> exact ⟨rfl, rfl, rfl⟩
    case stored =>
      intro name hname
      rcases mem_orderPrices.mp hname with rfl | rfl <;> decide
  exact ⟨hwell, rfl, ⟨[], rfl⟩, nofun, List.pairwise_singleton _ _, fun t ht =>
    ⟨2, List.mem_singleton.mp ht ▸ hwell⟩, fun t ht _ name hname =>
      List.mem_singleton.mp ht ▸ hname⟩

/-- `price > (SELECT SUM(key) FROM right WHERE id = key)`. -/
def priceAboveSum : Filter := { lv := ⟨[.column], ["price"]⟩, operator := .gt }

end KetiEngine.Merging
