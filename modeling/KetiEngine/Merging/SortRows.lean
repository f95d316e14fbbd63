import KetiEngine.Merging.CopyRow
import KetiEngine.Merging.OrderBy

/-!
# SortRows — ORDER BY on a table

`OrderBy` after its comparator: the row numbers are sorted, and every column
is gathered in their order. `std::sort` is a parameter. A call of the
comparator that ends without a value is taken to have returned `false`.
-/

namespace KetiEngine.Merging

open KetiEngine Lexicographic

/-! ## The source function -/

/-- The value a call of the comparator is taken to have. -/
def Outcome.verdict : Outcome → Option Bool
  | .returns b => some b
  | .fallsThrough => some false
  | .outOfRange => none

/-- `std::sort` with its comparator, whose calls may be undefined. -/
abbrev SortFunction := (Nat → Nat → Option Bool) → List Nat → Option (List Nat)

/-- One round of a gather loop: the value and the null flag of row `i`. -/
def gatherRow (c d : ColData) (i : Nat) : Option ColData := do
  let v ← c.value? i
  let b ← c.isnull[i]?
  let d := d.pushValue v
  pure { d with isnull := d.isnull ++ [b] }

/-- The `switch` over the type of a column and what follows it. -/
def gatherColumn (orderedIndex : List Nat) (c d : ColData) : Option ColData := do
  let d ←
    (match c.type with
    | .int | .date | .string => orderedIndex.foldlM (gatherRow c) d
    | .float =>
        (orderedIndex.foldlM (gatherRow c) d).map fun d => { d with realSize := c.realSize }
    | .empty | .boolean => some d)
  pure { d with type := c.type, rowCount := c.rowCount }

/-- `OrderBy`; `orderedIndex` is `ordered_index_` before the call. -/
def orderBy (sort : SortFunction) (t : TableData) (orders : Order) (orderedIndex : List Nat)
    (dest : TableData) : Option TableData :=
  if t.rowCount = 0 then some t
  else do
    let orderedIndex ← sort (fun i j => (orderComparator t.tableData orders i j).verdict)
      (orderedIndex ++ List.range t.rowCount.toNat)
    let tableData ← t.tableData.entries.foldlM
      (fun m e => (gatherColumn orderedIndex e.2 (m.get e.1)).map (m.insert e.1 ·)) dest.tableData
    pure { dest with tableData, rowCount := t.rowCount }

/-! ## What is asked of `std::sort` -/

/-- On a comparator that is defined and a strict weak order on the elements,
the sort leaves a permutation in which no element is less than one before
it. -/
def Sorts (sort : SortFunction) : Prop :=
  ∀ (less : Nat → Nat → Option Bool) (l : List Nat), (∀ i ∈ l, ∀ j ∈ l, (less i j).isSome) →
    IsStrictWeakOrder {i // i ∈ l} (fun i j => less i j = some true) →
    ∃ l', sort less l = some l' ∧ l'.Perm l ∧ l'.Pairwise fun i j => less j i ≠ some true

/-! ## One column -/

/-- A column after the push of a value and of a null flag. -/
theorem HoldsCells.push {d : ColData} {type : VectorType} {xs : List Cell}
    (h : HoldsCells d type xs) {x : Cell} (hkind : type.Accepts x.value) :
    HoldsCells ((d.pushValue x.value).pushNull x.isnull) type (xs ++ [x]) := by
  obtain ⟨v, b⟩ := x
  constructor
  case kind =>
    intro w hw
    rw [List.map_append, List.mem_append] at hw
    rcases hw with hw | hw
    · exact h.kind w hw
    · obtain rfl := List.mem_singleton.mp hw
      exact hkind
  all_goals
    cases v <;>
      simp [ColData.pushNull, ColData.pushValue, h.str, h.int, h.float, h.null, h.count,
        Value.string?, Value.int?, Value.float?]

theorem accepts_of_value? {c : ColData} {i : Nat} {v : Value} (hv : c.value? i = some v) :
    c.type.Accepts v := by
  unfold ColData.value? at hv
  cases ht : c.type <;> simp only [ht, Option.map_eq_some_iff, reduceCtorEq] at hv
  all_goals
    obtain ⟨a, -, rfl⟩ := hv
    trivial

/-- The row count is set after the loop only. -/
theorem gatherRow_spec {c d : ColData} {i : Nat} {x : Cell} (hx : c.cell? i = some x) :
    ∃ d', gatherRow c d i = some d' ∧ d'.realSize = d.realSize ∧
      ∀ xs, HoldsCells { d with rowCount := xs.length } c.type xs →
        HoldsCells { d' with rowCount := (xs ++ [x]).length } c.type (xs ++ [x]) := by
  obtain ⟨hv, hb⟩ := ColData.cell?_eq_some_iff.mp hx
  refine ⟨_, by rw [gatherRow, hv, hb]; rfl, by cases x.value <;> rfl, fun xs h => ?_⟩
  have hpush := h.push (accepts_of_value? hv)
  rw [List.length_append]
  cases hvalue : x.value <;> simpa [hvalue, ColData.pushValue, ColData.pushNull] using hpush

/-- `d` is the column `c` with its cells in this order. The decimals are a
part of a FLOAT column; elsewhere the field is unused. -/
structure Gathered (order : List Nat) (c d : ColData) : Prop where
  type : d.type = c.type
  realSize : d.realSize = if c.type = .float then c.realSize else 0
  rowCount : d.rowCount = c.rowCount
  cells : HoldsCells d c.type (cellsOf c order)

/-- **Gathering a column** gives its cells in the order of the rows. -/
theorem gatherColumn_spec {c : ColData} {n : Nat} (hlength : c.HasLength n) (hstored : c.Stored)
    {order : List Nat} (horder : ∀ i ∈ order, i < n) (hn : order.length = n) :
    ∃ d, gatherColumn order c {} = some d ∧ Gathered order c d := by
  obtain ⟨d, hrun, hsize, hcells⟩ : ∃ d, order.foldlM (gatherRow c) {} = some d ∧
      d.realSize = 0 ∧
      HoldsCells { d with rowCount := (cellsOf c order).length } c.type (cellsOf c order) := by
    refine Loops.foldlM_total (P := fun done (d : ColData) => d.realSize = 0 ∧ HoldsCells
      { d with rowCount := (cellsOf c done).length } c.type (cellsOf c done)) ?_ ?_
    · exact ⟨rfl, holdsCells_nil _ _⟩
    · rintro done i rest d hsplit ⟨hsize, hcells⟩
      obtain ⟨x, hx⟩ := ColData.cell?_isSome hlength (horder i (by simp [hsplit]))
      obtain ⟨d', hrow, hsize', hnext⟩ := gatherRow_spec (d := d) hx
      have happend : cellsOf c (done ++ [i]) = cellsOf c done ++ [x] := by simp [cellsOf, hx]
      exact ⟨d', hrow, hsize'.trans hsize, happend ▸ hnext _ hcells⟩
  have hcount : c.rowCount = (cellsOf c order).length := by
    rw [length_cellsOf hlength horder, hn, hlength.count]
  refine ⟨{ d with
    type := c.type
    rowCount := c.rowCount
    realSize := if c.type = .float then c.realSize else 0 }, ?_, rfl, rfl, rfl,
    hcells.str, hcells.int, hcells.float, hcells.null, hcount, hcells.kind⟩
  unfold gatherColumn
  rw [hrun]
  rcases hstored with ht | ht | ht | ht <;> simp [ht, ← hsize]

/-! ## The table -/

/-- `d` has the rows of `t` in this order: in every column the cells of row
`order[k]` are those of row `k`. -/
structure RowsInOrder (t : TableData) (order : List Nat) (d : TableData) : Prop where
  names : ∀ name, name ∈ d.tableData ↔ name ∈ t.tableData
  cells : ∀ name ∈ t.tableData, ∀ k, (d.tableData.get name).cell? k =
    order[k]?.bind (t.tableData.get name).cell?
  type : ∀ name ∈ t.tableData, (d.tableData.get name).type = (t.tableData.get name).type
  realSize : ∀ name ∈ t.tableData, (d.tableData.get name).realSize =
    if (t.tableData.get name).type = .float then (t.tableData.get name).realSize else 0
  rowCount : ∀ name ∈ t.tableData,
    (d.tableData.get name).rowCount = (t.tableData.get name).rowCount
  count : d.rowCount = t.rowCount

/-- Only FLOAT columns have decimal places; the others are never given any. -/
def DecimalsInFloats (t : TableData) : Prop :=
  ∀ name ∈ t.tableData, (t.tableData.get name).type ≠ .float → (t.tableData.get name).realSize = 0

section
variable {t d : TableData} {n : Nat} {orders : Order} {order : List Nat}

theorem RowsInOrder.realSize_eq (h : RowsInOrder t order d) (ht : DecimalsInFloats t) :
    ∀ name ∈ t.tableData, (d.tableData.get name).realSize = (t.tableData.get name).realSize := by
  intro name hname
  rw [h.realSize name hname]
  split
  · rfl
  · rename_i hfloat
    rw [ht name hname hfloat]

/-- A table all of whose columns are gathered in one order. -/
theorem rowsInOrder_of_gathered (hw : t.WellFormed n) (horder : ∀ i ∈ order, i < n)
    (hlength : order.length = n) (hnames : ∀ name, name ∈ d.tableData ↔ name ∈ t.tableData)
    (hcount : d.rowCount = t.rowCount)
    (h : ∀ name ∈ t.tableData, Gathered order (t.tableData.get name) (d.tableData.get name)) :
    RowsInOrder t order d ∧ d.WellFormed n := by
  constructor
  · constructor
    case names => exact hnames
    case cells =>
      intro name hname k
      rw [(h name hname).cells.cell? (h name hname).type,
        getElem?_cellsOf (hw.column name hname) horder]
    case type => exact fun name hname => (h name hname).type
    case realSize => exact fun name hname => (h name hname).realSize
    case rowCount => exact fun name hname => (h name hname).rowCount
    case count => exact hcount
  · constructor
    case count => rw [hcount, hw.count]
    case column =>
      intro name hname
      have hin := (hnames name).mp hname
      rw [← hlength, ← length_cellsOf (hw.column name hin) horder]
      exact (h name hin).cells.hasLength (h name hin).type
    case stored =>
      intro name hname
      have hin := (hnames name).mp hname
      unfold ColData.Stored
      rw [(h name hin).type]
      exact hw.stored name hin

/-- **The gather loops** put the rows in the order the sort has left. -/
theorem orderBy_gathers {sort : SortFunction} (hw : t.WellFormed n) (hn : 0 < n)
    (hsort : sort (fun i j => (orderComparator t.tableData orders i j).verdict) (List.range n) =
      some order) (hperm : order.Perm (List.range n)) :
    ∃ d, orderBy sort t orders [] {} = some d ∧ RowsInOrder t order d ∧ d.WellFormed n := by
  have hlt : ∀ i ∈ order, i < n := fun i hi => List.mem_range.mp (hperm.mem_iff.mp hi)
  have hlength : order.length = n := by rw [hperm.length_eq, List.length_range]
  have hcolumn : ∀ name ∈ t.tableData, ∃ d, gatherColumn order (t.tableData.get name) {} = some d ∧
      Gathered order (t.tableData.get name) d := fun name hname =>
    gatherColumn_spec (hw.column name hname) (hw.stored name hname) hlt hlength
  -- the destination is empty, so every column meets a new one
  have hnew : ∀ name, ColMap.get ∅ name = {} := fun name => ColMap.get_of_notMem (by simp)
  have hentries : ∀ name ∈ t.tableData, gatherColumn order (t.tableData.get name)
      (ColMap.get ∅ name) = some ((gatherColumn order (t.tableData.get name) {}).getD {}) := by
    intro name hname
    obtain ⟨d, hd, -⟩ := hcolumn name hname
    rw [hnew, hd, Option.getD_some]
  obtain ⟨m, hrun, hmem, -, hget⟩ := ColMap.foldlM_entries hentries
  have hrows := rowsInOrder_of_gathered (d := { tableData := m, rowCount := t.rowCount }) hw hlt
    hlength (fun name => by simp [hmem]) rfl fun name hname => by
      obtain ⟨d, hd, hgathered⟩ := hcolumn name hname
      rw [hget name hname, hd, Option.getD_some]
      exact hgathered
  have hnonempty : t.rowCount ≠ 0 := (hw.rowCount_pos hn).ne'
  refine ⟨_, ?_, hrows⟩
  unfold orderBy
  rw [if_neg hnonempty, List.nil_append, hw.count, Int.toNat_natCast, hsort, Option.bind_eq_bind,
    Option.bind_some, hrun]
  rfl

/-- The order of a column reads its values only. -/
theorem columnOrder_of_values {c c' : ColData} (htype : c'.type = c.type) {i j k l : Nat}
    {v w : Value} (hi : c'.value? i = some v) (hk : c.value? k = some v)
    (hj : c'.value? j = some w) (hl : c.value? l = some w) :
    columnOrder c' i j = columnOrder c k l := by
  unfold ColData.value? at hi hk hj hl
  unfold columnOrder
  rw [htype] at hi hj ⊢
  cases ht : c.type <;> simp only [ht, Option.map_eq_some_iff, reduceCtorEq] at hi hk hj hl ⊢
  all_goals
    obtain ⟨a, ha, rfl⟩ := hi
    obtain ⟨b, hb, rfl⟩ := hj
    obtain ⟨a', ha', he⟩ := hk
    obtain ⟨b', hb', he'⟩ := hl
    cases he
    cases he'
    simp [compareOn, ha, hb, ha', hb']

theorem directed_congr (dir : OrderDirection) {cmp cmp' : Nat → Nat → Ordering} {i j k l : Nat}
    (h : cmp i j = cmp' k l) (hswap : cmp j i = cmp' l k) :
    directed dir cmp i j = directed dir cmp' k l := by
  cases dir with
  | asc => exact h
  | desc => exact hswap

/-- The rows of the destination are ordered as the rows they come from. -/
theorem RowsInOrder.rowOrder_eq (h : RowsInOrder t order d) (hw : t.WellFormed n)
    (ho : OrdersBy t.tableData orders) {i j k l : Nat} (hi : order[i]? = some k)
    (hj : order[j]? = some l) (hk : k < n) (hl : l < n) :
    rowOrder d.tableData orders i j = rowOrder t.tableData orders k l := by
  have hvalue : ∀ name ∈ orders.columnName, ∀ a b : Nat, order[a]? = some b → b < n →
      ∃ v, (d.tableData.get name).value? a = some v ∧ (t.tableData.get name).value? b = some v := by
    intro name hname a b hab hb
    have hin := ho.columns name hname
    obtain ⟨x, hx⟩ := ColData.cell?_isSome (hw.column name hin) hb
    have hxd : (d.tableData.get name).cell? a = some x := by rw [h.cells name hin, hab]; exact hx
    exact ⟨x.value, ColData.value?_of_cell? hxd, ColData.value?_of_cell? hx⟩
  refine lexicographic_congr fun p hp => ?_
  have hname := (List.of_mem_zip hp).1
  have htype := h.type p.1 (ho.columns p.1 hname)
  obtain ⟨v, hvi, hvk⟩ := hvalue p.1 hname i k hi hk
  obtain ⟨w, hwj, hwl⟩ := hvalue p.1 hname j l hj hl
  exact directed_congr p.2 (columnOrder_of_values htype hvi hvk hwj hwl)
    (columnOrder_of_values htype hwj hwl hvi hvk)

/-- On the rows of the table the comparator is the order of the rows. -/
theorem verdict_spec (hw : t.WellFormed n) (ho : OrdersBy t.tableData orders) {i j : Nat}
    (hi : i < n) (hj : j < n) :
    ((orderComparator t.tableData orders i j).verdict).isSome ∧
      ((orderComparator t.tableData orders i j).verdict = some true ↔
        rowOrder t.tableData orders i j = .lt) := by
  rw [orderComparator_spec hw ho hi hj]
  cases rowOrder t.tableData orders i j <;> simp [outcomeOf, Outcome.verdict]

/-- **ORDER BY sorts rows as units**: the destination has the rows of the
table in an order in which no row comes after a greater one. -/
theorem orderBy_sorts {sort : SortFunction} (hsort : Sorts sort) (hw : t.WellFormed n) (hn : 0 < n)
    (ho : OrdersBy t.tableData orders) :
    ∃ d order, orderBy sort t orders [] {} = some d ∧ order.Perm (List.range n) ∧
      RowsInOrder t order d ∧
      (DecimalsInFloats t → ∀ name ∈ t.tableData,
        (d.tableData.get name).realSize = (t.tableData.get name).realSize) ∧
      d.WellFormed n ∧ ∀ i j, i < j → j < n → rowOrder d.tableData orders i j ≠ .gt := by
  have htrans := transCmp_rowOrder t.tableData orders
  have hdefined : ∀ i ∈ List.range n, ∀ j ∈ List.range n,
      ((orderComparator t.tableData orders i j).verdict).isSome := fun i hi j hj =>
    (verdict_spec hw ho (List.mem_range.mp hi) (List.mem_range.mp hj)).1
  have hweak : IsStrictWeakOrder {i // i ∈ List.range n} fun i j =>
      (orderComparator t.tableData orders i j).verdict = some true := by
    have hrelation : (fun i j : {i // i ∈ List.range n} =>
        (orderComparator t.tableData orders i j).verdict = some true) =
        Order.Preimage Subtype.val fun i j => rowOrder t.tableData orders i j = .lt := by
      funext i j
      have hi := List.mem_range.mp i.2
      exact propext (verdict_spec hw ho hi (List.mem_range.mp j.2)).2
    have horder : IsStrictWeakOrder Nat fun i j => rowOrder t.tableData orders i j = .lt :=
      isStrictWeakOrder
    rw [hrelation]
    infer_instance
  obtain ⟨order, hrun, hperm, hpairwise⟩ := hsort _ _ hdefined hweak
  obtain ⟨d, hd, hrows, hwd⟩ := orderBy_gathers hw hn hrun hperm
  refine ⟨d, order, hd, hperm, hrows, hrows.realSize_eq, hwd, fun i j hij hj hgt => ?_⟩
  have hlength : order.length = n := by rw [hperm.length_eq, List.length_range]
  have hi' : i < order.length := by omega
  have hj' : j < order.length := by omega
  have hlt : ∀ k ∈ order, k < n := fun k hk => List.mem_range.mp (hperm.mem_iff.mp hk)
  have hki := hlt _ (List.getElem_mem hi')
  have hlj := hlt _ (List.getElem_mem hj')
  rw [hrows.rowOrder_eq hw ho (List.getElem?_eq_getElem hi') (List.getElem?_eq_getElem hj') hki hlj,
    Std.OrientedCmp.gt_iff_lt] at hgt
  have hnot := List.pairwise_iff_getElem.mp hpairwise i j hi' hj' hij
  exact hnot ((verdict_spec hw ho hlj hki).2.mpr hgt)

end

/-! ## A sort -/

/-- Merge sort, stable. -/
def mergeSortRows : SortFunction := fun less l =>
  some ((l.attach.mergeSort fun i j => less j i ≠ some true).map Subtype.val)

theorem sorts_mergeSortRows : Sorts mergeSortRows := by
  intro less l _ horder
  have htrans : ∀ a b c : {i // i ∈ l}, less b a ≠ some true → less c b ≠ some true →
      less c a ≠ some true := by
    intro a b c hba hcb hca
    by_cases hab : less a b = some true
    · exact hcb (horder.trans c a b hca hab)
    by_cases hbc : less b c = some true
    · exact hba (horder.trans b c a hbc hca)
    -- `a` and `b` are incomparable, and `b` and `c`
    exact (horder.incomp_trans a b c ⟨hab, hba⟩ ⟨hbc, hcb⟩).2 hca
  have htotal : ∀ a b : {i // i ∈ l}, less b a ≠ some true ∨ less a b ≠ some true := by
    intro a b
    by_contra h
    push Not at h
    exact horder.irrefl a (horder.trans a b a h.2 h.1)
  refine ⟨_, rfl, ?_, ?_⟩
  · have hperm := (List.mergeSort_perm l.attach fun i j => less j i ≠ some true).map Subtype.val
    rwa [List.attach_map_subtype_val] at hperm
  · rw [List.pairwise_map]
    have hpairwise : (l.attach.mergeSort fun i j => less j.1 i.1 ≠ some true).Pairwise
        fun (i j : {i // i ∈ l}) => decide (less j.1 i.1 ≠ some true) = true :=
      List.pairwise_mergeSort
        (fun a b c hab hbc => by simpa using htrans a b c (by simpa using hab) (by simpa using hbc))
        (fun a b => by simpa using htotal a b) l.attach
    exact hpairwise.imp fun h => by simpa using h

/-- `ORDER BY n DESC` on the rows 7, 3, 7. -/
theorem orderBy_sorts_numbers :
    ∃ d order, orderBy mergeSortRows (numberTable "n" [7, 3, 7] .workDone) ⟨[.desc], ["n"]⟩ [] {} =
        some d ∧ order.Perm (List.range 3) ∧
      RowsInOrder (numberTable "n" [7, 3, 7] .workDone) order d ∧
      (DecimalsInFloats (numberTable "n" [7, 3, 7] .workDone) →
        ∀ name ∈ (numberTable "n" [7, 3, 7] .workDone).tableData,
          (d.tableData.get name).realSize =
            ((numberTable "n" [7, 3, 7] .workDone).tableData.get name).realSize) ∧
      d.WellFormed 3 ∧
      ∀ i j, i < j → j < 3 → rowOrder d.tableData ⟨[.desc], ["n"]⟩ i j ≠ .gt :=
  orderBy_sorts sorts_mergeSortRows (numberTable_wellFormed "n" [7, 3, 7] .workDone) (by decide)
    (ordersBy_numberTable "n" [7, 3, 7] .workDone .desc)

end KetiEngine.Merging
