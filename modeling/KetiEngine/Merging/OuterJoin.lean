import KetiEngine.Merging.Delivery
import KetiEngine.Merging.InnerJoin

/-!
# OuterJoin — the outer hash joins

`LeftOuterJoin_hash` and `RightOuterJoin_hash`: a hash table over the
finished table, probed by the rows of the streamed one, with a padded row
where the bucket is missing. The two functions are one text with the tables
exchanged; what they differ in is the side of a filter that names the column
of the key.
-/

namespace KetiEngine.Merging

open KetiEngine Loops

/-! ## The source functions -/

/-- A cell of the hashed table: the value of row `row`, but the null flag of
row `i`, the position of `row` in its bucket. -/
def copyBucketCell (c : ColData) (row i : Nat) (d : ColData) : Option ColData := do
  let d ← copyValue c row d
  let b ← c.isnull[i]?
  pure (d.pushNull b)

def copyBucketRow (source : ColMap) (row i : Nat) (target : ColMap) : Option ColMap :=
  source.entries.foldlM
    (fun t e => (copyBucketCell e.2 row i (t.get e.1)).map (t.insert e.1 ·)) target

/-- The pushes for a column of the hashed table where no row matches. -/
def padCell (c d : ColData) : ColData :=
  let d :=
    match c.type with
    | .int | .date => { d with intvec := d.intvec ++ [0] }
    | .string => { d with strvec := d.strvec ++ [""] }
    | .float => { d with floatvec := d.floatvec ++ [Double.fin 0], realSize := c.realSize }
    | .empty | .boolean => d
  d.pushNull true

def padRow (source target : ColMap) : ColMap :=
  source.entries.foldl (fun t e => t.modify e.1 (padCell e.2)) target

/-- `table_data[name]` for each name: a missing column comes into being. -/
def touchColumns (t : ColMap) (names : List String) : ColMap :=
  names.foldl (fun t name => t.insertNew name {}) t

/-- The branch `passed`: one row for each entry of the bucket. -/
def matchedRows (streamed hashed : ColMap) (bucket : List Nat) (r : Nat) (target : TableData) :
    Option TableData :=
  bucket.zipIdx.foldlM (fun target p => do
    let td ← copyRow streamed r target.tableData
    let td ← copyBucketRow hashed p.1 p.2 td
    pure { target with tableData := td, rowCount := target.rowCount + 1 }) target

/-- The other branch: one row with defaults in the columns of the hashed
table. -/
def unmatchedRow (streamed hashed : ColMap) (r : Nat) (target : TableData) :
    Option TableData := do
  let td ← copyRow streamed r target.tableData
  pure { target with tableData := padRow hashed td, rowCount := target.rowCount + 1 }

/-- Row `r` of the streamed table. Its columns are the ones that are there
after the key has been read. -/
def outerJoinRow (probe : Filter → FilterValue) (filtering : List Filter) (hash : HashTable)
    (hashed streamed : ColMap) (target : TableData) (r : Nat) : Option TableData := do
  let columns ← equalJoinColumns probe filtering
  let streamed := touchColumns streamed columns
  let key ← leftOuterJoinProbeKey streamed columns r
  if key ∈ hash then matchedRows streamed hashed (hash.bucket key) r target
  else unmatchedRow streamed hashed r target

/-- What the loop does with a delivered table that has new rows. -/
def outerJoinDelivered (probe : Filter → FilterValue) (filtering : List Filter)
    (hash : HashTable) (hashed : ColMap) (rowIndex : Int) (first : Bool)
    (streamed target : TableData) : Option TableData :=
  let target :=
    if first then { target with tableData := setTypes streamed.tableData target.tableData }
    else target
  (rowsFrom rowIndex streamed.rowCount).foldlM
    (outerJoinRow probe filtering hash hashed streamed.tableData) target

/-- An outer join: the hash table is built on the `build` side of the
filters and looked up with the `probe` side. -/
def outerJoinHash (build probe : Filter → FilterValue) (filtering : List Filter)
    (hashed : TableData) (delivered : List TableData) : Option TableData := do
  let equalJoinColumn ← equalJoinColumns build filtering
  let hash ← createHashTable hashed equalJoinColumn ∅
  deliveredLoop (outerJoinDelivered probe filtering hash hashed.tableData) 0 true
    { tableData := setTypes hashed.tableData ∅ } delivered

/-- `LeftOuterJoin_hash`: `target_table_` at its end. -/
def leftOuterJoinHash (filtering : List Filter) (right : TableData) (left : List TableData) :
    Option TableData :=
  outerJoinHash Filter.rv Filter.lv filtering right left

/-- `RightOuterJoin_hash`. The rows of the right table are looked up with the
left side of the filters too. -/
def rightOuterJoinHash (filtering : List Filter) (left : TableData) (right : List TableData) :
    Option TableData :=
  outerJoinHash Filter.lv Filter.lv filtering left right

/-! ## Cells of the hashed table -/

/-- A match of a streamed row: the matching row and its position among the
matches. -/
abbrev Match := Nat × Nat

/-- The value of a padded cell. -/
def defaultValue : VectorType → Value
  | .string => .string ""
  | .float => .float (.fin 0)
  | .int | .date | .empty | .boolean => .int 0

/-- What a column of the hashed table gets for a streamed row. -/
def outerCell (c : ColData) : Option Match → Option Cell
  | none => some ⟨defaultValue c.type, true⟩
  | some (row, i) =>
      match c.value? row, c.isnull[i]? with
      | some v, some b => some ⟨v, b⟩
      | _, _ => none

theorem outerCell_eq_some_iff {c : ColData} {row i : Nat} {x : Cell} :
    outerCell c (some (row, i)) = some x ↔
      c.value? row = some x.value ∧ c.isnull[i]? = some x.isnull := by
  obtain ⟨v, b⟩ := x
  unfold outerCell
  cases hv : c.value? row with
  | none => simp [hv]
  | some w =>
    cases hb : c.isnull[i]? with
    | none => simp [hv, hb]
    | some b' => simp [hv, hb]

theorem copyBucketCell_spec {c d : ColData} {row i : Nat} {x : Cell} (hc : c.Stored)
    (hx : outerCell c (some (row, i)) = some x) :
    ∃ d', copyBucketCell c row i d = some d' ∧ d'.type = d.type ∧
      ∀ xs, HoldsCells d c.type xs → HoldsCells d' c.type (xs ++ [x]) := by
  obtain ⟨hv, hb⟩ := outerCell_eq_some_iff.mp hx
  obtain ⟨d', hd', htype, hholds⟩ := copyValue_spec (d := d) hc hv x.isnull
  exact ⟨d'.pushNull x.isnull, by simp [copyBucketCell, hd', hb], htype, hholds⟩

theorem padCell_spec {c : ColData} (hc : c.Stored) (d : ColData) :
    (padCell c d).type = d.type ∧
      ∀ xs, HoldsCells d c.type xs →
        HoldsCells (padCell c d) c.type (xs ++ [⟨defaultValue c.type, true⟩]) := by
  unfold padCell
  rcases hc with ht | ht | ht | ht <;> rw [ht]
  all_goals
    refine ⟨rfl, fun xs h => ?_⟩
    constructor
    case kind =>
      intro w hw
      rw [List.map_append, List.mem_append] at hw
      rcases hw with hw | hw
      · exact h.kind w hw
      · obtain rfl := List.mem_singleton.mp hw
        trivial
    all_goals
      simp [ColData.pushNull, h.str, h.int, h.float, h.null, h.count, defaultValue,
        Value.string?, Value.int?, Value.float?]

/-- Padding is a loop that appends one cell to every column, too. -/
theorem padRow_eq (source target : ColMap) :
    some (padRow source target) = source.entries.foldlM
      (fun t e => (some (padCell e.2 (ColMap.get t e.1))).map (t.insert e.1 ·)) target :=
  (foldlM_of_forall (fun _ _ _ => rfl) target).symm

/-! ## What the target table holds -/

/-- The target table after the rows `rows`: each is a row of the streamed
table with its match in the hashed one. Before a first table with rows has
been delivered the columns of the streamed table are not there. -/
structure OuterState (streamed hashed : ColMap) (first : Bool)
    (rows : List (Nat × Option Match)) (target : TableData) : Prop where
  count : target.rowCount = rows.length
  streamedCells : CopiesOf streamed (rows.map Prod.fst) target.tableData
  hashedCells : ∀ name ∈ hashed, HoldsCells (target.tableData.get name) (hashed.get name).type
    (rows.filterMap fun p => outerCell (hashed.get name) p.2)
  streamedTyped : first = false → Typed streamed target.tableData
  hashedTyped : Typed hashed target.tableData
  names : ∀ name, name ∈ target.tableData ↔ name ∈ hashed ∨ (first = false ∧ name ∈ streamed)

section
variable {streamed part hashed : ColMap} {rows : List (Nat × Option Match)}
  {target : TableData} {k m r : Nat}

/-- A streamed row, and one cell in every column of the hashed table. -/
theorem OuterState.row (hpart : PartOf part streamed k) (hr : r < k)
    (hdisjoint : ∀ name ∈ streamed, name ∉ hashed) {o : Option Match}
    {f : ColData → ColData → Option ColData}
    (hf : ∀ name ∈ hashed, ∃ x, outerCell (hashed.get name) o = some x ∧
      ∀ d, ∃ d', f (hashed.get name) d = some d' ∧ d'.type = d.type ∧
        ∀ xs, HoldsCells d (hashed.get name).type xs →
          HoldsCells d' (hashed.get name).type (xs ++ [x]))
    (h : OuterState streamed hashed false rows target) :
    ∃ td td', copyRow part r target.tableData = some td ∧
      hashed.entries.foldlM
        (fun t e => (f e.2 (ColMap.get t e.1)).map (t.insert e.1 ·)) td = some td' ∧
      OuterState streamed hashed false (rows ++ [(r, o)])
        { target with tableData := td', rowCount := target.rowCount + 1 } := by
  let cells : String → Cell := fun name => (outerCell (hashed.get name) o).getD ⟨.int 0, false⟩
  have hcells : ∀ name ∈ hashed, outerCell (hashed.get name) o = some (cells name) := by
    intro name hname
    obtain ⟨x, hx, -⟩ := hf name hname
    simp [cells, hx]
  obtain ⟨td, hrun, hnames, hother, htypes, hcopies⟩ :=
    copyRow_copies (hpart.sameRow hr) target.tableData
  obtain ⟨td', hrun', hnames', hother', hhashed⟩ :=
    @appendCells_spec hashed td f cells fun name hname d => by
      obtain ⟨x, hx, hd⟩ := hf name hname
      have hcell : cells name = x := by simp [cells, hx]
      exact hcell ▸ hd d
  have hkeep : ∀ name ∈ hashed, td.get name = target.tableData.get name := fun name hname =>
    hother name fun hs => hdisjoint name hs hname
  have hkeep' : ∀ name ∈ streamed, td'.get name = td.get name := fun name hname =>
    hother' name (hdisjoint name hname)
  refine ⟨td, td', hrun, hrun', ?_⟩
  constructor
  case count => simp [h.count]
  case streamedCells =>
    rw [List.map_append]
    exact (hcopies _ h.streamedCells).congr hkeep'
  case hashedCells =>
    intro name hname
    have happend : (rows ++ [(r, o)]).filterMap (fun p => outerCell (hashed.get name) p.2) =
        rows.filterMap (fun p => outerCell (hashed.get name) p.2) ++ [cells name] := by
      simp [hcells name hname]
    rw [happend]
    refine (hhashed name hname).2 _ ?_
    rw [hkeep name hname]
    exact h.hashedCells name hname
  case streamedTyped =>
    intro _ name hname
    rw [hkeep' name hname, htypes name hname]
    exact h.streamedTyped rfl name hname
  case hashedTyped =>
    intro name hname
    rw [(hhashed name hname).1, hkeep name hname]
    exact h.hashedTyped name hname
  case names =>
    intro name
    rw [hnames', hnames, h.names]
    tauto

theorem outerCell_isSome {c : ColData} (hc : c.HasLength m) {row i : Nat} (hrow : row < m)
    (hi : i < m) : ∃ x, outerCell c (some (row, i)) = some x := by
  obtain ⟨v, hv⟩ := ColData.value?_isSome hc hrow
  have hn : i < c.isnull.length := hc.null.symm ▸ hi
  exact ⟨⟨v, c.isnull[i]⟩, by simp [outerCell, hv, List.getElem?_eq_getElem hn]⟩

/-- **A matched row** adds one row for each entry of its bucket. -/
theorem matchedRows_spec (hpart : PartOf part streamed k) (hr : r < k)
    (hhashed : ∀ name ∈ hashed, (hashed.get name).HasLength m ∧ (hashed.get name).Stored)
    (hdisjoint : ∀ name ∈ streamed, name ∉ hashed) {bucket : List Nat}
    (hbucket : ∀ p ∈ bucket.zipIdx, p.1 < m ∧ p.2 < m)
    (h : OuterState streamed hashed false rows target) :
    ∃ target', matchedRows part hashed bucket r target = some target' ∧
      OuterState streamed hashed false (rows ++ bucket.zipIdx.map fun p => (r, some p))
        target' := by
  have hround : ∀ done p rest t, bucket.zipIdx = done ++ p :: rest →
      OuterState streamed hashed false (rows ++ done.map fun p => (r, some p)) t →
      ∃ t', (do
        let td ← copyRow part r t.tableData
        let td ← copyBucketRow hashed p.1 p.2 td
        pure { t with tableData := td, rowCount := t.rowCount + 1 }) = some t' ∧
        OuterState streamed hashed false (rows ++ (done ++ [p]).map fun p => (r, some p)) t' := by
    intro done p rest t hsplit ht
    have hp := hbucket p (by simp [hsplit])
    obtain ⟨td, td', hrun, hrun', hstate⟩ := ht.row hpart hr hdisjoint (o := some p)
      (f := fun c d => copyBucketCell c p.1 p.2 d) fun name hname => by
        obtain ⟨hlen, hstored⟩ := hhashed name hname
        obtain ⟨x, hx⟩ := outerCell_isSome hlen hp.1 hp.2
        exact ⟨x, hx, fun d => copyBucketCell_spec hstored hx⟩
    refine ⟨_, ?_, by simpa using hstate⟩
    simp only [hrun, Option.bind_eq_bind, Option.bind_some, copyBucketRow, hrun']
    rfl
  exact foldlM_total (P := fun done t =>
    OuterState streamed hashed false (rows ++ done.map fun p => (r, some p)) t)
    (by simpa using h) hround

/-- **An unmatched row** adds one padded row. -/
theorem unmatchedRow_spec (hpart : PartOf part streamed k) (hr : r < k)
    (hhashed : ∀ name ∈ hashed, (hashed.get name).HasLength m ∧ (hashed.get name).Stored)
    (hdisjoint : ∀ name ∈ streamed, name ∉ hashed)
    (h : OuterState streamed hashed false rows target) :
    ∃ target', unmatchedRow part hashed r target = some target' ∧
      OuterState streamed hashed false (rows ++ [(r, none)]) target' := by
  obtain ⟨td, td', hrun, hrun', hstate⟩ := h.row hpart hr hdisjoint (o := none)
    (f := fun c d => some (padCell c d)) fun name hname => by
      obtain ⟨-, hstored⟩ := hhashed name hname
      refine ⟨_, rfl, fun d => ⟨_, rfl, ?_⟩⟩
      exact padCell_spec hstored d
  rw [← padRow_eq, Option.some.injEq] at hrun'
  refine ⟨_, ?_, hstate⟩
  simp only [unmatchedRow, hrun, Option.bind_eq_bind, Option.bind_some, hrun']
  rfl

end

end KetiEngine.Merging
