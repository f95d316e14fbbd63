import KetiEngine.Lib.Loops
import KetiEngine.Table

/-!
# CopyRow — copying rows from one table to another

The loop over the columns of a table with which the join operators and
`GroupBy` copy one row: the value by the column's type, the null flag and the
row count. What a table holds after any number of copies is a list of cells
for each column.
-/

namespace KetiEngine.Merging

open KetiEngine

/-! ## The source loops -/

/-- The `switch` over the column's type. -/
def copyValue (c : ColData) (i : Nat) (d : ColData) : Option ColData :=
  match c.type with
  | .int | .date => c.intvec[i]?.map fun n => { d with intvec := d.intvec ++ [n] }
  | .string => c.strvec[i]?.map fun s => { d with strvec := d.strvec ++ [s] }
  | .float => c.floatvec[i]?.map fun x =>
      { d with floatvec := d.floatvec ++ [x], realSize := c.realSize }
  | .empty | .boolean => some d

def copyCell (c : ColData) (i : Nat) (d : ColData) : Option ColData := do
  let d ← copyValue c i d
  let b ← c.isnull[i]?
  pure (d.pushNull b)

/-- Row `i` of `source`, appended to the columns of `target`. -/
def copyRow (source : ColMap) (i : Nat) (target : ColMap) : Option ColMap :=
  source.entries.foldlM
    (fun t e => (copyCell e.2 i (t.get e.1)).map (t.insert e.1 ·)) target

/-- `table_data[name].type = type` for every column of `source`. -/
def setTypes (source target : ColMap) : ColMap :=
  source.entries.foldl (fun t e => t.modify e.1 fun d => { d with type := e.2.type }) target

/-! ## Columns as lists of cells -/

/-- The vectors of `d` hold the cells `xs`, whose values are of the kind of
`type`. The type of `d` itself may still be unset. -/
structure HoldsCells (d : ColData) (type : VectorType) (xs : List Cell) : Prop where
  str : d.strvec = (xs.map Cell.value).filterMap Value.string?
  int : d.intvec = (xs.map Cell.value).filterMap Value.int?
  float : d.floatvec = (xs.map Cell.value).filterMap Value.float?
  null : d.isnull = xs.map Cell.isnull
  count : d.rowCount = xs.length
  kind : ∀ v ∈ xs.map Cell.value, type.Accepts v

theorem holdsCells_nil (type type' : VectorType) :
    HoldsCells { type := type' } type [] :=
  ⟨rfl, rfl, rfl, rfl, rfl, by simp⟩

theorem HoldsCells.retype {d : ColData} {type : VectorType} {xs : List Cell}
    (h : HoldsCells d type xs) (type' : VectorType) :
    HoldsCells { d with type := type' } type xs :=
  ⟨h.str, h.int, h.float, h.null, h.count, h.kind⟩

/-- Once the type is set, the column reads as the list. -/
theorem HoldsCells.value? {d : ColData} {type : VectorType} {xs : List Cell}
    (h : HoldsCells d type xs) (htype : d.type = type) (k : Nat) :
    d.value? k = (xs.map Cell.value)[k]? := by
  have hkind := h.kind
  unfold ColData.value?
  rw [htype]
  cases type with
  | string =>
    simp only [h.str, ← List.getElem?_map]
    rw [Value.map_filterMap fun v hv => Value.map_string? (hkind v hv)]
  | int =>
    simp only [h.int, ← List.getElem?_map]
    rw [Value.map_filterMap fun v hv => Value.map_int? (hkind v hv)]
  | date =>
    simp only [h.int, ← List.getElem?_map]
    rw [Value.map_filterMap fun v hv => Value.map_int?_date (hkind v hv)]
  | float =>
    simp only [h.float, ← List.getElem?_map]
    rw [Value.map_filterMap fun v hv => Value.map_float? (hkind v hv)]
  | empty | boolean =>
    rw [List.eq_nil_iff_forall_not_mem.mpr fun v hv => hkind v hv]
    rfl

theorem HoldsCells.cell? {d : ColData} {type : VectorType} {xs : List Cell}
    (h : HoldsCells d type xs) (htype : d.type = type) (k : Nat) : d.cell? k = xs[k]? := by
  unfold ColData.cell?
  rw [h.value? htype, h.null, List.getElem?_map, List.getElem?_map]
  cases xs[k]? <;> rfl

theorem HoldsCells.hasLength {d : ColData} {type : VectorType} {xs : List Cell}
    (h : HoldsCells d type xs) (htype : d.type = type) : d.HasLength xs.length := by
  refine ⟨?_, by simp [h.null], h.count⟩
  have hkind := h.kind
  unfold ColData.vecLength
  rw [htype, ← xs.length_map Cell.value]
  cases type with
  | string =>
    simp only [h.str]
    exact Value.length_filterMap fun v hv => Value.map_string? (hkind v hv)
  | int =>
    simp only [h.int]
    exact Value.length_filterMap fun v hv => Value.map_int? (hkind v hv)
  | date =>
    simp only [h.int]
    exact Value.length_filterMap fun v hv => Value.map_int?_date (hkind v hv)
  | float =>
    simp only [h.float]
    exact Value.length_filterMap fun v hv => Value.map_float? (hkind v hv)
  | empty | boolean =>
    rw [List.eq_nil_iff_forall_not_mem.mpr fun v hv => hkind v hv]
    rfl

/-! ## What a copy does -/

/-- The push of a value and of a null flag, by the type of the column. -/
theorem copyValue_spec {c d : ColData} {i : Nat} {v : Value} (hc : c.Stored)
    (hv : c.value? i = some v) (b : Bool) :
    ∃ d', copyValue c i d = some d' ∧ d'.type = d.type ∧
      ∀ xs, HoldsCells d c.type xs → HoldsCells (d'.pushNull b) c.type (xs ++ [⟨v, b⟩]) := by
  unfold copyValue
  unfold ColData.value? at hv
  rcases hc with ht | ht | ht | ht <;> simp only [ht, Option.map_eq_some_iff] at hv
  all_goals
    obtain ⟨a, ha, rfl⟩ := hv
    simp only [ht, ha, Option.map_some]
    refine ⟨_, rfl, rfl, fun xs h => ?_⟩
    constructor
    case kind =>
      intro w hw
      rw [List.map_append, List.mem_append] at hw
      rcases hw with hw | hw
      · exact h.kind w hw
      · obtain rfl := List.mem_singleton.mp hw
        trivial
    all_goals
      simp [ColData.pushNull, h.str, h.int, h.float, h.null, h.count, Value.string?,
        Value.int?, Value.float?]

theorem copyCell_spec {c d : ColData} {i : Nat} {x : Cell} (hc : c.Stored)
    (hx : c.cell? i = some x) :
    ∃ d', copyCell c i d = some d' ∧ d'.type = d.type ∧
      ∀ xs, HoldsCells d c.type xs → HoldsCells d' c.type (xs ++ [x]) := by
  obtain ⟨hv, hb⟩ := ColData.cell?_eq_some_iff.mp hx
  obtain ⟨d', hd', htype, hholds⟩ := copyValue_spec (d := d) hc hv x.isnull
  exact ⟨d'.pushNull x.isnull, by simp [copyCell, hd', hb], htype, hholds⟩

/-- **A loop that appends one cell to every column** of the source, whatever
it makes the cell from: the other columns stay alone. -/
theorem appendCells_spec {source target : ColMap} {f : ColData → ColData → Option ColData}
    {cells : String → Cell}
    (hf : ∀ name ∈ source, ∀ d, ∃ d', f (source.get name) d = some d' ∧ d'.type = d.type ∧
      ∀ xs, HoldsCells d (source.get name).type xs →
        HoldsCells d' (source.get name).type (xs ++ [cells name])) :
    ∃ target', source.entries.foldlM
        (fun t e => (f e.2 (t.get e.1)).map (t.insert e.1 ·)) target = some target' ∧
      (∀ name, name ∈ target' ↔ name ∈ source ∨ name ∈ target) ∧
      (∀ name, name ∉ source → target'.get name = target.get name) ∧
      ∀ name ∈ source, (target'.get name).type = (target.get name).type ∧
        ∀ xs, HoldsCells (target.get name) (source.get name).type xs →
          HoldsCells (target'.get name) (source.get name).type (xs ++ [cells name]) := by
  obtain ⟨target', hrun, hmem, hother, hget⟩ := ColMap.foldlM_entries (f := f)
    (g := fun name => (f (source.get name) (target.get name)).getD {}) fun name hname => by
      obtain ⟨d', hd', -⟩ := hf name hname (target.get name)
      rw [hd', Option.getD_some]
  refine ⟨target', hrun, hmem, hother, fun name hname => ?_⟩
  obtain ⟨d', hd', htype, hholds⟩ := hf name hname (target.get name)
  rw [hget name hname, hd', Option.getD_some]
  exact ⟨htype, hholds⟩

/-- **Copying a row** appends one cell to every column of the source and
leaves the other columns alone. -/
theorem copyRow_spec {source target : ColMap} {i : Nat} {cells : String → Cell}
    (hstored : ∀ name ∈ source, (source.get name).Stored)
    (hcells : ∀ name ∈ source, (source.get name).cell? i = some (cells name)) :
    ∃ target', copyRow source i target = some target' ∧
      (∀ name, name ∈ target' ↔ name ∈ source ∨ name ∈ target) ∧
      (∀ name, name ∉ source → target'.get name = target.get name) ∧
      ∀ name ∈ source, (target'.get name).type = (target.get name).type ∧
        ∀ xs, HoldsCells (target.get name) (source.get name).type xs →
          HoldsCells (target'.get name) (source.get name).type (xs ++ [cells name]) :=
  appendCells_spec (f := fun c d => copyCell c i d) fun name hname _ =>
    copyCell_spec (hstored name hname) (hcells name hname)

/-- A row that a column does not have cannot be copied. -/
theorem copyRow_eq_none {source : ColMap} {name : String} {i : Nat} (hname : name ∈ source)
    (hnull : (source.get name).isnull[i]? = none) (target : ColMap) :
    copyRow source i target = none := by
  have hentry : (⟨name, source.get name⟩ : (_ : String) × ColData) ∈ source.entries :=
    AList.mem_lookup_iff.mp (ColMap.lookup_eq_get hname)
  refine Loops.foldlM_eq_none hentry (fun t => ?_) target
  have hcell : copyCell (source.get name) i (t.get name) = none := by
    unfold copyCell
    cases copyValue (source.get name) i (t.get name) with
    | none => rfl
    | some d => simp [hnull]
  simp [hcell]

theorem setTypes_spec (source target : ColMap) :
    (∀ name, name ∈ setTypes source target ↔ name ∈ source ∨ name ∈ target) ∧
    (∀ name, name ∉ source → (setTypes source target).get name = target.get name) ∧
    ∀ name ∈ source, (setTypes source target).get name =
      { target.get name with type := (source.get name).type } :=
  ColMap.foldl_entries (fun c d => { d with type := c.type }) source target rfl

/-- With a table of the same columns and types as `whole`, it sets the types of
`whole`. -/
theorem setTypes_of_sameTypes {part whole : ColMap} (hnames : ∀ name, name ∈ part ↔ name ∈ whole)
    (htypes : ∀ name ∈ part, (part.get name).type = (whole.get name).type) (target : ColMap) :
    (∀ name, name ∈ setTypes part target ↔ name ∈ whole ∨ name ∈ target) ∧
    (∀ name, name ∉ whole → (setTypes part target).get name = target.get name) ∧
    ∀ name ∈ whole, (setTypes part target).get name =
      { target.get name with type := (whole.get name).type } := by
  obtain ⟨hmem, hother, hget⟩ := setTypes_spec part target
  refine ⟨fun name => ?_, fun name hname => ?_, fun name hname => ?_⟩
  · rw [hmem, hnames]
  · exact hother name fun hp => hname ((hnames name).mp hp)
  · have hp := (hnames name).mpr hname
    rw [hget name hp, htypes name hp]

/-! ## Tables as lists of rows copied -/

/-- The cells of the given rows of a column. -/
def cellsOf (c : ColData) (rows : List Nat) : List Cell := rows.filterMap c.cell?

theorem length_cellsOf {c : ColData} {n : Nat} (h : c.HasLength n) {rows : List Nat}
    (hrows : ∀ i ∈ rows, i < n) : (cellsOf c rows).length = rows.length :=
  List.filterMap_length_eq_length.mpr fun i hi => by
    obtain ⟨x, hx⟩ := ColData.cell?_isSome h (hrows i hi)
    simp [hx]

theorem getElem?_cellsOf {c : ColData} {n : Nat} (h : c.HasLength n) {rows : List Nat}
    (hrows : ∀ i ∈ rows, i < n) (k : Nat) : (cellsOf c rows)[k]? = rows[k]?.bind c.cell? :=
  Loops.getElem?_filterMap (fun i hi => ColData.cell?_isSome h (hrows i hi)) k

/-- The columns of `target` hold the cells of these rows of `source`. -/
def CopiesOf (source : ColMap) (rows : List Nat) (target : ColMap) : Prop :=
  ∀ name ∈ source,
    HoldsCells (target.get name) (source.get name).type (cellsOf (source.get name) rows)

/-- The columns of `target` have the types of `source`. -/
def Typed (source target : ColMap) : Prop :=
  ∀ name ∈ source, (target.get name).type = (source.get name).type

/-- The columns of `part` are well-formed, have `n` rows and are the first
rows of those of `whole`. -/
structure PartOf (part whole : ColMap) (n : Nat) : Prop where
  names : ∀ name, name ∈ part ↔ name ∈ whole
  grown : ∀ name ∈ part, (part.get name).Extends (whole.get name)
  length : ∀ name ∈ part, (part.get name).HasLength n
  stored : ∀ name ∈ part, (part.get name).Stored

theorem PartOf.self {t : TableData} {n : Nat} (h : t.WellFormed n) :
    PartOf t.tableData t.tableData n :=
  ⟨fun _ => Iff.rfl, fun _ _ => .refl _, h.column, h.stored⟩

/-- Row `i` of `part` is row `i` of `whole`. -/
structure SameRow (part whole : ColMap) (i : Nat) : Prop where
  names : ∀ name, name ∈ part ↔ name ∈ whole
  type : ∀ name ∈ part, (part.get name).type = (whole.get name).type
  stored : ∀ name ∈ part, (part.get name).Stored
  cell : ∀ name ∈ part, ∃ x, (part.get name).cell? i = some x ∧ (whole.get name).cell? i = some x

theorem PartOf.sameRow {part whole : ColMap} {n i : Nat} (h : PartOf part whole n) (hi : i < n) :
    SameRow part whole i := by
  refine ⟨h.names, fun name hname => (h.grown name hname).type, h.stored, fun name hname => ?_⟩
  obtain ⟨x, hx⟩ := ColData.cell?_isSome (h.length name hname) hi
  exact ⟨x, hx, (h.grown name hname).cell? hx⟩

/-- Copying row `i` of a part is copying row `i` of the whole. -/
theorem copyRow_copies {part whole : ColMap} {i : Nat} (h : SameRow part whole i)
    (target : ColMap) :
    ∃ target', copyRow part i target = some target' ∧
      (∀ name, name ∈ target' ↔ name ∈ whole ∨ name ∈ target) ∧
      (∀ name, name ∉ whole → target'.get name = target.get name) ∧
      (∀ name ∈ whole, (target'.get name).type = (target.get name).type) ∧
      ∀ rows, CopiesOf whole rows target → CopiesOf whole (rows ++ [i]) target' := by
  let cells : String → Cell := fun name => ((part.get name).cell? i).getD ⟨.int 0, false⟩
  have hcells : ∀ name ∈ part, (part.get name).cell? i = some (cells name) ∧
      (whole.get name).cell? i = some (cells name) := by
    intro name hname
    obtain ⟨x, hx, hwhole⟩ := h.cell name hname
    have hcell : cells name = x := by simp [cells, hx]
    exact hcell ▸ ⟨hx, hwhole⟩
  obtain ⟨target', hrun, hmem, hother, hcopied⟩ :=
    copyRow_spec h.stored fun name hname => (hcells name hname).1
  refine ⟨target', hrun, fun name => ?_, fun name hname => ?_, fun name hname => ?_,
    fun rows hrows name hname => ?_⟩
  · rw [hmem, h.names]
  · exact hother name fun hp => hname ((h.names name).mp hp)
  · exact (hcopied name ((h.names name).mpr hname)).1
  · have hpart := (h.names name).mpr hname
    have htype := h.type name hpart
    have hadd := (hcopied name hpart).2 _ (htype ▸ hrows name hname)
    rw [htype] at hadd
    have happend : cellsOf (whole.get name) (rows ++ [i]) =
        cellsOf (whole.get name) rows ++ [cells name] := by
      simp [cellsOf, (hcells name hpart).2]
    rwa [happend]

theorem CopiesOf.congr {source target target' : ColMap} {rows : List Nat}
    (h : CopiesOf source rows target)
    (hsame : ∀ name ∈ source, target'.get name = target.get name) :
    CopiesOf source rows target' := fun name hname => by
  rw [hsame name hname]
  exact h name hname

/-- What a column of copies reads as, once it has its type. -/
theorem CopiesOf.cell? {source target : ColMap} {rows : List Nat} (h : CopiesOf source rows target)
    (htyped : Typed source target) {n : Nat} {name : String} (hname : name ∈ source)
    (hlength : (source.get name).HasLength n) (hrows : ∀ i ∈ rows, i < n) :
    (target.get name).HasLength rows.length ∧
      ∀ k, (target.get name).cell? k = rows[k]?.bind (source.get name).cell? := by
  have hcells := h name hname
  have htype := htyped name hname
  constructor
  · rw [← length_cellsOf hlength hrows]
    exact hcells.hasLength htype
  · intro k
    rw [hcells.cell? htype, getElem?_cellsOf hlength hrows]

end KetiEngine.Merging
