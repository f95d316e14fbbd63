import KetiEngine.Merging.OrderFree

/-!
# BareColumn — a column as an operand, and one result column

`Projection` of a column that stands alone, `Aggregation` with one
projection, and the value it appends. A column whose name is one of the words
`Projection` looks for is not read as a column.
-/

namespace KetiEngine.Merging

open KetiEngine

/-- The column `name` alone. -/
def bareColumn (selectType : SelectType) (name : String) : Projection where
  selectType
  value := [name]
  valueType := [.column]

/-! ## The operand -/

/-- The value is the word `name` and its type is COLUMN. -/
def IsBare (p : Projection) (name : String) : Prop :=
  p.value = [name] ∧ p.valueType[0]? = some .column

theorem isBare_bareColumn (selectType : SelectType) (name : String) :
    IsBare (bareColumn selectType name) name := ⟨rfl, rfl⟩

theorem projection_operand {p : Projection} {name : String} (hp : IsBare p name)
    (hword : name ∉ keywords) (t : ColMap) (r : Nat) :
    projection t p r = columnOperand (rowEnv t r) name := by
  obtain ⟨hvalue, htype⟩ := hp
  simp only [keywords, List.mem_cons, List.not_mem_nil, or_false, not_or] at hword
  obtain ⟨hcase, hsubstring, hextract⟩ := hword
  simp only [projection, projectionValue, hvalue, List.getElem?_cons_zero, Option.bind_eq_bind,
    Option.bind_some, if_neg hcase, if_neg hsubstring, if_neg hextract]
  cases ho : columnOperand (rowEnv t r) name <;>
    simp [postfixValue, postfixStep, hvalue, htype, ho]

theorem projection_bare {p : Projection} {name : String} (hp : IsBare p name) {t : ColMap}
    (h : (t.get name).Stored) (hword : name ∉ keywords) (r : Nat) :
    projection t p r = ((t.get name).value? r).map (valueOperand (t.get name)) := by
  rw [projection_operand hp hword, columnOperand_eq h]

/-- A keyword alone is no expression. -/
theorem projection_keyword {p : Projection} {name : String} (hvalue : p.value = [name])
    (hword : name ∈ keywords) (t : ColMap) (r : Nat) : projection t p r = none := by
  simp only [keywords, List.mem_cons, List.not_mem_nil, or_false] at hword
  rcases hword with rfl | rfl | rfl
  · simp [projection, projectionValue, hvalue, caseValue, caseOffsets, caseWhenThen]
  · simp [projection, projectionValue, hvalue, substringValue]
  · simp [projection, projectionValue, hvalue, extractValue]

section
variable {t : TableData} {n : Nat} {name : String}

theorem projectRows_bareColumn (hw : t.WellFormed n) (hname : name ∈ t.tableData)
    (hword : name ∉ keywords) (selectType : SelectType) (start : Nat) :
    projectRows t (bareColumn selectType name) start =
      some (((valuesOf (t.tableData.get name)).drop start).map
        (valueOperand (t.tableData.get name))) := by
  have hlength := length_valuesOf (hw.column name hname)
  have hcount : t.rowCount.toNat = n := hw.toNat_rowCount
  unfold projectRows
  rw [hcount, Loops.mapM_eq_some_iff, List.forall₂_iff_get]
  refine ⟨by simp [hlength], fun i hi hi' => ?_⟩
  simp only [List.length_range'] at hi
  have hvalue : (t.tableData.get name).value? (start + i) =
      some ((valuesOf (t.tableData.get name))[start + i]) := by
    rw [← getElem?_valuesOf, List.getElem?_eq_getElem]
  simp only [List.get_eq_getElem, List.getElem_range', Nat.one_mul, List.getElem_map,
    List.getElem_drop]
  rw [projection_bare (isBare_bareColumn selectType name) (hw.stored name hname) hword, hvalue,
    Option.map_some]

/-- The rows of a column, the first one apart. -/
theorem rowsAre_bareColumn (hw : t.WellFormed n) (hn : 0 < n) (hname : name ∈ t.tableData)
    (hword : name ∉ keywords) (selectType : SelectType) :
    ∃ v vs, valuesOf (t.tableData.get name) = v :: vs ∧
      RowsAre t (bareColumn selectType name) (valueOperand (t.tableData.get name) v)
        (vs.map (valueOperand (t.tableData.get name))) := by
  have hrows := projectRows_bareColumn hw hname hword selectType 0
  have hpos : 0 < t.rowCount := hw.rowCount_pos hn
  obtain ⟨first, rest, heq, hare⟩ := rowsAre_of_projectRows hpos hrows
  rw [List.drop_zero] at heq
  obtain ⟨v, vs, hvalues, rfl, rfl⟩ := List.map_eq_cons_iff.mp heq
  exact ⟨v, vs, hvalues, hare⟩

theorem projectRows_keyword (hpos : 0 < t.rowCount) (hword : name ∈ keywords)
    (selectType : SelectType) : projectRows t (bareColumn selectType name) 0 = none := by
  obtain ⟨n, hn⟩ : ∃ n, t.rowCount.toNat = n + 1 := ⟨t.rowCount.toNat - 1, by omega⟩
  unfold projectRows
  rw [hn, Nat.sub_zero, List.range'_succ, List.mapM_cons, projection_keyword rfl hword]
  rfl

end

/-- The tag of a column's operand. -/
theorem type_valueOperand {c : ColData} {v : Value} (h : v ∈ valuesOf c) :
    (valueOperand c v).type = c.type := by
  unfold valuesOf at h
  cases hc : c.type <;> simp only [hc, List.mem_map, List.not_mem_nil] at h
  all_goals
    obtain ⟨a, -, rfl⟩ := h
    simp [valueOperand, hc]

/-! ## The select type -/

section
variable (env : RowEnv) (p : Projection) (selectType : SelectType)

theorem casePassed_select (start : Nat) (offsets : List Nat) :
    casePassed env { p with selectType } start offsets = casePassed env p start offsets := by
  induction offsets generalizing start with
  | nil => rfl
  | cons offset rest ih =>
    simp only [casePassed, ih]
    rfl

theorem caseWhenThen_select (pairs : List (Option Nat × Nat)) :
    caseWhenThen env { p with selectType } pairs = caseWhenThen env p pairs := by
  induction pairs with
  | nil => rfl
  | cons pair rest ih =>
    simp only [caseWhenThen, casePassed_select, ih]
    rfl

/-- `Projection` does not read the select type. -/
theorem projectionValue_select :
    projectionValue env { p with selectType } = projectionValue env p := by
  have hcase : caseValue env { p with selectType } = caseValue env p := by
    simp only [caseValue, caseWhenThen_select]
    rfl
  simp only [projectionValue, hcase]
  rfl

end

theorem projectRows_select (t : TableData) (p : Projection) (selectType : SelectType)
    (start : Nat) : projectRows t { p with selectType } start = projectRows t p start := by
  unfold projectRows projection
  simp only [projectionValue_select]

/-- The aggregates that read an operand have no value of a keyword. -/
theorem projectionColumn_keyword {t : TableData} (hpos : 0 < t.rowCount) {name : String}
    (hword : name ∈ keywords) {selectType : SelectType}
    (hselect : selectType ∈ [SelectType.sum, .avg, .min, .max]) (isGroupby : Bool) :
    projectionColumn isGroupby t (bareColumn selectType name) = none := by
  have hvalue := projection_keyword (p := bareColumn selectType name) rfl hword t.tableData 0
  have hrows := projectRows_keyword hpos hword selectType
  simp only [List.mem_cons, List.not_mem_nil, or_false] at hselect
  unfold projectionColumn
  rw [hvalue, hrows]
  rcases hselect with rfl | rfl | rfl | rfl <;> rfl

/-! ## One projection -/

/-- `Aggregation` with one projection appends its column. -/
theorem aggregation_single {t : TableData} (hrows : t.rowCount ≠ 0) (isGroupby : Bool)
    (p : Projection) (name : String) (dest : TableData) :
    aggregation isGroupby t [p] [name] dest = (projectionColumn isGroupby t p).map fun c =>
      { dest with
        tableData := dest.tableData.modify name (appendColumn c)
        rowCount := dest.rowCount + c.rowCount } := by
  unfold aggregation
  rw [if_neg hrows]
  cases hc : projectionColumn isGroupby t p <;> simp [resultColumn, appendResult, hc]

/-- A column appended to a new one keeps its values. -/
theorem value?_appendColumn_new (c : ColData) : (appendColumn c {}).value? = c.value? := by
  funext i
  unfold appendColumn ColData.value?
  cases c.type <;> simp

/-- The value one projection appends, read from an empty destination. -/
def aggregateValue (isGroupby : Bool) (t : TableData) (p : Projection) : Option Value :=
  (aggregation isGroupby t [p] ["value"] {}).bind fun d => (d.tableData.get "value").value? 0

theorem aggregateValue_eq {t : TableData} (hrows : t.rowCount ≠ 0) (isGroupby : Bool)
    (p : Projection) :
    aggregateValue isGroupby t p = (projectionColumn isGroupby t p).bind fun c => c.value? 0 := by
  unfold aggregateValue
  rw [aggregation_single hrows, Option.bind_map]
  congr 1
  funext c
  simp only [Function.comp_apply, ColMap.get_modify]
  exact congrFun (value?_appendColumn_new c) 0

end KetiEngine.Merging
