import KetiEngine.Merging.BareColumn

/-!
# RowWise — projection lists without aggregates

`Aggregation` pushes every value to the vector of its own type, and the
column has the type of the last row. A postfix expression has one type on all
rows of a table; the branches of a `CASE` may differ.
-/

namespace KetiEngine.Merging

open KetiEngine

/-! ## The type of a value on two rows -/

/-- The types of an operator's results are those of its operands' types. -/
def Tagged (oper : T → T → Option (List T)) : Prop :=
  ∃ tags : VectorType → VectorType → List VectorType, ∀ oper1 oper2 results,
    oper oper1 oper2 = some results → results.map T.type = tags oper1.type oper2.type

/-- The types of a sum, by its left operand. -/
def plusTags : VectorType → List VectorType
  | .int => [.int]
  | .float => [.float]
  | _ => []

/-- The types of a difference, product or quotient. -/
def arithmeticTags : VectorType → VectorType → List VectorType
  | .int, .int => [.int]
  | .int, .float | .float, .int | .float, .float => [.float]
  | _, _ => []

theorem tagged_plus : Tagged plus := by
  refine ⟨fun type1 _ => plusTags type1, fun oper1 oper2 results h => ?_⟩
  unfold plus at h
  cases h1 : oper1.type <;> simp only [h1, Option.some.injEq] at h <;> subst h <;> rfl

theorem tagged_arithmetic (onInt : Int → Int → Option Int) (onFloat : Double → Double → Double)
    (size : Int → Int → Int) : Tagged (arithmetic onInt onFloat size) := by
  refine ⟨arithmeticTags, fun oper1 oper2 results h => ?_⟩
  unfold arithmetic at h
  cases h1 : oper1.type <;> cases h2 : oper2.type <;>
    simp only [h1, h2, Option.some.injEq, Option.map_eq_some_iff] at h
  case int.int =>
    obtain ⟨n, -, rfl⟩ := h
    rfl
  all_goals
    subst h
    rfl

theorem tagged_equals : Tagged equals := by
  refine ⟨fun _ _ => [.empty], fun oper1 oper2 results h => ?_⟩
  cases h
  rfl

theorem tagged_notEquals : Tagged notEquals := by
  refine ⟨fun _ _ => [.empty], fun oper1 oper2 results h => ?_⟩
  cases h
  rfl

theorem tagged_like : Tagged like := by
  refine ⟨fun type1 type2 => if type1 = .string ∧ type2 = .string then [.empty] else [],
    fun oper1 oper2 results h => ?_⟩
  unfold like at h
  split at h
  case isTrue hstring =>
    obtain ⟨matched, -, h⟩ := Option.bind_eq_some_iff.mp h
    cases h
    exact (if_pos hstring).symm
  case isFalse hstring =>
    cases h
    exact (if_neg hstring).symm

theorem tagged_operator {value : String} {oper : T → T → Option (List T)}
    (h : operator? value = some oper) : Tagged oper := by
  unfold operator? at h
  split_ifs at h <;> cases h
  · exact tagged_plus
  · exact tagged_arithmetic _ _ _
  · exact tagged_arithmetic _ _ _
  · exact tagged_arithmetic _ _ _
  · exact tagged_equals
  · exact tagged_notEquals
  · exact tagged_like

theorem type_columnOperand {env : RowEnv} {name : String} {t : T}
    (h : columnOperand env name = some t) : t.type = env.type name := by
  unfold columnOperand at h
  cases htype : env.type name <;>
    simp only [htype, Option.map_eq_some_iff, Option.some.injEq] at h
  case empty | boolean =>
    subst h
    rfl
  all_goals
    obtain ⟨a, -, rfl⟩ := h
    rfl

section
variable {env env' : RowEnv} (htype : env.type = env'.type)
include htype

/-- One token on two rows of a table, on stacks of the same types. -/
theorem postfixStep_tags {s u s' u' : List T} {value : String} {valueType : ValueType}
    (hsu : s.map T.type = u.map T.type) (hs : postfixStep env s value valueType = some s')
    (hu : postfixStep env' u value valueType = some u') : s'.map T.type = u'.map T.type := by
  unfold postfixStep at hs hu
  cases valueType with
  | column =>
    obtain ⟨t, ht, rfl⟩ := Option.map_eq_some_iff.mp hs
    obtain ⟨t', ht', rfl⟩ := Option.map_eq_some_iff.mp hu
    simp only [List.map_cons, type_columnOperand ht, type_columnOperand ht', htype, hsu]
  | operator =>
    simp only at hs hu
    cases ho : operator? value with
    | none =>
      simp only [ho, Option.some.injEq] at hs hu
      rw [← hs, ← hu, hsu]
    | some oper =>
      obtain ⟨tags, htags⟩ := tagged_operator ho
      simp only [ho] at hs hu
      -- both stacks have two operands, or neither
      match s, u, hsu with
      | oper2 :: oper1 :: rest, oper2' :: oper1' :: rest', hsu =>
        simp only [List.map_cons, List.cons.injEq] at hsu
        obtain ⟨h2, h1, hrest⟩ := hsu
        obtain ⟨results, hresults, rfl⟩ := Option.map_eq_some_iff.mp hs
        obtain ⟨results', hresults', rfl⟩ := Option.map_eq_some_iff.mp hu
        rw [List.map_append, List.map_append, htags _ _ _ hresults, htags _ _ _ hresults', h1, h2,
          hrest]
  | float32 | double | decimal | int16 | int32 | int64 =>
    obtain ⟨x, hx, rfl⟩ := Option.map_eq_some_iff.mp hs
    obtain ⟨x', hx', rfl⟩ := Option.map_eq_some_iff.mp hu
    simp only [List.map_cons, hsu]
  | string | int8 | date | timestamp | boolean =>
    cases hs
    cases hu
    simp only [List.map_cons, hsu]

/-- A postfix expression has one type on all rows of a table. -/
theorem postfixValue_type {p : Projection} {start stop : Nat} {t t' : T}
    (ht : postfixValue env p start stop = some t)
    (ht' : postfixValue env' p start stop = some t') : t.type = t'.type := by
  obtain ⟨s, hs, ht⟩ := Option.bind_eq_some_iff.mp ht
  obtain ⟨u, hu, ht'⟩ := Option.bind_eq_some_iff.mp ht'
  -- the loops keep the types of the two stacks equal
  have htags : s.map T.type = u.map T.type := by
    refine Loops.foldlM_rel (R := fun s u => s.map T.type = u.map T.type) ?_ rfl hs hu
    intro s u i s' u' hsu hs hu
    simp only [Option.bind_eq_bind, Option.bind_eq_some_iff] at hs hu
    obtain ⟨valueType, hvalueType, value, hvalue, hs⟩ := hs
    obtain ⟨valueType', hvalueType', value', hvalue', hu⟩ := hu
    rw [hvalueType, Option.some.injEq] at hvalueType'
    rw [hvalue, Option.some.injEq] at hvalue'
    subst hvalueType' hvalue'
    exact postfixStep_tags htype hsu hs hu
  have hhead := congrArg List.head? htags
  rw [List.head?_map, List.head?_map, ht, ht'] at hhead
  simpa using hhead

/-- Only `CASE` has types that depend on the row. -/
theorem projectionValue_type {p : Projection} (hcase : p.value[0]? ≠ some "CASE") {t t' : T}
    (ht : projectionValue env p = some t) (ht' : projectionValue env' p = some t') :
    t.type = t'.type := by
  obtain ⟨first, hfirst, ht⟩ := Option.bind_eq_some_iff.mp ht
  obtain ⟨first', hfirst', ht'⟩ := Option.bind_eq_some_iff.mp ht'
  rw [hfirst, Option.some.injEq] at hfirst'
  subst hfirst'
  rw [hfirst] at hcase
  have hcase : first ≠ "CASE" := fun h => hcase (by rw [h])
  rw [if_neg hcase] at ht ht'
  split at ht
  case isTrue hsubstring =>
    rw [if_pos hsubstring] at ht'
    rw [substringValue_type ht, substringValue_type ht']
  case isFalse hsubstring =>
    rw [if_neg hsubstring] at ht'
    split at ht
    case isTrue hextract =>
      rw [if_pos hextract] at ht'
      rw [extractValue_type ht, extractValue_type ht']
    case isFalse hextract =>
      rw [if_neg hextract] at ht'
      exact postfixValue_type htype ht ht'

end

/-! ## The column of a projection -/

/-- The loop pushes the values. -/
theorem foldl_pushT (ts : List T) (c : ColData) :
    ts.foldl pushT c = c.appendValues (ts.filterMap T.value?) := by
  induction ts generalizing c with
  | nil => simp
  | cons t ts ih =>
    rw [List.foldl_cons, ih]
    cases ht : t.type <;>
      simp [pushT, T.value?, ht, ← ColData.appendValues_singleton, ← ColData.appendValues_append]

/-- A value vector as long as the list of values holds all of them. -/
theorem accepts_of_vecLength {type : VectorType} {realSize : Int} {vs : List Value}
    (h : (ColData.appendValues { type, realSize } vs).vecLength = vs.length) :
    ∀ v ∈ vs, type.Accepts v := by
  intro v hv
  unfold ColData.vecLength ColData.appendValues at h
  cases type with
  | empty | boolean =>
    rw [List.length_eq_zero_iff.mp h.symm] at hv
    cases hv
  | string =>
    have hsome := List.filterMap_length_eq_length.mp h v hv
    cases v <;> simp_all [Value.string?, VectorType.Accepts]
  | int | date =>
    have hsome := List.filterMap_length_eq_length.mp h v hv
    cases v <;> simp_all [Value.int?, VectorType.Accepts]
  | float =>
    have hsome := List.filterMap_length_eq_length.mp h v hv
    cases v <;> simp_all [Value.float?, VectorType.Accepts]

theorem T.Numeric.value? {x : T} (h : x.Numeric) : ∃ v, x.value? = some v := by
  rcases h with h | h <;> simp [T.value?, h]

/-- A number fits the vector of its own type only. -/
theorem accepts_iff_type {x : T} {v : Value} {type : VectorType} (hx : x.Numeric)
    (htype : type = .int ∨ type = .float) (hv : x.value? = some v) :
    type.Accepts v ↔ x.type = type := by
  unfold T.value? at hv
  rcases hx with hx | hx <;> rcases htype with rfl | rfl <;>
    simp only [hx, Option.some.injEq] at hv <;> subst hv <;> simp [VectorType.Accepts, hx]

/-- The column has `n` rows, and the entry of each is the value of the
projection on it. -/
structure Aligned (t : TableData) (p : Projection) (n : Nat) (c : ColData) : Prop where
  length : c.HasLength n
  value : ∀ r < n, c.value? r = (projection t.tableData p r).bind T.value?

/-- The column of numbers holds them all when they have the type of the
last. -/
theorem rowsColumn_holds_iff {ts : List T} (hne : ts ≠ []) (hnum : ∀ x ∈ ts, x.Numeric) :
    (rowsColumn ts).rowCount = ts.length ∧
      (((rowsColumn ts).HasLength ts.length ∧
        ∀ r < ts.length, (rowsColumn ts).value? r = ts[r]?.bind T.value?) ↔
      ∀ x ∈ ts, x.type = (ts.getLast hne).type) := by
  have hsome : ∀ x ∈ ts, ∃ v, x.value? = some v := fun x hx => (hnum x hx).value?
  have hlength : (ts.filterMap T.value?).length = ts.length :=
    List.filterMap_length_eq_length.mpr fun x hx => Option.isSome_iff_exists.mpr (hsome x hx)
  have hlast := hnum _ (List.getLast_mem hne)
  have hcolumn : rowsColumn ts = ColData.appendValues
      { type := (ts.getLast hne).type, realSize := max 0 (ts.getLast hne).realSize }
      (ts.filterMap T.value?) := by
    unfold rowsColumn
    rw [List.getLast?_eq_some_getLast hne, Option.getD_some, foldl_pushT]
    rfl
  rw [hcolumn]
  generalize max 0 (ts.getLast hne).realSize = realSize
  refine ⟨by simp [ColData.appendValues, hlength], ⟨fun h x hx => ?_, fun htypes => ?_⟩⟩
  · -- a value of another type is missing in the vector
    obtain ⟨v, hv⟩ := hsome x hx
    have haccepts := accepts_of_vecLength (h.1.vec.trans hlength.symm) v
      (List.mem_filterMap.mpr ⟨x, hx, hv⟩)
    exact (accepts_iff_type (hnum x hx) hlast hv).mp haccepts
  · have haccepts : ∀ v ∈ ts.filterMap T.value?, (ts.getLast hne).type.Accepts v := by
      intro v hv
      obtain ⟨x, hx, hv⟩ := List.mem_filterMap.mp hv
      exact (accepts_iff_type (hnum x hx) hlast hv).mpr (htypes x hx)
    constructor
    · have hzero : ColData.HasLength { type := (ts.getLast hne).type, realSize } 0 := by
        refine ⟨?_, rfl, rfl⟩
        rcases hlast with h | h <;> simp [ColData.vecLength, h]
      simpa [hlength] using hzero.appendValues haccepts
    · intro r hr
      have hcell : (ColData.appendValues { type := (ts.getLast hne).type, realSize }
          (ts.filterMap T.value?)).cell? r = (ts[r]?.bind T.value?).map fun v => ⟨v, false⟩ := by
        rw [ColData.cell?_appendValues_new haccepts, Loops.getElem?_filterMap hsome]
      obtain ⟨v, hv⟩ := hsome ts[r] (List.getElem_mem hr)
      rw [List.getElem?_eq_getElem hr, Option.bind_some, hv]
      rw [List.getElem?_eq_getElem hr, Option.bind_some, hv] at hcell
      exact ColData.value?_of_cell? hcell

/-! ## A projection without an aggregate -/

/-- A column of the table, or an expression whose value is a number on every
row. -/
structure RowWise (t : TableData) (p : Projection) : Prop where
  select : p.selectType = .columnName
  value : ∀ r < t.rowCount.toNat, ∃ x, projection t.tableData p r = some x ∧
    ((∃ name ∈ t.tableData, IsBare p name) ∨ x.Numeric)

/-- The projection has one type on all rows. -/
def OneType (t : TableData) (p : Projection) : Prop :=
  ∀ r < t.rowCount.toNat, ∀ k < t.rowCount.toNat, ∀ x y,
    projection t.tableData p r = some x → projection t.tableData p k = some y → x.type = y.type

/-- A projection that is not a `CASE` always does. -/
theorem oneType_iff_case {t : TableData} {p : Projection} :
    OneType t p ↔ (p.value[0]? = some "CASE" → OneType t p) := by
  refine ⟨fun h _ => h, fun h => ?_⟩
  by_cases hcase : p.value[0]? = some "CASE"
  · exact h hcase
  · intro r _ k _ x y hx hy
    refine projectionValue_type ?_ hcase hx hy
    rfl

/-- The rows have one type when it is that of the last. -/
theorem oneType_iff_last {t : TableData} {p : Projection} {n : Nat} {value : Nat → T}
    (hcount : t.rowCount.toNat = n) (hrun : ∀ r < n, projection t.tableData p r = some (value r))
    (hne : (List.range n).map value ≠ []) :
    OneType t p ↔ ∀ x ∈ (List.range n).map value,
      x.type = (((List.range n).map value).getLast hne).type := by
  obtain ⟨last, hlast, heq⟩ := List.mem_map.mp (List.getLast_mem hne)
  rw [← heq]
  unfold OneType
  rw [hcount]
  constructor
  · intro h x hx
    obtain ⟨r, hr, rfl⟩ := List.mem_map.mp hx
    exact h r (List.mem_range.mp hr) last (List.mem_range.mp hlast) _ _
      (hrun r (List.mem_range.mp hr)) (hrun last (List.mem_range.mp hlast))
  · intro h r hr k hk x y hx hy
    have hall : ∀ r < n, (value r).type = (value last).type := fun r hr =>
      h _ (List.mem_map_of_mem (List.mem_range.mpr hr))
    rw [hrun r hr, Option.some.injEq] at hx
    rw [hrun k hk, Option.some.injEq] at hy
    rw [← hx, ← hy, hall r hr, hall k hk]

theorem value?_valueOperand {c : ColData} {i : Nat} {v : Value} (h : c.value? i = some v) :
    (valueOperand c v).value? = some v := by
  unfold ColData.value? at h
  cases hc : c.type <;> simp only [hc, Option.map_eq_some_iff, reduceCtorEq] at h
  all_goals
    obtain ⟨a, -, rfl⟩ := h
    simp [valueOperand, T.value?, hc]

/-- A single word with a value is a column, or has another type. -/
theorem isBareColumn_of_projection {t : ColMap} {p : Projection} {r : Nat} {x : T}
    (h : projection t p r = some x) :
    (∃ name ∉ keywords, IsBare p name ∧ isBareColumn p = some true) ∨
      isBareColumn p = some false := by
  unfold isBareColumn
  by_cases hone : p.value.length = 1
  · obtain ⟨word, hword⟩ := List.length_eq_one_iff.mp hone
    have hkeyword : word ∉ keywords := by
      intro hkeyword
      rw [projection_keyword hword hkeyword] at h
      cases h
    rw [if_pos hone]
    -- the source reads the type of the word only if there is one word
    cases htype : p.valueType[0]? with
    | some type =>
      by_cases hcolumn : type = .column
      · subst hcolumn
        exact .inl ⟨word, hkeyword, ⟨hword, htype⟩, by simp⟩
      · simp [hcolumn]
    | none =>
      -- a word without a type has no value
      simp only [keywords, List.mem_cons, List.not_mem_nil, or_false, not_or] at hkeyword
      simp [projection, projectionValue, hword, hkeyword, postfixValue, htype] at h
  · exact .inr (if_neg hone)

section
variable {t : TableData} {n : Nat} {p : Projection} (hw : t.WellFormed n) (hn : 0 < n)
  (hp : RowWise t p)
include hw hn hp

theorem projectionColumn_rowWise : ∃ c, projectionColumn false t p = some c ∧ c.rowCount = n ∧
    (Aligned t p n c ↔ OneType t p) := by
  have hcount : t.rowCount.toNat = n := hw.toNat_rowCount
  have hvalue := hp.value
  rw [hcount] at hvalue
  obtain ⟨first, hfirst, hkind⟩ := hvalue 0 hn
  unfold projectionColumn
  rw [hp.select]
  simp only [Bool.false_eq_true, if_false]
  rcases isBareColumn_of_projection hfirst with ⟨name, hword, hbare, htrue⟩ | hfalse
  · -- the column is copied
    have hname : name ∈ t.tableData := by
      rcases hkind with ⟨other, hother, hbare'⟩ | hnum
      · rwa [← List.singleton_inj.mp (hbare'.1.symm.trans hbare.1)]
      · -- a column that is not there has no number
        by_contra hmissing
        rw [projection_operand hbare hword] at hfirst
        have htype : first.type = (t.tableData.get name).type := type_columnOperand hfirst
        rw [ColMap.get_of_notMem hmissing] at htype
        simp [T.Numeric, htype] at hnum
    have hlength := hw.column name hname
    rw [htrue]
    refine ⟨t.tableData.get name, by simp [hbare.1], hlength.count, iff_of_true ?_ ?_⟩
    · refine ⟨hlength, fun r hr => ?_⟩
      obtain ⟨v, hv⟩ := ColData.value?_isSome hlength hr
      rw [projection_bare hbare (hw.stored name hname) hword, hv, Option.map_some,
        Option.bind_some, value?_valueOperand hv]
    · refine oneType_iff_case.mpr fun hcase => absurd ?_ hword
      simp only [hbare.1, List.getElem?_cons_zero, Option.some.injEq] at hcase
      simp [hcase, keywords]
  · -- the values of the rows are pushed
    have hnum : ∀ r < n, ∃ x, projection t.tableData p r = some x ∧ x.Numeric := by
      intro r hr
      obtain ⟨x, hx, ⟨name, -, hbare⟩ | hnum⟩ := hvalue r hr
      · simp [isBareColumn, hbare.1, hbare.2] at hfalse
      · exact ⟨x, hx, hnum⟩
    have : Nonempty T := ⟨{}⟩
    choose! value hrun hnumeric using hnum
    have hrows := projectRows_of_forall hcount hrun
    have hne : (List.range n).map value ≠ [] := by
      simpa using Nat.ne_of_gt hn
    have hlength : ((List.range n).map value).length = n := by simp
    obtain ⟨hrowCount, hiff⟩ := rowsColumn_holds_iff hne fun x hx => by
      obtain ⟨r, hr, rfl⟩ := List.mem_map.mp hx
      exact hnumeric r (List.mem_range.mp hr)
    rw [hlength] at hrowCount hiff
    rw [hfalse, hrows]
    refine ⟨rowsColumn ((List.range n).map value), rfl, hrowCount, ?_⟩
    have hentry : ∀ r < n, ((List.range n).map value)[r]?.bind T.value? =
        (projection t.tableData p r).bind T.value? := by
      intro r hr
      simp [hr, hrun r hr]
    have haligned : Aligned t p n (rowsColumn ((List.range n).map value)) ↔
        (rowsColumn ((List.range n).map value)).HasLength n ∧ ∀ r < n,
          (rowsColumn ((List.range n).map value)).value? r =
            ((List.range n).map value)[r]?.bind T.value? := by
      constructor
      · exact fun h => ⟨h.length, fun r hr => (h.value r hr).trans (hentry r hr).symm⟩
      · exact fun h => ⟨h.1, fun r hr => (h.2 r hr).trans (hentry r hr)⟩
    rw [haligned, hiff, oneType_iff_last hcount hrun]

end

/-! ## The projection list -/

theorem aligned_appendColumn_new {t : TableData} {p : Projection} {n : Nat} {c : ColData} :
    Aligned t p n (appendColumn c {}) ↔ Aligned t p n c := by
  have hvalue := value?_appendColumn_new c
  have hlength : (appendColumn c {}).HasLength n ↔ c.HasLength n := by
    have hvec : (appendColumn c {}).vecLength = c.vecLength := by
      unfold appendColumn ColData.vecLength
      cases c.type <;> simp
    have hnull : (appendColumn c {}).isnull = c.isnull := isnull_appendColumn c {}
    have hcount : (appendColumn c {}).rowCount = c.rowCount := by
      rw [rowCount_appendColumn, zero_add]
    constructor
    · exact fun h => ⟨hvec ▸ h.vec, hnull ▸ h.null, hcount ▸ h.count⟩
    · exact fun h => ⟨hvec ▸ h.vec, hnull ▸ h.null, hcount ▸ h.count⟩
  constructor
  · exact fun h => ⟨hlength.mp h.length, hvalue ▸ h.value⟩
  · exact fun h => ⟨hlength.mpr h.length, hvalue ▸ h.value⟩

/-- Every result column has `row_count` rows, and the value of its projection
on each. -/
def RowsAligned (t : TableData) (projections : List Projection) (columnAlias : List String)
    (d : TableData) : Prop :=
  ∀ (i : Nat) (p : Projection) (name : String), projections[i]? = some p →
    columnAlias[i]? = some name →
    d.rowCount = t.rowCount ∧ Aligned t p d.rowCount.toNat (d.tableData.get name)

/-- **Row-wise projection** keeps the columns aligned exactly when every
`CASE` has one type on all rows. -/
theorem aggregation_aligned_iff {t : TableData} {n : Nat} (hw : t.WellFormed n) (hn : 0 < n)
    {projections : List Projection} {columnAlias : List String}
    (hp : ∀ p ∈ projections, RowWise t p) (hnodup : columnAlias.Nodup)
    (hlength : projections.length ≤ columnAlias.length) :
    ∃ d, aggregation false t projections columnAlias {} = some d ∧
      (RowsAligned t projections columnAlias d ↔
        ∀ p ∈ projections, p.value[0]? = some "CASE" → OneType t p) := by
  have hrows : t.rowCount ≠ 0 := (hw.rowCount_pos hn).ne'
  let column : Projection → ColData := fun p => (projectionColumn false t p).getD {}
  have hcolumn : ∀ p ∈ projections, projectionColumn false t p = some (column p) ∧
      (column p).rowCount = n ∧ (Aligned t p n (column p) ↔ OneType t p) := by
    intro p hmem
    obtain ⟨c, hc, hcount, haligned⟩ := projectionColumn_rowWise hw hn (hp p hmem)
    have heq : column p = c := by simp [column, hc]
    rw [heq]
    exact ⟨hc, hcount, haligned⟩
  have hrun : projections.mapM (projectionColumn false t) = some (projections.map column) :=
    Loops.mapM_of_forall fun p hmem => (hcolumn p hmem).1
  have hcount : projections ≠ [] →
      ({} : TableData).rowCount + resultRowNum (projections.map column) = n := by
    intro hne
    rw [resultRowNum_of_forall (k := n) (by omega) (by simpa using fun p hp => (hcolumn p hp).2.1),
      if_neg (by simpa using hne)]
    exact zero_add _
  refine ⟨_, aggregation_eq hrows hrun hlength {}, ?_⟩
  -- each alias has the column of its projection
  have halias : ∀ (i : Nat) (p : Projection) (name : String), projections[i]? = some p →
      columnAlias[i]? = some name → ((columnAlias.zip (projections.map column)).foldl
        (fun m e => m.modify e.1 (appendColumn e.2)) ({} : TableData).tableData).get name =
          appendColumn (column p) {} := by
    intro i p name hpi hname
    rw [get_appended hnodup _ hname (c := column p) (by simp [hpi])]
    rfl
  constructor
  · intro h p hmem _
    obtain ⟨i, hi, hpi⟩ := List.getElem_of_mem hmem
    have hpi : projections[i]? = some p := by simp [hi, hpi]
    have hname : columnAlias[i]? = some columnAlias[i] := List.getElem?_eq_getElem (by omega)
    have haligned := (h i p _ hpi hname).2
    simp only [halias i p _ hpi hname, hcount (List.ne_nil_of_mem hmem),
      Int.toNat_natCast] at haligned
    exact (hcolumn p hmem).2.2.mp (aligned_appendColumn_new.mp haligned)
  · intro h i p name hpi hname
    have hmem := List.mem_of_getElem? hpi
    simp only [halias i p name hpi hname, hcount (List.ne_nil_of_mem hmem), hw.count,
      Int.toNat_natCast]
    exact ⟨trivial, aligned_appendColumn_new.mpr
      ((hcolumn p hmem).2.2.mpr (oneType_iff_case.mpr (h p hmem)))⟩

/-! ## Promotion prices -/

/-- `p_type, CASE WHEN p_type LIKE 'PROMO%' THEN price ELSE 0 END`. -/
def promoPrices : List Projection :=
  [bareColumn .columnName "p_type", { promoRevenue with selectType := .columnName }]

theorem promoPrices_rowWise : ∀ p ∈ promoPrices, RowWise promoFirst p := by
  have hnum : NumericOn promoFirst promoRevenue := promoRevenue_aggregate promoRevenue (by simp)
  intro p hp
  rcases List.mem_pair.mp hp with rfl | rfl
  · refine ⟨rfl, fun r hr => ?_⟩
    have hbare := isBare_bareColumn .columnName "p_type"
    obtain ⟨v, hv⟩ := ColData.value?_isSome
      (promoFirst_wellFormed.column "p_type" (mem_partTable.mpr (.inr rfl))) hr
    rw [projection_bare hbare (.inl rfl) (by decide), hv]
    exact ⟨_, rfl, .inl ⟨"p_type", mem_partTable.mpr (.inr rfl), hbare⟩⟩
  · refine ⟨rfl, fun r hr => ?_⟩
    obtain ⟨x, hx, hnumeric⟩ := hnum r hr
    refine ⟨x, ?_, .inr hnumeric⟩
    rw [← hx]
    exact projectionValue_select _ promoRevenue .columnName

theorem promoPrices_aligned_iff :
    ∃ d, aggregation false promoFirst promoPrices ["type", "price"] {} = some d ∧
      (RowsAligned promoFirst promoPrices ["type", "price"] d ↔
        ∀ p ∈ promoPrices, p.value[0]? = some "CASE" → OneType promoFirst p) :=
  aggregation_aligned_iff promoFirst_wellFormed (by decide) promoPrices_rowWise (by decide)
    (by decide)

/-- The price of the promotion is a FLOAT and the 0 of the other row an INT;
of the two values the column keeps one. -/
theorem promoPrices_not_aligned :
    promoFirst.WellFormed 2 ∧ (∀ p ∈ promoPrices, RowWise promoFirst p) ∧
      ∃ d, aggregation false promoFirst promoPrices ["type", "price"] {} = some d ∧
        d.tableData.get "price" =
          { intvec := [0], isnull := [false, false], rowCount := 2, type := .int } ∧
        ¬ RowsAligned promoFirst promoPrices ["type", "price"] d := by
  refine ⟨promoFirst_wellFormed, promoPrices_rowWise, ?_⟩
  have hprice : (aggregation false promoFirst promoPrices ["type", "price"] {}).map
      (fun d => (d.rowCount, d.tableData.get "price")) = some (2,
        { intvec := [0], isnull := [false, false], rowCount := 2, type := .int }) := by
    decide +kernel
  obtain ⟨d, hd, hcolumn⟩ := Option.map_eq_some_iff.mp hprice
  obtain ⟨hcount, hcolumn⟩ := Prod.mk.inj hcolumn
  refine ⟨d, hd, hcolumn, fun h => ?_⟩
  have hlength := (h 1 _ "price" rfl rfl).2.length.vec
  rw [hcolumn, hcount] at hlength
  cases hlength

end KetiEngine.Merging
