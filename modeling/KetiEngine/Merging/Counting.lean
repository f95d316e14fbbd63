import KetiEngine.Merging.BareColumn
import KetiEngine.Lib.Distinct

/-!
# Counting — `AVG` beside `SUM` and `COUNT(*)`, and `COUNT(DISTINCT)`

The average is a division of the sum by the number of rows, of two integers
when the operand is an INT. The different values of a column are counted in a
set of `int` when the column is an INT, and not at all when it is a DATE.
-/

namespace KetiEngine.Merging

open KetiEngine

/-! ## The average before it is a `float` -/

/-- The quotient that `avg` is assigned. -/
def exactAverage (targetRowCount : Int) (t : T) : VectorType → Option Double
  | .int => some (.ofInt (t.varInt.tdiv targetRowCount))
  | .float => some (t.varFloat.div (.ofInt targetRowCount))
  | _ => none

theorem average_eq (targetRowCount : Int) (t : T) (type : VectorType) :
    average targetRowCount t type = (exactAverage targetRowCount t type).map Double.toFloat := by
  cases type <;> rfl

/-- The same for the rows of a table. -/
def projectionAverage (t : TableData) (p : Projection) : Option Double := do
  let ts ← projectRows t p 0
  exactAverage t.rowCount (ts.foldl sumRow {}) (ts.getLast?.getD {}).type

/-- A value as an exact number. -/
def exactNumber : Value → Option ℚ
  | .int n => some n
  | .float (.fin q) => some q
  | _ => none

/-- `AVG` is a quotient rounded to `float`, and the quotient times `COUNT(*)`
is `SUM`. -/
def AverageConsistent (isGroupby : Bool) (t : TableData) (p : Projection) : Prop :=
  ∃ avg sum count : ℚ,
    projectionAverage t p = some (.fin avg) ∧
    aggregateValue isGroupby t { p with selectType := .avg } =
      some (.float (Double.fin avg).toFloat) ∧
    (aggregateValue isGroupby t { p with selectType := .sum }).bind exactNumber = some sum ∧
    (aggregateValue isGroupby t { p with selectType := .countStar }).bind exactNumber =
      some count ∧
    avg * count = sum

/-- The operand has a number of the type on every row. -/
def NumbersOf (type : VectorType) (t : TableData) (p : Projection) : Prop :=
  (type = .int ∨ type = .float) ∧ ∀ r < t.rowCount.toNat, ∃ x,
    projection t.tableData p r = some x ∧ x.type = type ∧
      (type = .float → ∃ q, x.varFloat = .fin q)

section
variable {t : TableData} (hrows : t.rowCount ≠ 0) (isGroupby : Bool) (p : Projection)
include hrows

theorem aggregateValue_countStar :
    aggregateValue isGroupby t { p with selectType := .countStar } = some (.int t.rowCount) := by
  rw [aggregateValue_eq hrows]
  rfl

theorem aggregateValue_avg :
    aggregateValue isGroupby t { p with selectType := .avg } =
      (projectionAverage t p).map fun avg => .float avg.toFloat := by
  rw [aggregateValue_eq hrows]
  simp only [projectionColumn, projectRows_select, projectionAverage]
  cases projectRows t p 0 with
  | none => rfl
  | some ts =>
    simp only [Option.bind_eq_bind, Option.bind_some, avgColumn, average_eq]
    cases exactAverage t.rowCount (ts.foldl sumRow {}) (ts.getLast?.getD {}).type <;> rfl

theorem aggregateValue_sum :
    aggregateValue isGroupby t { p with selectType := .sum } =
      (projectRows t p 0).bind fun ts => (sumColumn ts).value? 0 := by
  rw [aggregateValue_eq hrows]
  simp only [projectionColumn, projectRows_select, Option.bind_map]
  rfl

end

/-! ## The rows of a numeric operand -/

theorem fin_sum {xs : List Double} (h : ∀ x ∈ xs, ∃ q, x = .fin q) : ∃ q, xs.sum = .fin q := by
  induction xs with
  | nil => exact ⟨0, rfl⟩
  | cons x xs ih =>
    obtain ⟨p, rfl⟩ := h x (by simp)
    obtain ⟨q, hq⟩ := ih fun y hy => h y (by simp [hy])
    exact ⟨p + q, by rw [List.sum_cons, hq, Double.add_def, Double.add_fin]⟩

/-- The rows, the type of the last and the total of all. -/
theorem NumbersOf.rows {type : VectorType} {t : TableData} {p : Projection}
    (h : NumbersOf type t p) (hpos : 0 < t.rowCount) :
    ∃ ts, projectRows t p 0 = some ts ∧ ts ≠ [] ∧ (ts.getLast?.getD {}).type = type ∧
      (type = .float → ∃ q, floatTotal ts = .fin q) := by
  have : Nonempty T := ⟨{}⟩
  obtain ⟨-, hvalue⟩ := h
  choose! value hrun htype hfin using hvalue
  have hne : (List.range t.rowCount.toNat).map value ≠ [] := by
    simp
    omega
  have hmem : ∀ x ∈ (List.range t.rowCount.toNat).map value,
      x.type = type ∧ (type = .float → ∃ q, x.varFloat = .fin q) := by
    intro x hx
    obtain ⟨r, hr, rfl⟩ := List.mem_map.mp hx
    have hr := List.mem_range.mp hr
    exact ⟨htype r hr, hfin r hr⟩
  refine ⟨_, projectRows_of_forall rfl hrun, hne, ?_, fun hfloat => fin_sum fun x hx => ?_⟩
  · rw [List.getLast?_eq_some_getLast hne, Option.getD_some]
    exact (hmem _ (List.getLast_mem hne)).1
  · obtain ⟨y, hy, rfl⟩ := List.mem_map.mp hx
    exact (hmem y (List.mem_of_mem_filter hy)).2 hfloat

theorem projectionAverage_int {t : TableData} {p : Projection} {ts : List T}
    (hts : projectRows t p 0 = some ts) (hlast : (ts.getLast?.getD {}).type = .int) :
    projectionAverage t p = some (.ofInt ((toInt64 (intTotal ts)).tdiv t.rowCount)) := by
  simp [projectionAverage, hts, exactAverage, hlast, foldl_sumRow_varInt]

theorem averageConsistent_iff {t : TableData} (hrows : t.rowCount ≠ 0) {p : Projection}
    {isGroupby : Bool} {avg sum : ℚ} {total : Value}
    (havg : projectionAverage t p = some (.fin avg))
    (htotal : aggregateValue isGroupby t { p with selectType := .sum } = some total)
    (hsum : exactNumber total = some sum) :
    AverageConsistent isGroupby t p ↔ avg * t.rowCount = sum := by
  unfold AverageConsistent
  rw [aggregateValue_avg hrows, htotal, aggregateValue_countStar hrows, havg, Option.bind_some,
    Option.bind_some, hsum]
  constructor
  · -- the three numbers are determined
    rintro ⟨avg', sum', count, havg', -, hsum', hcount, heq⟩
    cases havg'
    cases hsum'
    cases hcount
    exact heq
  · exact fun heq => ⟨avg, sum, t.rowCount, rfl, rfl, rfl, rfl, heq⟩

/-- **`AVG` and `SUM`** are consistent for a FLOAT operand, and for an INT
operand when the number of rows divides the total, an `int64_t`. -/
theorem average_consistent_iff {t : TableData} {n : Nat} (hcount : t.rowCount = n) (hn : 0 < n)
    {type : VectorType} {p : Projection} (h : NumbersOf type t p) (isGroupby : Bool) :
    AverageConsistent isGroupby t p ↔
      (type = .int → ∀ ts, projectRows t p 0 = some ts → (n : Int) ∣ toInt64 (intTotal ts)) := by
  have hpos : 0 < t.rowCount := by omega
  have hrows : t.rowCount ≠ 0 := hpos.ne'
  obtain ⟨ts, hts, hne, hlast, htotal⟩ := h.rows hpos
  have hint := foldl_sumRow_varInt ts
  have hfloat := foldl_sumRow_varFloat ts
  have hsum := aggregateValue_sum hrows isGroupby p
  rw [hts, Option.bind_some] at hsum
  rcases h.1 with rfl | rfl
  · -- the quotient of two integers
    have havg := projectionAverage_int hts hlast
    rw [hcount] at havg
    have hvalue : (sumColumn ts).value? 0 = some (.int (toInt64 (intTotal ts))) := by
      simp [sumColumn, hlast, hint, ColData.value?]
    have hproduct : (toInt64 (intTotal ts)).tdiv n * n = toInt64 (intTotal ts) ↔
        (n : Int) ∣ toInt64 (intTotal ts) :=
      ⟨fun heq => ⟨_, heq.symm.trans (Int.mul_comm _ _)⟩, Int.tdiv_mul_cancel⟩
    rw [averageConsistent_iff hrows havg (hsum.trans hvalue) rfl, hcount]
    constructor
    · intro heq _ us hus
      cases hts.symm.trans hus
      exact hproduct.mp (by exact_mod_cast heq)
    · intro hdvd
      exact_mod_cast hproduct.mpr (hdvd rfl ts hts)
  · -- the quotient of a FLOAT is exact
    obtain ⟨q, hq⟩ := htotal rfl
    have hcast : (n : ℚ) ≠ 0 := by
      simp
      omega
    have havg : projectionAverage t p = some (.fin (q / n)) := by
      simp [projectionAverage, hts, exactAverage, hlast, hfloat, hq, hcount, Double.ofInt,
        Double.div, hn.ne']
    have hvalue : (sumColumn ts).value? 0 = some (.float (.fin q)) := by
      simp [sumColumn, hlast, hfloat, hq, ColData.value?]
    rw [averageConsistent_iff hrows havg (hsum.trans hvalue) rfl, hcount]
    refine iff_of_true ?_ nofun
    rw [Int.cast_natCast, div_mul_cancel₀ q hcast]

theorem average_consistent_numbers :
    AverageConsistent false (numberTable "n" [1, 3] .workDone) (bareColumn .columnName "n") ↔
      (VectorType.int = .int → ∀ ts,
        projectRows (numberTable "n" [1, 3] .workDone) (bareColumn .columnName "n") 0 = some ts →
          ((2 : Nat) : Int) ∣ toInt64 (intTotal ts)) := by
  refine average_consistent_iff rfl (by decide) ⟨.inl rfl, fun r hr => ?_⟩ false
  match r with
  | 0 => exact ⟨{ varInt := 1, type := .int }, by decide +kernel, rfl, nofun⟩
  | 1 => exact ⟨{ varInt := 3, type := .int }, by decide +kernel, rfl, nofun⟩

/-- The sum is 3 and the average of the two rows is 1. -/
theorem average_truncates :
    projectionAverage (numberTable "n" [1, 2] .workDone) (bareColumn .columnName "n") =
        some (.fin 1) ∧
      aggregateValue false (numberTable "n" [1, 2] .workDone) (bareColumn .sum "n") =
        some (.int 3) ∧
      ¬ AverageConsistent false (numberTable "n" [1, 2] .workDone)
        (bareColumn .columnName "n") := by
  have havg : projectionAverage (numberTable "n" [1, 2] .workDone) (bareColumn .columnName "n") =
      some (.fin 1) := by decide +kernel
  have hsum : aggregateValue false (numberTable "n" [1, 2] .workDone) (bareColumn .sum "n") =
      some (.int 3) := by decide +kernel
  refine ⟨havg, hsum, fun h => ?_⟩
  rw [averageConsistent_iff (by decide) havg hsum rfl] at h
  norm_num [numberTable] at h

/-! ## `COUNT(DISTINCT)` -/

/-- The different values of a column. -/
def distinctValues (c : ColData) : List Value := (valuesOf c).dedup

/-- `COUNT(DISTINCT)` is the number of different values, and so between 1 and
`COUNT(*)`. -/
def DistinctCounted (isGroupby : Bool) (t : TableData) (name : String) : Prop :=
  ∃ count total : Int,
    aggregateValue isGroupby t (bareColumn .countDistinct name) = some (.int count) ∧
    count = (distinctValues (t.tableData.get name)).length ∧
    aggregateValue isGroupby t (bareColumn .countStar name) = some (.int total) ∧
    1 ≤ count ∧ count ≤ total

theorem length_distinctValues {c : ColData} {n : Nat} (hc : c.HasLength n) (hn : 0 < n) :
    1 ≤ (distinctValues c).length ∧ (distinctValues c).length ≤ n := by
  have hlength := length_valuesOf hc
  constructor
  · have hne : valuesOf c ≠ [] := by
      intro hnil
      rw [hnil] at hlength
      simp at hlength
      omega
    obtain ⟨v, hv⟩ := List.exists_mem_of_ne_nil _ hne
    exact List.length_pos_of_mem (List.mem_dedup.mpr hv)
  · rw [← hlength]
    exact (List.dedup_sublist _).length_le

/-- The set of the source has as many elements as the column has values. -/
theorem distinctRowCount_eq_iff {c : ColData} {n : Nat} (hc : c.HasLength n) (hn : 0 < n)
    (hkind : c.type = .int ∨ c.type = .date ∨ c.type = .string) :
    distinctRowCount c = some ((distinctValues c).length : Int) ↔
      c.type = .string ∨ (c.type = .int ∧
        ∀ a ∈ c.intvec, ∀ b ∈ c.intvec, toInt32 a = toInt32 b → a = b) := by
  have hone := (length_distinctValues hc hn).1
  unfold distinctValues valuesOf at hone ⊢
  unfold distinctRowCount
  rcases hkind with h | h | h <;> simp only [h] at hone ⊢
  · -- the set holds the values cut to `int`
    have hvalues : (c.intvec.map Value.int).dedup.length = c.intvec.dedup.length :=
      Distinct.length_dedup_map_iff.mpr fun a _ b _ => Value.int.inj
    rw [hvalues, ← Distinct.length_dedup_map_iff]
    simp
  · -- a DATE counts 0, and has a value
    simp
    omega
  · have hvalues : (c.strvec.map Value.string).dedup.length = c.strvec.dedup.length :=
      Distinct.length_dedup_map_iff.mpr fun a _ b _ => Value.string.inj
    rw [hvalues]
    simp

theorem aggregateValue_countDistinct {t : TableData} (hrows : t.rowCount ≠ 0) (isGroupby : Bool)
    (name : String) :
    aggregateValue isGroupby t (bareColumn .countDistinct name) =
      (distinctRowCount (t.tableData.get name)).map .int := by
  rw [aggregateValue_eq hrows]
  cases hcount : distinctRowCount (t.tableData.get name) <;>
    simp [projectionColumn, bareColumn, hcount, countColumn, ColData.value?]

/-- **`COUNT(DISTINCT)`** counts the values of STRING columns, and of INT
columns whose values differ as `int`. -/
theorem countDistinct_iff {t : TableData} {n : Nat} (hw : t.WellFormed n) (hn : 0 < n)
    {name : String} (hname : name ∈ t.tableData)
    (hkind : (t.tableData.get name).type = .int ∨ (t.tableData.get name).type = .date ∨
      (t.tableData.get name).type = .string) (isGroupby : Bool) :
    DistinctCounted isGroupby t name ↔
      (t.tableData.get name).type = .string ∨ ((t.tableData.get name).type = .int ∧
        ∀ a ∈ (t.tableData.get name).intvec, ∀ b ∈ (t.tableData.get name).intvec,
          toInt32 a = toInt32 b → a = b) := by
  have hrows : t.rowCount ≠ 0 := (hw.rowCount_pos hn).ne'
  have hlength := hw.column name hname
  obtain ⟨hone, hle⟩ := length_distinctValues hlength hn
  have hdistinct := aggregateValue_countDistinct hrows isGroupby name
  have hstar : aggregateValue isGroupby t (bareColumn .countStar name) = some (.int n) := by
    rw [← hw.count]
    exact aggregateValue_countStar hrows isGroupby (bareColumn .columnName name)
  rw [← distinctRowCount_eq_iff hlength hn hkind]
  unfold DistinctCounted
  rw [hdistinct, hstar]
  constructor
  · rintro ⟨count, total, hcount, rfl, -⟩
    obtain ⟨k, hk, heq⟩ := Option.map_eq_some_iff.mp hcount
    rw [hk, Value.int.inj heq]
  · intro hcount
    rw [hcount]
    exact ⟨_, n, rfl, rfl, rfl, by omega, by omega⟩

theorem countDistinct_numbers :
    DistinctCounted false (numberTable "n" [7, 3, 7] .workDone) "n" ↔
      ((numberTable "n" [7, 3, 7] .workDone).tableData.get "n").type = .string ∨
        (((numberTable "n" [7, 3, 7] .workDone).tableData.get "n").type = .int ∧
          ∀ a ∈ ((numberTable "n" [7, 3, 7] .workDone).tableData.get "n").intvec,
            ∀ b ∈ ((numberTable "n" [7, 3, 7] .workDone).tableData.get "n").intvec,
              toInt32 a = toInt32 b → a = b) :=
  countDistinct_iff (numberTable_wellFormed "n" [7, 3, 7] .workDone) (by decide)
    (mem_numberTable.mpr rfl) (.inl rfl) false

/-- 0 and `2³²` are the same `int`. -/
theorem countDistinct_cuts :
    distinctValues ((numberTable "n" [0, 2 ^ 32] .workDone).tableData.get "n") =
        [.int 0, .int (2 ^ 32)] ∧
      aggregateValue false (numberTable "n" [0, 2 ^ 32] .workDone)
        (bareColumn .countDistinct "n") = some (.int 1) ∧
      ¬ DistinctCounted false (numberTable "n" [0, 2 ^ 32] .workDone) "n" := by
  have hvalues : distinctValues ((numberTable "n" [0, 2 ^ 32] .workDone).tableData.get "n") =
      [.int 0, .int (2 ^ 32)] := by decide +kernel
  have hcount : aggregateValue false (numberTable "n" [0, 2 ^ 32] .workDone)
      (bareColumn .countDistinct "n") = some (.int 1) := by decide +kernel
  refine ⟨hvalues, hcount, ?_⟩
  rintro ⟨count, total, hcount', hlength, -⟩
  rw [hcount] at hcount'
  cases hcount'
  rw [hvalues] at hlength
  cases hlength

end KetiEngine.Merging
