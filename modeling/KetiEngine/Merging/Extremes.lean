import KetiEngine.Merging.BareColumn
import KetiEngine.Merging.InnerJoin

/-!
# Extremes — `MIN` and `MAX` of a column

The least and the greatest value of a column, and the one row that `MIN` and
`MAX` append. The switches of the two branches do not have the same types:
neither has DATE, and the accumulator of `MAX` starts without a STRING and
without decimals.
-/

namespace KetiEngine.Merging

open KetiEngine

inductive Extremum where
  | min | max
  deriving DecidableEq

namespace Extremum

def selectType : Extremum → SelectType
  | .min => .min
  | .max => .max

/-- How the extreme value compares to every value of the column. -/
def oper : Extremum → OperType
  | .min => .le
  | .max => .ge

/-- The accumulator before the loop. -/
def start : Extremum → T → T
  | .min => fun first => first
  | .max => maxStart

def row : Extremum → T → T → T
  | .min => minRow
  | .max => maxRow

end Extremum

/-! ## The extreme value of a list -/

/-- The loop over values of one kind. -/
theorem foldl_pick_extreme {α : Type} {lt : α → α → Bool} {P : α → Prop} (oper : OperType)
    (g : α → Value) (h : Reorder.TotalOn lt P)
    (horder : ∀ x y, P x → P y → lt x y = false → valuesRelate oper (g y) (g x))
    (a : α) (as : List α) (hP : ∀ x ∈ a :: as, P x) :
    g (as.foldl (Reorder.pick lt) a) ∈ (a :: as).map g ∧
      ∀ u ∈ (a :: as).map g, valuesRelate oper (g (as.foldl (Reorder.pick lt) a)) u := by
  obtain ⟨hmem, hleast⟩ := Reorder.foldl_pick h hP
  refine ⟨List.mem_map_of_mem hmem, fun u hu => ?_⟩
  obtain ⟨x, hx, rfl⟩ := List.mem_map.mp hu
  exact horder x _ (hP x hx) (hP _ hmem) (hleast x hx)

theorem ble_of_not_blt {x y : Double} (hx : x ≠ .nan) (hy : y ≠ .nan) (h : x.blt y = false) :
    y.ble x = true := by
  by_cases hlt : y.blt x = true
  · simp [Double.ble, hlt]
  · have heq := double_totalOn.total x y hx hy h (by simpa using hlt)
    subst heq
    cases x <;> simp_all [Double.ble, Double.beq]

/-- `w` is one of the values and compares to all of them. -/
def ExtremeOf (oper : OperType) (vs : List Value) (w : Value) : Prop :=
  w ∈ vs ∧ ∀ u ∈ vs, valuesRelate oper w u

/-! ## The loop over the rows -/

section
variable {onInt : Int → Int → Bool} {onFloat : Double → Double → Bool}
  {onString : String → String → Bool} (oper : OperType) (c : ColData) {t : T}

/-- The loop over one field of the rows, `wrap` being the value it holds. -/
theorem foldl_pickRow_extreme {α : Type} {lt : α → α → Bool} {P : α → Prop} {type : VectorType}
    (get : T → α) (wrap : α → Value) (h : Reorder.TotalOn lt P)
    (horder : ∀ x y, P x → P y → lt x y = false → valuesRelate oper (wrap y) (wrap x))
    (hpick : ∀ t : T, t.type = type →
      ∀ u, get (pickRow onInt onFloat onString t u) = Reorder.pick lt (get t) (get u))
    (hget : ∀ a, get (valueOperand c (wrap a)) = a)
    (hvalue : ∀ t : T, t.type = type → t.value? = some (wrap (get t)))
    (ht : t.type = type) {a : α} (ha : get t = a) {as : List α} (hP : ∀ x ∈ a :: as, P x) :
    ∃ w, (((as.map wrap).map (valueOperand c)).foldl
        (pickRow onInt onFloat onString) t).value? = some w ∧
      ExtremeOf oper ((a :: as).map wrap) w := by
  subst ha
  refine ⟨wrap (as.foldl (Reorder.pick lt) (get t)), ?_,
    foldl_pick_extreme oper wrap h horder (get t) as hP⟩
  have hfields : ((as.map wrap).map (valueOperand c)).map get = as := by
    simp [Function.comp_def, hget]
  rw [hvalue _ ((foldl_pickRow_type _ _).trans ht), foldl_pickRow_field get lt hpick ht, hfields]

theorem foldl_pickRow_ints (h : Reorder.TotalOn onInt fun _ => True)
    (horder : ∀ x y, onInt x y = false → valuesRelate oper (.int y) (.int x))
    (ht : t.type = .int) {a : Int} (ha : t.varInt = a) (as : List Int) :
    ∃ w, (((as.map Value.int).map (valueOperand c)).foldl
        (pickRow onInt onFloat onString) t).value? = some w ∧
      ExtremeOf oper ((a :: as).map .int) w :=
  foldl_pickRow_extreme oper c T.varInt .int h (fun x y _ _ => horder x y)
    (fun _ ht => pickRow_varInt ht) (fun _ => rfl) (fun t ht => by simp [T.value?, ht])
    ht ha fun _ _ => trivial

theorem foldl_pickRow_floats (h : Reorder.TotalOn onFloat (· ≠ .nan))
    (horder : ∀ x y, x ≠ .nan → y ≠ .nan → onFloat x y = false →
      valuesRelate oper (.float y) (.float x))
    (ht : t.type = .float) {x : Double} (hx : t.varFloat = x) {xs : List Double}
    (hnan : .nan ∉ x :: xs) :
    ∃ w, (((xs.map Value.float).map (valueOperand c)).foldl
        (pickRow onInt onFloat onString) t).value? = some w ∧
      ExtremeOf oper ((x :: xs).map .float) w :=
  foldl_pickRow_extreme oper c T.varFloat .float h horder
    (fun _ ht => pickRow_varFloat ht) (fun _ => rfl) (fun t ht => by simp [T.value?, ht])
    ht hx fun y hy hnan' => hnan (hnan' ▸ hy)

theorem foldl_pickRow_strings (h : Reorder.TotalOn onString fun _ => True)
    (horder : ∀ x y, onString x y = false → valuesRelate oper (.string y) (.string x))
    (ht : t.type = .string) {s : String} (hs : t.varString = s) (ss : List String) :
    ∃ w, (((ss.map Value.string).map (valueOperand c)).foldl
        (pickRow onInt onFloat onString) t).value? = some w ∧
      ExtremeOf oper ((s :: ss).map .string) w :=
  foldl_pickRow_extreme oper c T.varString .string h (fun x y _ _ => horder x y)
    (fun _ ht => pickRow_varString ht) (fun _ => rfl) (fun t ht => by simp [T.value?, ht])
    ht hs fun _ _ => trivial

end

/-- The loop ends with the extreme value of the column, when it starts with
a value of the column's type. -/
theorem foldl_row_extreme {c : ColData} {v : Value} {vs : List Value}
    (hvalues : valuesOf c = v :: vs) (e : Extremum)
    (hstart : (e.start (valueOperand c v)).type = c.type) (hdate : c.type ≠ .date)
    (hnan : c.type = .float → .nan ∉ c.floatvec) :
    ∃ w, ((vs.map (valueOperand c)).foldl e.row (e.start (valueOperand c v))).value? = some w ∧
      ExtremeOf e.oper (valuesOf c) w := by
  rw [hvalues]
  unfold valuesOf at hvalues
  cases hc : c.type <;> simp only [hc, reduceCtorEq] at hvalues hstart hdate hnan
  case date => exact absurd rfl hdate
  case int =>
    obtain ⟨a, as, -, rfl, rfl⟩ := List.map_eq_cons_iff.mp hvalues
    cases e with
    | min =>
      refine foldl_pickRow_ints .le c int_totalOn.1 (fun x y h => ?_) hstart rfl as
      simpa [valuesRelate, relates] using h
    | max =>
      refine foldl_pickRow_ints .ge c int_totalOn.2 (fun x y h => ?_) hstart
        (by simp [Extremum.start, maxStart, valueOperand, hc]) as
      simpa [valuesRelate, relates] using h
  case float =>
    obtain ⟨x, xs, hxs, rfl, rfl⟩ := List.map_eq_cons_iff.mp hvalues
    rw [hxs] at hnan
    cases e with
    | min =>
      exact foldl_pickRow_floats .le c double_totalOn (fun x y hx hy h => ble_of_not_blt hx hy h)
        hstart rfl (hnan trivial)
    | max =>
      exact foldl_pickRow_floats .ge c double_totalOn_reverse
        (fun x y hx hy h => ble_of_not_blt hy hx h) hstart
        (by simp [Extremum.start, maxStart, valueOperand]) (hnan trivial)
  case string =>
    obtain ⟨s, ss, -, rfl, rfl⟩ := List.map_eq_cons_iff.mp hvalues
    cases e with
    | min =>
      refine foldl_pickRow_strings .le c string_totalOn (fun x y h => ?_) hstart rfl ss
      exact decide_eq_true (String.not_lt.mp (of_decide_eq_false h))
    | max =>
      -- the accumulator of `MAX` never starts as a STRING
      simp [Extremum.start, maxStart, valueOperand] at hstart

/-! ## The row that is appended -/

theorem appendColumn_pickColumn {x : T} {w : Value} (hx : x.value? = some w)
    (hdate : x.type ≠ .date) (d : ColData) :
    appendColumn (pickColumn x x.type) d = { d.appendValues [w] with
      type := x.type
      realSize := if x.type = .float then max 0 x.realSize else d.realSize } := by
  unfold T.value? at hx
  cases htype : x.type <;>
    simp only [htype, Option.some.injEq, reduceCtorEq, ne_eq, not_true] at hx hdate
  all_goals
    subst hx
    simp [appendColumn, pickColumn, htype, ColData.appendValues, Value.string?, Value.int?,
      Value.float?]

theorem value?_pickColumn {x : T} {w : Value} (hx : x.value? = some w) (hdate : x.type ≠ .date) :
    (pickColumn x x.type).value? 0 = some w := by
  unfold T.value? at hx
  cases htype : x.type <;>
    simp only [htype, Option.some.injEq, reduceCtorEq, ne_eq, not_true] at hx hdate
  all_goals
    subst hx
    simp [pickColumn, htype, ColData.value?]

/-- The switch at the end has no DATE. -/
theorem rowCount_pickColumn_iff {x : T} {type : VectorType} :
    (pickColumn x type).rowCount = 1 ↔ x.type = .int ∨ x.type = .float ∨ x.type = .string := by
  cases htype : x.type <;> simp [pickColumn, htype]

section
variable {t : TableData} {n : Nat} {name : String} (hw : t.WellFormed n) (hn : 0 < n)
  (hname : name ∈ t.tableData) (hword : name ∉ keywords)
include hw hn hname hword

theorem projectionColumn_extremum (e : Extremum) (isGroupby : Bool) :
    ∃ v vs, valuesOf (t.tableData.get name) = v :: vs ∧
      projectionColumn isGroupby t (bareColumn e.selectType name) = some (pickColumn
        ((vs.map (valueOperand (t.tableData.get name))).foldl e.row
          (e.start (valueOperand (t.tableData.get name) v)))
        (t.tableData.get name).type) := by
  obtain ⟨v, vs, hvalues, hrows⟩ := rowsAre_bareColumn hw hn hname hword e.selectType
  have htype : ∀ x ∈ valueOperand (t.tableData.get name) v ::
      vs.map (valueOperand (t.tableData.get name)), x.type = (t.tableData.get name).type := by
    intro x hx
    rw [← List.map_cons, ← hvalues] at hx
    obtain ⟨u, hu, rfl⟩ := List.mem_map.mp hx
    exact type_valueOperand hu
  refine ⟨v, vs, hvalues, ?_⟩
  cases e with
  | min =>
    have hhead := hrows.head
    have htail := hrows.tail
    simp only [projectionColumn, bareColumn, Extremum.selectType] at hhead htail ⊢
    rw [hhead, htail]
    simp only [Option.bind_eq_bind, Option.bind_some, Option.pure_def, minColumn_eq,
      htype _ List.mem_cons_self]
    rfl
  | max =>
    have hhead := hrows.head
    have htail := hrows.tail
    simp only [projectionColumn, bareColumn, Extremum.selectType] at hhead htail ⊢
    rw [hhead, htail]
    simp only [Option.bind_eq_bind, Option.bind_some, Option.pure_def, maxColumn,
      htype _ (last_mem _ _)]
    rfl

end

/-- The types, and the columns, that the branch treats as it should. -/
def Extremum.Supported (e : Extremum) (c : ColData) : Prop :=
  match e with
  | .min => c.type ≠ .date ∧ (c.type = .float → .nan ∉ c.floatvec ∧ 0 ≤ c.realSize)
  | .max => c.type = .int ∨ (c.type = .float ∧ .nan ∉ c.floatvec ∧ c.realSize = 0)

/-- The accumulator starts with the type and the decimals of the column. -/
theorem supported_iff {c : ColData} {v : Value} (hv : v ∈ valuesOf c) (e : Extremum) :
    e.Supported c ↔ (e.start (valueOperand c v)).type = c.type ∧ c.type ≠ .date ∧
      (c.type = .float → .nan ∉ c.floatvec ∧
        max 0 (e.start (valueOperand c v)).realSize = c.realSize) := by
  have htype := type_valueOperand hv
  unfold valuesOf at hv
  cases hc : c.type <;> simp only [hc, List.mem_map, List.not_mem_nil] at hv htype
  all_goals
    obtain ⟨a, -, rfl⟩ := hv
    cases e <;>
      simp [Extremum.Supported, Extremum.start, maxStart, valueOperand, hc, eq_comm]

/-- `Aggregation` with `MIN` or `MAX` of a column appends its extreme value,
with the column's type and decimals, as one row. -/
def ExtremeRight (e : Extremum) (isGroupby : Bool) (t : TableData) (name columnAlias : String)
    (dest : TableData) : Prop :=
  ∃ d w, aggregation isGroupby t [bareColumn e.selectType name] [columnAlias] dest = some d ∧
    ExtremeOf e.oper (valuesOf (t.tableData.get name)) w ∧
    d.tableData.get columnAlias = { (dest.tableData.get columnAlias).appendValues [w] with
      type := (t.tableData.get name).type
      realSize :=
        if (t.tableData.get name).type = .float then (t.tableData.get name).realSize
        else (dest.tableData.get columnAlias).realSize } ∧
    d.rowCount = dest.rowCount + 1

/-! ## When the extreme value is appended -/

theorem Extremum.start_type (e : Extremum) (first : T) :
    (e.start first).type = first.type ∨ (e.start first).type = .empty := by
  cases e with
  | min => exact .inl rfl
  | max => cases hfirst : first.type <;> simp [start, maxStart, hfirst]

/-- The loop leaves the type and the decimals of the accumulator. -/
theorem Extremum.foldl_row (e : Extremum) (t : T) (ts : List T) :
    (ts.foldl e.row t).type = t.type ∧ (ts.foldl e.row t).realSize = t.realSize := by
  cases e with
  | min => exact ⟨foldl_pickRow_type t ts, foldl_pickRow_realSize t ts⟩
  | max => exact ⟨foldl_pickRow_type t ts, foldl_pickRow_realSize t ts⟩

/-- NaN is in no order. -/
theorem ExtremeOf.nan_notMem {e : Extremum} {c : ColData} {w : Value} (hc : c.type = .float)
    (h : ExtremeOf e.oper (valuesOf c) w) : .nan ∉ c.floatvec := by
  intro hnan
  have hmem : Value.float .nan ∈ valuesOf c := by simpa [valuesOf, hc] using hnan
  have hrelate := h.2 _ hmem
  cases w with
  | string s => cases e <;> simp [valuesRelate] at hrelate
  | int k => cases e <;> simp [valuesRelate] at hrelate
  | float x =>
    cases e <;> cases x <;>
      simp [valuesRelate, relatesDouble, Extremum.oper, Double.ble, Double.blt, Double.beq]
        at hrelate

/-- The value that is appended. -/
theorem aggregateValue_extremum {t : TableData} {n : Nat} (hw : t.WellFormed n) (hn : 0 < n)
    {name : String} (hname : name ∈ t.tableData) (hword : name ∉ keywords) {e : Extremum}
    (he : e.Supported (t.tableData.get name)) (isGroupby : Bool) :
    ∃ w, aggregateValue isGroupby t (bareColumn e.selectType name) = some w ∧
      ExtremeOf e.oper (valuesOf (t.tableData.get name)) w := by
  have hrows : t.rowCount ≠ 0 := (hw.rowCount_pos hn).ne'
  obtain ⟨v, vs, hvalues, hcolumn⟩ := projectionColumn_extremum hw hn hname hword e isGroupby
  have hv : v ∈ valuesOf (t.tableData.get name) := by simp [hvalues]
  obtain ⟨hstart, hdate, hfloat⟩ := (supported_iff hv e).mp he
  obtain ⟨w, hw, hext⟩ := foldl_row_extreme hvalues e hstart hdate fun h => (hfloat h).1
  refine ⟨w, ?_, hext⟩
  have htype := ((e.foldl_row _ (vs.map (valueOperand (t.tableData.get name)))).1).trans hstart
  rw [aggregateValue_eq hrows, hcolumn, Option.bind_some, ← htype]
  exact value?_pickColumn hw (htype ▸ hdate)

/-- **`MIN` and `MAX`** append the extreme value exactly of the columns they
support. -/
theorem aggregation_extreme_iff {t : TableData} {n : Nat} (hw : t.WellFormed n) (hn : 0 < n)
    {name : String} (hname : name ∈ t.tableData) (e : Extremum) (isGroupby : Bool)
    (columnAlias : String) (dest : TableData) :
    ExtremeRight e isGroupby t name columnAlias dest ↔
      name ∉ keywords ∧ e.Supported (t.tableData.get name) := by
  have hrows : t.rowCount ≠ 0 := (hw.rowCount_pos hn).ne'
  unfold ExtremeRight
  rw [aggregation_single hrows]
  by_cases hword : name ∈ keywords
  · have hpos : 0 < t.rowCount := hw.rowCount_pos hn
    have hselect : e.selectType ∈ [SelectType.sum, .avg, .min, .max] := by cases e <;> decide
    rw [projectionColumn_keyword hpos hword hselect]
    simp [hword]
  obtain ⟨v, vs, hvalues, hcolumn⟩ := projectionColumn_extremum hw hn hname hword e isGroupby
  rw [hcolumn]
  generalize t.tableData.get name = c at hvalues ⊢
  have hv : v ∈ valuesOf c := by simp [hvalues]
  obtain ⟨htype, hsize⟩ := e.foldl_row (e.start (valueOperand c v)) (vs.map (valueOperand c))
  rw [supported_iff hv]
  constructor
  · -- a row was appended, so the accumulator has a type of the last switch
    rintro ⟨d, w, hd, hext, hcol, hcount⟩
    cases hd
    have hone := rowCount_pickColumn_iff.mp (Int.add_left_cancel hcount)
    rw [htype] at hone
    have hstart : (e.start (valueOperand c v)).type = c.type := by
      rcases e.start_type (valueOperand c v) with h | h
      · rw [h, type_valueOperand hv]
      · simp [h] at hone
    rw [hstart] at hone htype
    refine ⟨hword, hstart, fun hdate => by simp [hdate] at hone, fun hfloat => ?_⟩
    refine ⟨hext.nan_notMem hfloat, ?_⟩
    -- the decimals are those of the accumulator
    have hsizes := congrArg ColData.realSize hcol
    rw [ColMap.get_modify] at hsizes
    simpa [appendColumn, pickColumn, htype, hfloat, hsize] using hsizes
  · rintro ⟨-, hstart, hdate, hfloat⟩
    obtain ⟨w, hw, hext⟩ := foldl_row_extreme hvalues e hstart hdate fun h => (hfloat h).1
    rw [hstart] at htype
    have happend := appendColumn_pickColumn hw (htype ▸ hdate) (dest.tableData.get columnAlias)
    rw [htype] at happend
    refine ⟨_, w, rfl, hext, ?_, ?_⟩
    · rw [ColMap.get_modify, happend, hsize]
      by_cases hc : c.type = .float
      · rw [if_pos hc, if_pos hc, (hfloat hc).2]
      · rw [if_neg hc, if_neg hc]
    · refine congrArg (dest.rowCount + ·) (rowCount_pickColumn_iff.mpr ?_)
      unfold T.value? at hw
      rw [htype] at hw ⊢
      cases hc : c.type <;> simp_all

theorem aggregation_extreme_numbers :
    ExtremeRight .min false (numberTable "n" [7, 3] .workDone) "n" "least" {} ↔
      "n" ∉ keywords ∧
        Extremum.min.Supported ((numberTable "n" [7, 3] .workDone).tableData.get "n") :=
  aggregation_extreme_iff (numberTable_wellFormed "n" [7, 3] .workDone) (by decide)
    (mem_numberTable.mpr rfl) .min false "least" {}

/-- The greatest string has no row. -/
theorem max_of_strings_missing :
    promoFirst.WellFormed 2 ∧ "p_type" ∈ promoFirst.tableData ∧
      ∃ d, aggregation false promoFirst [bareColumn .max "p_type"] ["last"] {} = some d ∧
        d.rowCount = 0 ∧ d.tableData.get "last" = { type := .string } ∧
        ¬ ExtremeRight .max false promoFirst "p_type" "last" {} := by
  refine ⟨promoFirst_wellFormed, mem_partTable.mpr (.inr rfl), ?_⟩
  have hrun : (aggregation false promoFirst [bareColumn .max "p_type"] ["last"] {}).map
      (fun d => (d.rowCount, d.tableData.get "last")) = some (0, { type := .string }) := by
    decide +kernel
  obtain ⟨d, hd, hcolumn⟩ := Option.map_eq_some_iff.mp hrun
  obtain ⟨hcount, hcolumn⟩ := Prod.mk.inj hcolumn
  refine ⟨d, hd, hcount, hcolumn, ?_⟩
  rintro ⟨d', w, hd', -, -, hone⟩
  have hsame : d = d' := Option.some.inj (hd.symm.trans hd')
  rw [← hsame, hcount] at hone
  cases hone

end KetiEngine.Merging
