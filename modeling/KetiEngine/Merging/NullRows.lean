import KetiEngine.Merging.Counting
import KetiEngine.Merging.Extremes
import KetiEngine.Merging.OuterJoin

/-!
# NullRows — aggregates over a column with padded cells

Rows added to a table with a null cell in one column, which has the default
value an outer join writes there. `COUNT` looks at the null flags; the other
aggregates take the default value for a value.
-/

namespace KetiEngine.Merging

open KetiEngine

/-- Row `k` of `c'` is row `r` of `c` where `rows[k]` is `some r`, and a padded
cell where it is `none`. The rows of `c` are all there, in their order. -/
structure NullsAdded (c c' : ColData) (n : Nat) (rows : List (Option Nat)) : Prop where
  kept : rows.reduceOption = List.range n
  type : c'.type = c.type
  value : ∀ k : Nat, c'.value? k =
    rows[k]?.bind fun row => row.elim (some (defaultValue c.type)) c.value?
  isnull : ∀ k : Nat, c'.isnull[k]? =
    rows[k]?.bind fun row => row.elim (some true) (c.isnull[·]?)

/-- The number of rows that are added. -/
def added (rows : List (Option Nat)) : Nat := rows.countP Option.isNone

section
variable {c c' : ColData} {n : Nat} {rows : List (Option Nat)} (h : NullsAdded c c' n rows)
  (hc : c.HasLength n)
include h hc

theorem NullsAdded.perm_values :
    (valuesOf c').Perm (valuesOf c ++ List.replicate (added rows) (defaultValue c.type)) := by
  refine Reorder.perm_append_replicate (length_valuesOf hc) h.kept fun k => ?_
  rw [getElem?_valuesOf, h.value]
  simp only [getElem?_valuesOf]

theorem NullsAdded.perm_isnull :
    c'.isnull.Perm (c.isnull ++ List.replicate (added rows) true) :=
  Reorder.perm_append_replicate hc.null h.kept h.isnull

theorem NullsAdded.length {n' : Nat} (hc' : c'.HasLength n') : n' = n + added rows := by
  have hlength := (h.perm_isnull hc).length_eq
  rwa [hc'.null, List.length_append, hc.null, List.length_replicate] at hlength

theorem NullsAdded.perm_ints (hint : c.type = .int) :
    c'.intvec.Perm (c.intvec ++ List.replicate (added rows) 0) := by
  have hperm := h.perm_values hc
  have htype := h.type
  rw [hint] at hperm htype
  simp only [valuesOf, hint, htype, defaultValue] at hperm
  rw [← List.map_replicate, ← List.map_append] at hperm
  exact (List.map_perm_map_iff fun a b => Value.int.inj).mp hperm

theorem NullsAdded.sum_ints (hint : c.type = .int) : c'.intvec.sum = c.intvec.sum := by
  rw [(h.perm_ints hc hint).sum_eq, List.sum_append, List.sum_replicate, nsmul_zero, add_zero]

theorem NullsAdded.perm_strings (hstring : c.type = .string) :
    c'.strvec.Perm (c.strvec ++ List.replicate (added rows) "") := by
  have hperm := h.perm_values hc
  have htype := h.type
  rw [hstring] at hperm htype
  simp only [valuesOf, hstring, htype, defaultValue] at hperm
  rw [← List.map_replicate, ← List.map_append] at hperm
  exact (List.map_perm_map_iff fun a b => Value.string.inj).mp hperm

end

/-! ## The aggregates of a column -/

section
variable {t : TableData} {n : Nat} {name : String} (hw : t.WellFormed n) (hn : 0 < n)
  (hname : name ∈ t.tableData) (isGroupby : Bool)
include hw hn

theorem aggregateValue_count :
    aggregateValue isGroupby t (bareColumn .count name) =
      some (.int ((t.tableData.get name).isnull.count false)) := by
  rw [aggregateValue_eq (hw.rowCount_pos hn).ne']
  simp [projectionColumn, bareColumn, countColumn, ColData.value?]

theorem aggregateValue_keyword (hword : name ∈ keywords) {selectType : SelectType}
    (hselect : selectType ∈ [SelectType.sum, .avg, .min, .max]) :
    aggregateValue isGroupby t (bareColumn selectType name) = none := by
  have hpos : 0 < t.rowCount := hw.rowCount_pos hn
  rw [aggregateValue_eq hpos.ne', projectionColumn_keyword hpos hword hselect]
  rfl

/-! The rows of an INT column. -/

variable (hint : (t.tableData.get name).type = .int) (hword : name ∉ keywords)
include hname hint hword

theorem rows_ints : ∃ ts, projectRows t (bareColumn .columnName name) 0 = some ts ∧ ts ≠ [] ∧
    (∀ x ∈ ts, x.type = .int) ∧ ts.map T.varInt = (t.tableData.get name).intvec := by
  refine ⟨_, projectRows_bareColumn hw hname hword .columnName 0, ?_, ?_, ?_⟩
  · have hlength := length_valuesOf (hw.column name hname)
    rw [List.drop_zero, ← List.length_pos_iff, List.length_map, hlength]
    exact hn
  · intro x hx
    obtain ⟨v, hv, rfl⟩ := List.mem_map.mp hx
    rw [type_valueOperand (List.mem_of_mem_drop hv), hint]
  · simp [valuesOf, hint, Function.comp_def, valueOperand]

theorem aggregateValue_sum_ints :
    aggregateValue isGroupby t (bareColumn .sum name) =
      some (.int (toInt64 (t.tableData.get name).intvec.sum)) := by
  obtain ⟨ts, hts, hne, htypes, hints⟩ := rows_ints hw hn hname hint hword
  have hsum := aggregateValue_sum (hw.rowCount_pos hn).ne' isGroupby
    (bareColumn .columnName name) (t := t)
  rw [hts, Option.bind_some, sumColumn_of_int hne htypes, hints] at hsum
  exact hsum

theorem aggregateValue_avg_ints :
    aggregateValue isGroupby t (bareColumn .avg name) = some (.float
      (Double.ofInt ((toInt64 (t.tableData.get name).intvec.sum).tdiv t.rowCount)).toFloat) := by
  obtain ⟨ts, hts, hne, htypes, hints⟩ := rows_ints hw hn hname hint hword
  have hlast : (ts.getLast?.getD {}).type = .int := by
    rw [List.getLast?_eq_some_getLast hne, Option.getD_some]
    exact htypes _ (List.getLast_mem hne)
  have havg := aggregateValue_avg (hw.rowCount_pos hn).ne' isGroupby
    (bareColumn .columnName name) (t := t)
  rw [projectionAverage_int hts hlast, intTotal_of_int htypes, hints] at havg
  exact havg

end

/-! ## What the added cells change -/

/-- The extreme value of a list of integers with zeros. -/
theorem extremeOf_append_zeros {e : Extremum} {as : List Int} {k : Nat} {w : Value}
    (h : ExtremeOf e.oper (as.map .int) w) :
    ExtremeOf e.oper ((as ++ List.replicate k 0).map .int) w ↔
      k = 0 ∨ ∃ a ∈ as, valuesRelate e.oper (.int a) (.int 0) := by
  obtain ⟨hmem, hall⟩ := h
  obtain ⟨a, ha, rfl⟩ := List.mem_map.mp hmem
  constructor
  · -- a zero that is there compares to `w`
    intro hext
    rcases Nat.eq_zero_or_pos k with hk | hk
    · exact .inl hk
    · refine .inr ⟨a, ha, hext.2 _ (List.mem_map_of_mem ?_)⟩
      exact List.mem_append_right _ (List.mem_replicate.mpr ⟨by omega, rfl⟩)
  · intro hzero
    refine ⟨List.mem_map_of_mem (List.mem_append_left _ ha), fun u hu => ?_⟩
    obtain ⟨b, hb, rfl⟩ := List.mem_map.mp hu
    rcases List.mem_append.mp hb with hb | hb
    · exact hall _ (List.mem_map_of_mem hb)
    · -- `w` goes beyond `b`, and `b` beyond 0
      obtain ⟨hk, rfl⟩ := List.mem_replicate.mp hb
      obtain ⟨b, hb, hrelate⟩ := hzero.resolve_left hk
      have hab := hall _ (List.mem_map_of_mem hb)
      cases e <;> simp [valuesRelate, relates, Extremum.oper] at hrelate hab ⊢ <;> omega

/-- A list of integers has one extreme value. -/
theorem ExtremeOf.unique {e : Extremum} {as : List Int} {v w : Value}
    (hv : ExtremeOf e.oper (as.map .int) v) (hw : ExtremeOf e.oper (as.map .int) w) : v = w := by
  have hvw := hv.2 _ hw.1
  have hwv := hw.2 _ hv.1
  obtain ⟨a, -, rfl⟩ := List.mem_map.mp hv.1
  obtain ⟨b, -, rfl⟩ := List.mem_map.mp hw.1
  cases e <;> simp [valuesRelate, relates, Extremum.oper] at hvw hwv ⊢ <;> omega

theorem ExtremeOf.perm {oper : OperType} {vs ws : List Value} {w : Value} (h : vs.Perm ws)
    (hext : ExtremeOf oper vs w) : ExtremeOf oper ws w :=
  ⟨h.mem_iff.mp hext.1, fun u hu => hext.2 u (h.mem_iff.mpr hu)⟩

/-- The aggregates of a column of the type. -/
def nullAggregates : VectorType → List SelectType
  | .int => [.sum, .avg, .min, .max, .count, .countDistinct]
  | .string => [.count, .countDistinct]
  | _ => []

/-- The aggregate has one value on the two tables. -/
def NullsIgnored (isGroupby : Bool) (t t' : TableData) (name : String) (select : SelectType) :
    Prop :=
  ∃ v, aggregateValue isGroupby t (bareColumn select name) = some v ∧
    aggregateValue isGroupby t' (bareColumn select name) = some v

/-- The default value is neutral for the aggregate on the column `name` of
`t`, to which rows are added up to `t'`. -/
def Neutral (t t' : TableData) (name : String) : SelectType → Prop
  | .sum => name ∉ keywords
  | .avg => name ∉ keywords ∧
      (Double.ofInt ((toInt64 (t.tableData.get name).intvec.sum).tdiv t.rowCount)).toFloat =
        (Double.ofInt ((toInt64 (t.tableData.get name).intvec.sum).tdiv t'.rowCount)).toFloat
  | .min => name ∉ keywords ∧
      (t'.rowCount = t.rowCount ∨ ∃ a ∈ (t.tableData.get name).intvec, a ≤ 0)
  | .max => name ∉ keywords ∧
      (t'.rowCount = t.rowCount ∨ ∃ a ∈ (t.tableData.get name).intvec, 0 ≤ a)
  | .countDistinct => t'.rowCount = t.rowCount ∨ ∃ v ∈ valuesOf (t.tableData.get name),
      narrow v = defaultValue (t.tableData.get name).type
  | _ => True

theorem nullsIgnored_iff {isGroupby : Bool} {t t' : TableData} {name : String}
    {select : SelectType} {v v' : Value}
    (hv : aggregateValue isGroupby t (bareColumn select name) = some v)
    (hv' : aggregateValue isGroupby t' (bareColumn select name) = some v') :
    NullsIgnored isGroupby t t' name select ↔ v = v' := by
  unfold NullsIgnored
  rw [hv, hv']
  simp [eq_comm]

section
variable {t t' : TableData} {n n' : Nat} {name : String} {rows : List (Option Nat)}
  (hw : t.WellFormed n) (hw' : t'.WellFormed n') (hn : 0 < n) (hname : name ∈ t.tableData)
  (hname' : name ∈ t'.tableData)
  (h : NullsAdded (t.tableData.get name) (t'.tableData.get name) n rows) (isGroupby : Bool)
include hw hw' hn hname hname' h

theorem nullsIgnored_extremum (hint : (t.tableData.get name).type = .int)
    (hword : name ∉ keywords) (e : Extremum) :
    NullsIgnored isGroupby t t' name e.selectType ↔
      t'.rowCount = t.rowCount ∨
        ∃ a ∈ (t.tableData.get name).intvec, valuesRelate e.oper (.int a) (.int 0) := by
  have hc := hw.column name hname
  have hlength := h.length hc (hw'.column name hname')
  have hint' : (t'.tableData.get name).type = .int := h.type.trans hint
  have hsupported : ∀ c : ColData, c.type = .int → e.Supported c := by
    intro c hc
    cases e <;> simp [Extremum.Supported, hc]
  obtain ⟨w, hrun, hext⟩ := aggregateValue_extremum hw hn hname hword (hsupported _ hint) isGroupby
  obtain ⟨w', hrun', hext'⟩ :=
    aggregateValue_extremum hw' (by omega) hname' hword (hsupported _ hint') isGroupby
  have hperm := (h.perm_ints hc hint).map Value.int
  simp only [valuesOf, hint] at hext
  simp only [valuesOf, hint'] at hext'
  rw [nullsIgnored_iff hrun hrun']
  have hadded : t'.rowCount = t.rowCount ↔ added rows = 0 := by
    rw [hw.count, hw'.count]
    omega
  rw [hadded, ← extremeOf_append_zeros hext]
  constructor
  · rintro rfl
    exact hext'.perm hperm
  · intro hzeros
    exact hzeros.unique (hext'.perm hperm)

theorem nullsIgnored_count : NullsIgnored isGroupby t t' name .count := by
  have hlength := h.length (hw.column name hname) (hw'.column name hname')
  have hcount := (h.perm_isnull (hw.column name hname)).count_eq false
  rw [List.count_append, List.count_replicate] at hcount
  rw [nullsIgnored_iff (aggregateValue_count hw hn isGroupby)
    (aggregateValue_count hw' (by omega) isGroupby), hcount]
  simp

theorem nullsIgnored_countDistinct
    (hkind : (t.tableData.get name).type = .int ∨ (t.tableData.get name).type = .string) :
    NullsIgnored isGroupby t t' name .countDistinct ↔ t'.rowCount = t.rowCount ∨
      ∃ v ∈ valuesOf (t.tableData.get name),
        narrow v = defaultValue (t.tableData.get name).type := by
  have hc := hw.column name hname
  have hlength := h.length hc (hw'.column name hname')
  have htype := h.type
  have hadded : t'.rowCount = t.rowCount ↔ added rows = 0 := by
    rw [hw.count, hw'.count]
    omega
  have hrun := aggregateValue_countDistinct (hw.rowCount_pos hn).ne' isGroupby name (t := t)
  have hrun' :=
    aggregateValue_countDistinct (hw'.rowCount_pos (by omega)).ne' isGroupby name (t := t')
  rw [hadded]
  rcases hkind with hkind | hkind <;> rw [hkind] at htype
  · -- the padded cells are one more value, 0, of the set
    have hperm := (((h.perm_ints hc hkind).map toInt32).dedup).length_eq
    have hzero : toInt32 0 = 0 := by decide
    rw [List.map_append, List.map_replicate, hzero] at hperm
    simp only [distinctRowCount, hkind, Option.map_some] at hrun
    simp only [distinctRowCount, htype, hperm, Option.map_some] at hrun'
    have hdistinct := Distinct.length_dedup_append_replicate_iff
      (l := (t.tableData.get name).intvec.map toInt32) (k := added rows) (a := 0)
    rw [nullsIgnored_iff hrun hrun', Value.int.injEq, Int.natCast_inj, eq_comm, hdistinct]
    simp [valuesOf, hkind, narrow, defaultValue]
  · have hperm := ((h.perm_strings hc hkind).dedup).length_eq
    simp only [distinctRowCount, hkind, Option.map_some] at hrun
    simp only [distinctRowCount, htype, hperm, Option.map_some] at hrun'
    have hdistinct := Distinct.length_dedup_append_replicate_iff
      (l := (t.tableData.get name).strvec) (k := added rows) (a := "")
    rw [nullsIgnored_iff hrun hrun', Value.int.injEq, Int.natCast_inj, eq_comm, hdistinct]
    simp [valuesOf, hkind, narrow, defaultValue]

theorem nullsIgnored_sum (hint : (t.tableData.get name).type = .int) (hword : name ∉ keywords) :
    NullsIgnored isGroupby t t' name .sum := by
  have hc := hw.column name hname
  have hlength := h.length hc (hw'.column name hname')
  have hsum := h.sum_ints hc hint
  rw [nullsIgnored_iff (aggregateValue_sum_ints hw hn hname isGroupby hint hword)
    (aggregateValue_sum_ints hw' (by omega) hname' isGroupby (h.type.trans hint) hword), hsum]

theorem nullsIgnored_avg (hint : (t.tableData.get name).type = .int) (hword : name ∉ keywords) :
    NullsIgnored isGroupby t t' name .avg ↔
      (Double.ofInt ((toInt64 (t.tableData.get name).intvec.sum).tdiv t.rowCount)).toFloat =
        (Double.ofInt ((toInt64 (t.tableData.get name).intvec.sum).tdiv t'.rowCount)).toFloat := by
  have hc := hw.column name hname
  have hlength := h.length hc (hw'.column name hname')
  have hsum := h.sum_ints hc hint
  rw [nullsIgnored_iff (aggregateValue_avg_ints hw hn hname isGroupby hint hword)
    (aggregateValue_avg_ints hw' (by omega) hname' isGroupby (h.type.trans hint) hword), hsum,
    Value.float.injEq]

/-- **Padded cells** leave an aggregate as it is exactly when the default
value is neutral for it. -/
theorem nulls_ignored_iff {select : SelectType}
    (hselect : select ∈ nullAggregates (t.tableData.get name).type) :
    NullsIgnored isGroupby t t' name select ↔ Neutral t t' name select := by
  -- an operand that is a keyword has no value on either table
  have hnone : name ∈ keywords → select ∈ [SelectType.sum, .avg, .min, .max] →
      ¬ NullsIgnored isGroupby t t' name select := by
    rintro hword hoperand ⟨v, hv, -⟩
    rw [aggregateValue_keyword hw hn isGroupby hword hoperand] at hv
    cases hv
  have hextremum := nullsIgnored_extremum hw hw' hn hname hname' h isGroupby
  have hcount := nullsIgnored_count hw hw' hn hname hname' h isGroupby
  have hdistinct := nullsIgnored_countDistinct hw hw' hn hname hname' h isGroupby
  unfold nullAggregates at hselect
  cases hkind : (t.tableData.get name).type <;> simp only [hkind, List.not_mem_nil] at hselect
  case int =>
    simp only [List.mem_cons, List.not_mem_nil, or_false] at hselect
    by_cases hword : name ∈ keywords
    · rcases hselect with rfl | rfl | rfl | rfl | rfl | rfl
      · exact iff_of_false (hnone hword (by decide)) fun hneutral => hneutral hword
      · exact iff_of_false (hnone hword (by decide)) fun hneutral => hneutral.1 hword
      · exact iff_of_false (hnone hword (by decide)) fun hneutral => hneutral.1 hword
      · exact iff_of_false (hnone hword (by decide)) fun hneutral => hneutral.1 hword
      · exact iff_of_true hcount trivial
      · exact hdistinct (.inl hkind)
    · rcases hselect with rfl | rfl | rfl | rfl | rfl | rfl
      · exact iff_of_true (nullsIgnored_sum hw hw' hn hname hname' h isGroupby hkind hword) hword
      · rw [nullsIgnored_avg hw hw' hn hname hname' h isGroupby hkind hword]
        exact (and_iff_right hword).symm
      · have hmin := hextremum hkind hword .min
        simp only [Extremum.selectType, Extremum.oper, valuesRelate, relates,
          decide_eq_true_eq] at hmin
        exact hmin.trans (and_iff_right hword).symm
      · have hmax := hextremum hkind hword .max
        simp only [Extremum.selectType, Extremum.oper, valuesRelate, relates, ge_iff_le,
          decide_eq_true_eq] at hmax
        exact hmax.trans (and_iff_right hword).symm
      · exact iff_of_true hcount trivial
      · exact hdistinct (.inl hkind)
  case string =>
    simp only [List.mem_cons, List.not_mem_nil, or_false] at hselect
    rcases hselect with rfl | rfl
    · exact iff_of_true hcount trivial
    · exact hdistinct (.inr hkind)

end

/-! ## A padded row between two others -/

/-- The numbers 2 and 4, and a padded row. -/
def paddedNumbers : TableData where
  tableData := AList.singleton "n"
    { type := .int, intvec := [2, 0, 4], isnull := [false, true, false], rowCount := 3 }
  rowCount := 3

theorem mem_paddedNumbers {name : String} : name ∈ paddedNumbers.tableData ↔ name = "n" := by
  rw [paddedNumbers, ← AList.insert_empty, AList.mem_insert]
  simp

theorem paddedNumbers_wellFormed : paddedNumbers.WellFormed 3 := by
  constructor
  case count => rfl
  case column =>
    intro name hname
    obtain rfl := mem_paddedNumbers.mp hname
    exact ⟨rfl, rfl, rfl⟩
  case stored =>
    intro name hname
    obtain rfl := mem_paddedNumbers.mp hname
    decide

theorem paddedNumbers_nullsAdded :
    NullsAdded ((numberTable "n" [2, 4] .workDone).tableData.get "n")
      (paddedNumbers.tableData.get "n") 2 [some 0, none, some 1] := by
  constructor
  case kept | type => rfl
  case value | isnull =>
    intro k
    match k with
    | 0 => rfl
    | 1 => rfl
    | 2 => rfl
    | k + 3 => rfl

theorem nulls_ignored_numbers :
    NullsIgnored false (numberTable "n" [2, 4] .workDone) paddedNumbers "n" .sum ↔
      Neutral (numberTable "n" [2, 4] .workDone) paddedNumbers "n" .sum :=
  nulls_ignored_iff (numberTable_wellFormed "n" [2, 4] .workDone) paddedNumbers_wellFormed
    (by decide) (mem_numberTable.mpr rfl) (mem_paddedNumbers.mpr rfl) paddedNumbers_nullsAdded false
    (by decide)

/-- The average falls from 3 to 2, the least number from 2 to 0, and the
padded cell counts as a third value. -/
theorem nulls_are_values :
    NullsAdded ((numberTable "n" [2, 4] .workDone).tableData.get "n")
        (paddedNumbers.tableData.get "n") 2 [some 0, none, some 1] ∧
      ¬ NullsIgnored false (numberTable "n" [2, 4] .workDone) paddedNumbers "n" .avg ∧
      ¬ NullsIgnored false (numberTable "n" [2, 4] .workDone) paddedNumbers "n" .min ∧
      ¬ NullsIgnored false (numberTable "n" [2, 4] .workDone) paddedNumbers "n"
        .countDistinct := by
  have havg : aggregateValue false (numberTable "n" [2, 4] .workDone) (bareColumn .avg "n") =
      some (.float (.fin 3)) := by decide +kernel
  have havg' : aggregateValue false paddedNumbers (bareColumn .avg "n") =
      some (.float (.fin 2)) := by decide +kernel
  have hmin : aggregateValue false (numberTable "n" [2, 4] .workDone) (bareColumn .min "n") =
      some (.int 2) := by decide +kernel
  have hmin' : aggregateValue false paddedNumbers (bareColumn .min "n") = some (.int 0) := by
    decide +kernel
  have hcount : aggregateValue false (numberTable "n" [2, 4] .workDone)
      (bareColumn .countDistinct "n") = some (.int 2) := by decide +kernel
  have hcount' : aggregateValue false paddedNumbers (bareColumn .countDistinct "n") =
      some (.int 3) := by decide +kernel
  refine ⟨paddedNumbers_nullsAdded, ?_, ?_, ?_⟩
  · rw [nullsIgnored_iff havg havg']
    decide
  · rw [nullsIgnored_iff hmin hmin']
    decide
  · rw [nullsIgnored_iff hcount hcount']
    decide

end KetiEngine.Merging
