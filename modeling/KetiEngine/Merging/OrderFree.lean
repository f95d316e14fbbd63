import KetiEngine.Merging.Aggregation

/-!
# OrderFree — aggregates and the order of the rows

Two tables with the same rows in another order, and the condition on the
operands under which `Aggregation` gives the same result columns on both. It
speaks of the type tags on the first and the last row: the accumulators take
their tag from there.
-/

namespace KetiEngine.Merging

open KetiEngine

/-! ## The same rows in another order -/

/-- Row `k` of `t'` is row `order[k]` of `t`. -/
structure Reordered (t t' : TableData) (order : List Nat) : Prop where
  rowCount : t'.rowCount = t.rowCount
  names : ∀ name, name ∈ t'.tableData ↔ name ∈ t.tableData
  type : ∀ name ∈ t.tableData, (t'.tableData.get name).type = (t.tableData.get name).type
  realSize : ∀ name ∈ t.tableData,
    (t'.tableData.get name).realSize = (t.tableData.get name).realSize
  value : ∀ name ∈ t.tableData, ∀ k : Nat,
    (t'.tableData.get name).value? k = order[k]?.bind (t.tableData.get name).value?
  isnull : ∀ name ∈ t.tableData, ∀ k : Nat,
    (t'.tableData.get name).isnull[k]? = order[k]?.bind ((t.tableData.get name).isnull[·]?)

/-- The value vector a column type names, as a list of values. -/
def valuesOf (c : ColData) : List Value :=
  match c.type with
  | .string => c.strvec.map .string
  | .int | .date => c.intvec.map .int
  | .float => c.floatvec.map .float
  | .empty | .boolean => []

theorem getElem?_valuesOf (c : ColData) (i : Nat) : (valuesOf c)[i]? = c.value? i := by
  unfold valuesOf ColData.value?
  cases c.type <;> simp

theorem length_valuesOf {c : ColData} {n : Nat} (h : c.HasLength n) :
    (valuesOf c).length = n := by
  rw [← h.vec]
  unfold valuesOf ColData.vecLength
  cases c.type <;> simp

section
variable {t t' : TableData} {order : List Nat} {n : Nat}
  (h : Reordered t t' order) (hw : t.WellFormed n) (horder : order.Perm (List.range n))
include h

/-- A missing column is missing in both tables. -/
theorem Reordered.get_of_notMem {name : String} (hname : name ∉ t.tableData) :
    t'.tableData.get name = t.tableData.get name := by
  rw [ColMap.get_of_notMem hname, ColMap.get_of_notMem fun h' => hname ((h.names name).mp h')]

include hw

theorem Reordered.perm_isnull (horder : order.Perm (List.range n)) (name : String) :
    ((t.tableData.get name).isnull).Perm (t'.tableData.get name).isnull := by
  by_cases hname : name ∈ t.tableData
  · exact Reorder.perm_of_getElem? (hw.column name hname).null horder (h.isnull name hname)
  · rw [h.get_of_notMem hname]

theorem Reordered.perm_values (horder : order.Perm (List.range n)) {name : String}
    (hname : name ∈ t.tableData) :
    (valuesOf (t.tableData.get name)).Perm (valuesOf (t'.tableData.get name)) := by
  refine Reorder.perm_of_getElem? (length_valuesOf (hw.column name hname)) horder fun k => ?_
  rw [getElem?_valuesOf, h.value name hname]
  simp only [getElem?_valuesOf]

/-- The operands on row `k` are those on row `order[k]`. -/
theorem Reordered.sameOperands {k r : Nat} (hk : order[k]? = some r) :
    SameOperands (rowEnv t.tableData r) (rowEnv t'.tableData k) := by
  refine sameOperands_of_values h.names hw.stored h.type (fun name hname _ => h.realSize name hname)
    fun name hname => ?_
  rw [h.value name hname, hk, Option.bind_some]

end

/-! ## The values of an operand -/

/-- The operand has a number on every row. -/
def NumericOn (t : TableData) (p : Projection) : Prop :=
  ∀ r < t.rowCount.toNat, ∃ v, projection t.tableData p r = some v ∧ v.Numeric

theorem projectRows_of_forall {t : TableData} {p : Projection} {n : Nat} {value : Nat → T}
    (hcount : t.rowCount.toNat = n) (h : ∀ r < n, projection t.tableData p r = some (value r)) :
    projectRows t p 0 = some ((List.range n).map value) := by
  unfold projectRows
  rw [hcount, Nat.sub_zero, ← List.range_eq_range']
  exact Loops.mapM_of_forall fun r hr => h r (List.mem_range.mp hr)

/-- The rows are `ts`, the first one apart. -/
structure RowsAre (t : TableData) (p : Projection) (first : T) (rest : List T) : Prop where
  all : projectRows t p 0 = some (first :: rest)
  head : projection t.tableData p 0 = some first
  tail : projectRows t p 1 = some rest
  last : projection t.tableData p (t.rowCount.toNat - 1) = some (rest.getLast?.getD first)

theorem rowsAre_of_projectRows {t : TableData} {p : Projection} {ts : List T}
    (hrows : 0 < t.rowCount) (h : projectRows t p 0 = some ts) :
    ∃ first rest, ts = first :: rest ∧ RowsAre t p first rest := by
  obtain ⟨n, hn⟩ : ∃ n, t.rowCount.toNat = n + 1 := ⟨t.rowCount.toNat - 1, by omega⟩
  have hall := h
  unfold projectRows at h
  rw [hn, Nat.sub_zero, List.range'_succ, List.mapM_cons] at h
  obtain ⟨first, hfirst, h⟩ := Option.bind_eq_some_iff.mp h
  obtain ⟨rest, hrest, h⟩ := Option.bind_eq_some_iff.mp h
  cases h
  refine ⟨first, rest, rfl, hall, hfirst, ?_, ?_⟩
  · unfold projectRows
    rwa [hn]
  · have hlength := Loops.length_of_mapM hrest
    rw [List.length_range'] at hlength
    cases n with
    | zero =>
      rw [List.length_eq_zero_iff.mp hlength, hn]
      exact hfirst
    | succ n =>
      have hn' : n < rest.length := by omega
      have hrange : (List.range' (0 + 1) (n + 1))[n]? = some (n + 1) := by
        rw [List.getElem?_range' (Nat.lt_succ_self n)]
        congr 1
        omega
      have hlast := (Loops.getElem?_of_mapM hrest hrange).trans (List.getElem?_eq_getElem hn')
      have hget : rest.getLast? = some rest[n] := by
        rw [List.getLast?_eq_getElem?, hlength, ← List.getElem?_eq_getElem hn']
        rfl
      rw [hn, hget]
      exact hlast

/-- The rows of the two tables, as one list and a permutation of it. -/
theorem Reordered.rows {t t' : TableData} {order : List Nat} {n : Nat}
    (h : Reordered t t' order) (hw : t.WellFormed n) (hn : 0 < n)
    (horder : order.Perm (List.range n)) {p : Projection} (hnum : NumericOn t p) :
    ∃ first rest first' rest', RowsAre t p first rest ∧ RowsAre t' p first' rest' ∧
      (first :: rest).Perm (first' :: rest') ∧ (∀ v ∈ first :: rest, v.Numeric) ∧
      ∀ P : T → Prop, (∀ r < t.rowCount.toNat, ∀ v, projection t.tableData p r = some v → P v) →
        ∀ v ∈ first :: rest, P v := by
  have hcount : t.rowCount.toNat = n := hw.toNat_rowCount
  let value : Nat → T := fun r => (projection t.tableData p r).getD {}
  have hvalue : ∀ r < n, projection t.tableData p r = some (value r) ∧ (value r).Numeric := by
    intro r hr
    obtain ⟨v, hv, hvn⟩ := hnum r (hcount ▸ hr)
    have he : value r = v := by simp [value, hv]
    rw [he]
    exact ⟨hv, hvn⟩
  have hlength : order.length = n := by simpa using horder.length_eq
  have hrows : projectRows t p 0 = some ((List.range n).map value) :=
    projectRows_of_forall hcount fun r hr => (hvalue r hr).1
  have hrows' : projectRows t' p 0 = some (order.map value) := by
    refine projectRows_of_rows (by rw [h.rowCount, hlength, hw.count]) fun k r hk => ?_
    have hr : r < n := List.mem_range.mp (horder.mem_iff.mp (List.mem_of_getElem? hk))
    obtain ⟨hrun, hvn⟩ := hvalue r hr
    exact (h.sameOperands hw hk).projectionValue hrun hvn
  have hpos : 0 < t.rowCount := hw.rowCount_pos hn
  obtain ⟨first, rest, heq, hare⟩ := rowsAre_of_projectRows hpos hrows
  obtain ⟨first', rest', heq', hare'⟩ := rowsAre_of_projectRows (h.rowCount ▸ hpos) hrows'
  refine ⟨first, rest, first', rest', hare, hare', ?_, ?_, ?_⟩
  · rw [← heq, ← heq']
    exact (horder.map value).symm
  · intro v hv
    rw [← heq] at hv
    obtain ⟨r, hr, rfl⟩ := List.mem_map.mp hv
    exact (hvalue r (List.mem_range.mp hr)).2
  · intro P hP v hv
    rw [← heq] at hv
    obtain ⟨r, hr, rfl⟩ := List.mem_map.mp hv
    have hr := List.mem_range.mp hr
    exact hP r (hcount.symm ▸ hr) _ (hvalue r hr).1

/-! ## The same result -/

/-- Two columns with the same tag and the same values. -/
@[mk_iff]
structure SameColumn (c d : ColData) : Prop where
  type : c.type = d.type
  str : c.strvec = d.strvec
  int : c.intvec = d.intvec
  float : c.floatvec = d.floatvec
  null : c.isnull = d.isnull
  count : c.rowCount = d.rowCount

theorem SameColumn.refl (c : ColData) : SameColumn c c := ⟨rfl, rfl, rfl, rfl, rfl, rfl⟩

/-- Two tables with the same columns. -/
structure SameResult (d d' : TableData) : Prop where
  names : ∀ name, name ∈ d.tableData ↔ name ∈ d'.tableData
  columns : ∀ name, SameColumn (d.tableData.get name) (d'.tableData.get name)
  rowCount : d.rowCount = d'.rowCount

/-- Two result columns append the same. -/
def Agree (c c' : ColData) : Prop := SameColumn (appendColumn c {}) (appendColumn c' {})

/-- Whether two columns append the same does not depend on the target. -/
theorem sameColumn_appendColumn_iff {c c' d d' : ColData} (h : SameColumn d d') :
    SameColumn (appendColumn c d) (appendColumn c' d') ↔ Agree c c' := by
  unfold Agree
  by_cases htype : c.type = c'.type
  · rw [sameColumn_iff, sameColumn_iff]
    cases hc : c.type <;> rw [hc] at htype <;>
      simp [appendColumn, hc, ← htype, h.str, h.int, h.float, h.null, h.count]
  · constructor
    · intro hs
      exact absurd hs.type htype
    · intro hs
      exact absurd hs.type htype

/-! ## The condition -/

/-- The tag of the operand on the first row. -/
def firstType (t : TableData) (p : Projection) : Option VectorType :=
  (projection t.tableData p 0).map T.type

/-- The tag of the operand on the last row. -/
def lastType (t : TableData) (p : Projection) : Option VectorType :=
  (projection t.tableData p (t.rowCount.toNat - 1)).map T.type

/-- The mean of the INT values and the mean of the FLOAT values over `n` rows
are one `float`. -/
def SameAverage (n : Int) (ts : List T) : Prop :=
  (Double.ofInt ((toInt64 (intTotal ts)).tdiv n)).toFloat =
    ((floatTotal ts).div (.ofInt n)).toFloat

/-- The FLOAT fields of the operand on the rows. -/
def floatsOf (t : TableData) (p : Projection) : List Double :=
  ((projectRows t p 0).getD []).map T.varFloat

/-- Behind the last NaN the two lists have the same least value, or both end
with NaN. -/
def SameLeast (lt : Double → Double → Bool) (xs ys : List Double) : Prop :=
  ∀ x, Reorder.Least lt (Reorder.behind (· ≠ .nan) xs) x ↔
    Reorder.Least lt (Reorder.behind (· ≠ .nan) ys) x

/-- The aggregate does not tell the two orders apart. -/
def OrderFree (t t' : TableData) (p : Projection) : Prop :=
  match p.selectType with
  | .sum => lastType t p = lastType t' p
  | .avg => lastType t p = lastType t' p ∨
      ∀ ts, projectRows t p 0 = some ts → SameAverage t.rowCount ts
  | .min => firstType t p = firstType t' p ∧
      (firstType t p = some .float → SameLeast Double.blt (floatsOf t p) (floatsOf t' p))
  | .max => firstType t p = firstType t' p ∧ lastType t p = lastType t' p ∧
      (firstType t p = some .float → lastType t p = some .float →
        SameLeast (fun a b => b.blt a) (floatsOf t p) (floatsOf t' p))
  | .countDistinct => ∀ col, p.value[0]? = some col →
      (t.tableData.get col).type = .float → .nan ∉ (t.tableData.get col).floatvec
  | _ => True

/-- An aggregate whose operand has a number on every row. -/
def Aggregate (t : TableData) (p : Projection) : Prop :=
  match p.selectType with
  | .sum | .avg | .min | .max => NumericOn t p
  | .count | .countDistinct => ∃ col, p.value[0]? = some col
  | .countStar => True
  | .columnName | .top => False

/-! ## Each aggregate -/

theorem sumRow_right_comm (t a b : T) : sumRow (sumRow t a) b = sumRow (sumRow t b) a := by
  cases ha : a.type <;> cases hb : b.type <;>
    simp [sumRow, ha, hb, Int.add_right_comm t.varInt, Double.add_assoc, Double.add_comm a.varFloat,
      max_assoc, max_comm a.realSize]

theorem foldl_sumRow_perm {ts ts' : List T} (h : ts.Perm ts') (t : T) :
    ts.foldl sumRow t = ts'.foldl sumRow t :=
  h.foldl_eq' (fun a _ b _ z => sumRow_right_comm z a b) t

theorem last_mem (first : T) (rest : List T) : rest.getLast?.getD first ∈ first :: rest := by
  cases hl : rest.getLast? with
  | none => simp
  | some v => simp [List.mem_of_getLast? hl]

theorem rowCount_sumColumn {first : T} {rest : List T} (h : (rest.getLast?.getD first).Numeric) :
    (sumColumn (first :: rest)).rowCount = 1 := by
  unfold sumColumn
  rw [List.getLast?_cons, Option.getD_some]
  rcases h with h | h <;> simp only [h]

section
variable {first first' : T} {rest rest' : List T}
  (hperm : (first :: rest).Perm (first' :: rest')) (hnum : ∀ v ∈ first :: rest, v.Numeric)
include hperm hnum

theorem numeric_last : (rest.getLast?.getD first).Numeric ∧
    (rest'.getLast?.getD first').Numeric :=
  ⟨hnum _ (last_mem first rest), hnum _ (hperm.mem_iff.mpr (last_mem first' rest'))⟩

theorem agree_sumColumn_iff :
    Agree (sumColumn (first :: rest)) (sumColumn (first' :: rest')) ↔
      (rest.getLast?.getD first).type = (rest'.getLast?.getD first').type := by
  obtain ⟨hlast, hlast'⟩ := numeric_last hperm hnum
  have hsum := foldl_sumRow_perm hperm {}
  unfold sumColumn
  rw [List.getLast?_cons, List.getLast?_cons, Option.getD_some, Option.getD_some, hsum]
  rcases hlast with hl | hl <;> rcases hlast' with hl' | hl' <;>
    simp [hl, hl', Agree, sameColumn_iff, appendColumn]

theorem agree_avgColumn_iff (n : Int) : ∃ c c',
    avgColumn n (first :: rest) = some c ∧ avgColumn n (first' :: rest') = some c' ∧
      c.rowCount = 1 ∧ c'.rowCount = 1 ∧
      (Agree c c' ↔ (rest.getLast?.getD first).type = (rest'.getLast?.getD first').type ∨
        SameAverage n (first :: rest)) := by
  obtain ⟨hlast, hlast'⟩ := numeric_last hperm hnum
  have hsum := foldl_sumRow_perm hperm {}
  have hint := foldl_sumRow_varInt (first :: rest)
  have hfloat := foldl_sumRow_varFloat (first :: rest)
  unfold avgColumn SameAverage
  rw [List.getLast?_cons, List.getLast?_cons, Option.getD_some, Option.getD_some, ← hsum, ← hint,
    ← hfloat]
  generalize List.foldl sumRow {} (first :: rest) = t
  rcases hlast with hl | hl <;> rcases hlast' with hl' | hl'
  all_goals
    refine ⟨_, _, by rw [hl]; rfl, by rw [hl']; rfl, rfl, rfl, ?_⟩
    simp [hl, hl', Agree, sameColumn_iff, appendColumn, eq_comm]

end

/-! `MIN` and `MAX` keep the tag of the first row. -/

section
variable {onInt : Int → Int → Bool} {onFloat : Double → Double → Bool}
  {onString : String → String → Bool}

theorem foldl_pickRow_type (t : T) (ts : List T) :
    (ts.foldl (pickRow onInt onFloat onString) t).type = t.type := by
  induction ts generalizing t with
  | nil => rfl
  | cons u ts ih =>
    rw [List.foldl_cons, ih]
    cases ht : t.type <;> simp [pickRow, ht]

theorem minColumn_eq (first : T) (rest : List T) :
    minColumn first rest = pickColumn (rest.foldl minRow first) first.type := by
  unfold minColumn minRow
  simp only [foldl_pickRow_type]

theorem foldl_pickRow_realSize (t : T) (ts : List T) :
    (ts.foldl (pickRow onInt onFloat onString) t).realSize = t.realSize := by
  induction ts generalizing t with
  | nil => rfl
  | cons u ts ih =>
    rw [List.foldl_cons, ih]
    cases ht : t.type <;> simp [pickRow, ht]

theorem rowCount_pickColumn {t : T} (ht : t.Numeric) (ts : List T) (type : VectorType) :
    (pickColumn (ts.foldl (pickRow onInt onFloat onString) t) type).rowCount = 1 := by
  have hend : (ts.foldl (pickRow onInt onFloat onString) t).type = t.type :=
    foldl_pickRow_type t ts
  unfold pickColumn
  rw [hend]
  rcases ht with ht | ht <;> rw [ht]

theorem pickRow_varInt {t : T} (ht : t.type = .int) (u : T) :
    (pickRow onInt onFloat onString t u).varInt = Reorder.pick onInt t.varInt u.varInt := by
  simp [pickRow, ht]

theorem pickRow_varFloat {t : T} (ht : t.type = .float) (u : T) :
    (pickRow onInt onFloat onString t u).varFloat = Reorder.pick onFloat t.varFloat u.varFloat := by
  simp [pickRow, ht]

theorem pickRow_varString {t : T} (ht : t.type = .string) (u : T) :
    (pickRow onInt onFloat onString t u).varString =
      Reorder.pick onString t.varString u.varString := by
  simp [pickRow, ht]

/-- The loop picks in the field of the tag that the accumulator starts with. -/
theorem foldl_pickRow_field {α : Type} (get : T → α) (lt : α → α → Bool) {type : VectorType}
    (hpick : ∀ t : T, t.type = type →
      ∀ u, get (pickRow onInt onFloat onString t u) = Reorder.pick lt (get t) (get u))
    {t : T} (ht : t.type = type) (ts : List T) :
    get (ts.foldl (pickRow onInt onFloat onString) t) =
      (ts.map get).foldl (Reorder.pick lt) (get t) := by
  induction ts generalizing t with
  | nil => rfl
  | cons u ts ih =>
    have hrow : (pickRow onInt onFloat onString t u).type = type :=
      (foldl_pickRow_type t [u]).trans ht
    rw [List.foldl_cons, ih hrow, hpick t ht u, List.map_cons, List.foldl_cons]

theorem foldl_pickRow_int {t : T} (ht : t.type = .int) (ts : List T) :
    (ts.foldl (pickRow onInt onFloat onString) t).varInt =
      (ts.map T.varInt).foldl (Reorder.pick onInt) t.varInt :=
  foldl_pickRow_field T.varInt onInt (fun _ ht => pickRow_varInt ht) ht ts

theorem foldl_pickRow_float {t : T} (ht : t.type = .float) (ts : List T) :
    (ts.foldl (pickRow onInt onFloat onString) t).varFloat =
      (ts.map T.varFloat).foldl (Reorder.pick onFloat) t.varFloat :=
  foldl_pickRow_field T.varFloat onFloat (fun _ ht => pickRow_varFloat ht) ht ts

end

/-- The order of the integers and its reverse. -/
theorem int_totalOn : Reorder.TotalOn (fun a b : Int => a < b) (fun _ => True) ∧
    Reorder.TotalOn (fun a b : Int => a > b) (fun _ => True) := by
  constructor
  · constructor <;> simp <;> omega
  · constructor <;> simp <;> omega

theorem string_totalOn : Reorder.TotalOn (fun a b : String => a < b) (fun _ => True) where
  irrefl a := decide_eq_false (String.lt_irrefl a)
  trans _ _ _ _ _ _ hab hbc :=
    decide_eq_true (String.lt_trans (of_decide_eq_true hab) (of_decide_eq_true hbc))
  total _ _ _ _ hab hba :=
    String.le_antisymm (String.not_lt.mp (of_decide_eq_false hba))
      (String.not_lt.mp (of_decide_eq_false hab))

/-- The comparison of doubles is a total order apart from NaN. -/
theorem double_totalOn : Reorder.TotalOn Double.blt (· ≠ .nan) where
  irrefl a := by cases a <;> simp [Double.blt]
  trans a b c _ _ _ := by
    cases a <;> cases b <;> cases c <;> simp [Double.blt] <;> grind
  total a b ha hb := by
    cases a with
    | nan => exact absurd rfl ha
    | inf s => cases b <;> cases s <;> simp_all [Double.blt]
    | fin p =>
      cases b with
      | nan => exact absurd rfl hb
      | inf u => cases u <;> simp [Double.blt]
      | fin q =>
        simp only [Double.blt, decide_eq_false_iff_not, not_lt]
        intro hqp hpq
        rw [le_antisymm hpq hqp]

theorem double_totalOn_reverse : Reorder.TotalOn (fun a b => Double.blt b a) (· ≠ .nan) where
  irrefl := double_totalOn.irrefl
  trans a b c ha hb hc hab hbc := double_totalOn.trans c b a hc hb ha hbc hab
  total a b ha hb hab hba := double_totalOn.total a b ha hb hba hab

/-- The loops over two orders end in the same value. -/
theorem foldl_pick_eq_iff {lt : Double → Double → Bool} (h : Reorder.TotalOn lt (· ≠ .nan))
    (hout : ∀ a b, ¬ a ≠ .nan ∨ ¬ b ≠ .nan → lt a b = false) (a b : Double)
    (xs ys : List Double) :
    xs.foldl (Reorder.pick lt) a = ys.foldl (Reorder.pick lt) b ↔
      SameLeast lt (a :: xs) (b :: ys) := by
  have hx := Reorder.foldl_pick_behind h hout a xs
  have hy := Reorder.foldl_pick_behind h hout b ys
  have hbehind : ∀ {zs : List Double} {r}, r ∈ Reorder.behind (· ≠ Double.nan) zs → r ≠ .nan :=
    fun hr => Reorder.of_mem_behind (P := fun x : Double => x ≠ .nan) hr
  have hunique : ∀ {zs : List Double} {r s},
      Reorder.Least lt (Reorder.behind (· ≠ .nan) zs) r →
      Reorder.Least lt (Reorder.behind (· ≠ .nan) zs) s → r = s :=
    Reorder.Least.unique h fun _ => hbehind
  unfold SameLeast
  rcases hx with ⟨hxs, hx⟩ | hx <;> rcases hy with ⟨hys, hy⟩ | hy
  · rw [hxs, hys, not_not.mp hx, not_not.mp hy]
    simp
  · have hne : ys.foldl (Reorder.pick lt) b ≠ .nan := hbehind hy.1
    rw [not_not.mp hx]
    refine iff_of_false hne.symm fun hsame => ?_
    have hleast := (hsame _).mpr hy
    rw [hxs] at hleast
    exact absurd hleast.1 (by simp)
  · have hne : xs.foldl (Reorder.pick lt) a ≠ .nan := hbehind hx.1
    rw [not_not.mp hy]
    refine iff_of_false hne fun hsame => ?_
    have hleast := (hsame _).mp hx
    rw [hys] at hleast
    exact absurd hleast.1 (by simp)
  · constructor
    · intro he x
      constructor
      · intro hleast
        rw [hunique hleast hx, he]
        exact hy
      · intro hleast
        rw [hunique hleast hy, ← he]
        exact hx
    · exact fun hsame => hunique ((hsame _).mp hx) hy

theorem sameLeast_of_perm {lt : Double → Double → Bool} {xs ys : List Double} (h : xs.Perm ys)
    (hnan : .nan ∉ xs) : SameLeast lt xs ys := by
  have hxs : ∀ x ∈ xs, x ≠ .nan := fun x hx he => hnan (he ▸ hx)
  have hys : ∀ y ∈ ys, y ≠ .nan := fun y hy => hxs y (h.mem_iff.mpr hy)
  intro x
  rw [Reorder.behind_eq_self hxs, Reorder.behind_eq_self hys]
  simp only [Reorder.Least, h.mem_iff]

/-- The value goes into the vector of its own tag, and is appended only when
that is the tag of the column. -/
theorem agree_pickColumn_iff {t t' : T} {type type' : VectorType} (ht : t.Numeric)
    (ht' : t'.Numeric) (htype : type = .int ∨ type = .float)
    (htype' : type' = .int ∨ type' = .float)
    (hint : t.type = .int → t'.type = .int → t.varInt = t'.varInt) :
    Agree (pickColumn t type) (pickColumn t' type') ↔ t.type = t'.type ∧ type = type' ∧
      (t.type = .float → type = .float → t.varFloat = t'.varFloat) := by
  rcases ht with h | h <;> rcases ht' with h' | h' <;> rcases htype with rfl | rfl <;>
    rcases htype' with rfl | rfl <;>
    simp_all [Agree, sameColumn_iff, appendColumn, pickColumn]

/-- The accumulator starts with the tag of the first row and its value under
that tag. -/
structure StartsAt (t first : T) : Prop where
  type : t.type = first.type
  int : first.type = .int → t.varInt = first.varInt
  float : first.type = .float → t.varFloat = first.varFloat

theorem StartsAt.numeric {t first : T} (h : StartsAt t first) (hfirst : first.Numeric) :
    t.Numeric := by
  unfold T.Numeric
  rwa [h.type]

theorem startsAt_maxStart {first : T} (h : first.Numeric) : StartsAt (maxStart first) first := by
  rcases h with h | h <;> constructor <;> simp [maxStart, h]

theorem blt_nan (a b : Double) (h : ¬ a ≠ .nan ∨ ¬ b ≠ .nan) : a.blt b = false := by
  rcases h with h | h <;> rw [not_not.mp h]
  · rfl
  · cases a <;> rfl

section
variable {first first' : T} {rest rest' : List T}
  (hperm : (first :: rest).Perm (first' :: rest')) (hnum : ∀ v ∈ first :: rest, v.Numeric)
include hperm hnum

/-- `MIN` and `MAX`: with the same tag on the first rows the loops end with
the same INT, and with the same FLOAT where that does not depend on a NaN. -/
theorem agree_pickRow_iff {onInt : Int → Int → Bool} {onFloat : Double → Double → Bool}
    {onString : String → String → Bool} (hint : Reorder.TotalOn onInt fun _ => True)
    (hfloat : Reorder.TotalOn onFloat (· ≠ .nan))
    (hout : ∀ a b, ¬ a ≠ .nan ∨ ¬ b ≠ .nan → onFloat a b = false) {t t' : T}
    (ht : StartsAt t first) (ht' : StartsAt t' first') {type type' : VectorType}
    (htype : type = .int ∨ type = .float) (htype' : type' = .int ∨ type' = .float) :
    Agree (pickColumn (rest.foldl (pickRow onInt onFloat onString) t) type)
        (pickColumn (rest'.foldl (pickRow onInt onFloat onString) t') type') ↔
      first.type = first'.type ∧ type = type' ∧ (first.type = .float → type = .float →
        SameLeast onFloat ((first :: rest).map T.varFloat) ((first' :: rest').map T.varFloat)) := by
  have hend : ∀ (t : T) (ts : List T),
      (ts.foldl (pickRow onInt onFloat onString) t).type = t.type := foldl_pickRow_type
  have hfirst : t.Numeric := ht.numeric (hnum first (by simp))
  have hfirst' : t'.Numeric := ht'.numeric (hnum first' (hperm.mem_iff.mpr (by simp)))
  rw [agree_pickColumn_iff _ _ htype htype', hend, hend, ht.type, ht'.type]
  · refine and_congr_right fun hsame => and_congr_right fun _ => forall₂_congr fun hf _ => ?_
    have hf' : first'.type = .float := hsame.symm.trans hf
    rw [foldl_pickRow_float (ht.type.trans hf), foldl_pickRow_float (ht'.type.trans hf'),
      ht.float hf, ht'.float hf', foldl_pick_eq_iff hfloat hout]
    rfl
  · intro h h'
    rw [hend] at h h'
    rw [foldl_pickRow_int h, foldl_pickRow_int h', ht.int (ht.type ▸ h), ht'.int (ht'.type ▸ h')]
    exact Reorder.foldl_pick_perm hint (hperm.map T.varInt) fun _ _ => trivial
  · unfold T.Numeric
    rwa [hend]
  · unfold T.Numeric
    rwa [hend]

theorem agree_minColumn_iff :
    Agree (minColumn first rest) (minColumn first' rest') ↔ first.type = first'.type ∧
      (first.type = .float → SameLeast Double.blt ((first :: rest).map T.varFloat)
        ((first' :: rest').map T.varFloat)) := by
  have hfirst : first.Numeric := hnum first (by simp)
  have hfirst' : first'.Numeric := hnum first' (hperm.mem_iff.mpr (by simp))
  rw [minColumn_eq, minColumn_eq, minRow, agree_pickRow_iff hperm hnum int_totalOn.1
    double_totalOn blt_nan ⟨rfl, fun _ => rfl, fun _ => rfl⟩ ⟨rfl, fun _ => rfl, fun _ => rfl⟩
    hfirst hfirst']
  exact ⟨fun h => ⟨h.1, fun hf => h.2.2 hf hf⟩, fun h => ⟨h.1, h.1, fun hf _ => h.2 hf⟩⟩

theorem agree_maxColumn_iff :
    Agree (maxColumn first rest) (maxColumn first' rest') ↔
      first.type = first'.type ∧
        (rest.getLast?.getD first).type = (rest'.getLast?.getD first').type ∧
        (first.type = .float → (rest.getLast?.getD first).type = .float →
          SameLeast (fun a b => b.blt a) ((first :: rest).map T.varFloat)
            ((first' :: rest').map T.varFloat)) := by
  obtain ⟨hlast, hlast'⟩ := numeric_last hperm hnum
  have hfirst : first.Numeric := hnum first (by simp)
  have hfirst' : first'.Numeric := hnum first' (hperm.mem_iff.mpr (by simp))
  unfold maxColumn maxRow
  exact agree_pickRow_iff hperm hnum int_totalOn.2 double_totalOn_reverse
    (fun a b h => blt_nan b a h.symm) (startsAt_maxStart hfirst) (startsAt_maxStart hfirst')
    hlast hlast'

end

/-! ## The projection list -/

section
variable {t t' : TableData} {order : List Nat} {n : Nat}
  (h : Reordered t t' order) (hw : t.WellFormed n) (hn : 0 < n)
  (horder : order.Perm (List.range n))
include h hw horder

theorem Reordered.distinctRowCount_eq (name : String) :
    distinctRowCount (t'.tableData.get name) = distinctRowCount (t.tableData.get name) := by
  by_cases hname : name ∈ t.tableData
  · have htype := h.type name hname
    have hvalues := h.perm_values hw horder hname
    unfold valuesOf at hvalues
    rw [htype] at hvalues
    unfold distinctRowCount
    rw [htype]
    cases hc : (t.tableData.get name).type <;> simp only [hc] at hvalues ⊢
    case int =>
      have hints : (t.tableData.get name).intvec.Perm (t'.tableData.get name).intvec :=
        (List.map_perm_map_iff (fun a b => Value.int.inj)).mp hvalues
      rw [((hints.map toInt32).dedup).length_eq]
    case float =>
      have hfloats : (t.tableData.get name).floatvec.Perm (t'.tableData.get name).floatvec :=
        (List.map_perm_map_iff (fun a b => Value.float.inj)).mp hvalues
      rw [((hfloats.map Double.toFloat).dedup).length_eq]
      simp only [hfloats.mem_iff]
    case string =>
      have hstrings : (t.tableData.get name).strvec.Perm (t'.tableData.get name).strvec :=
        (List.map_perm_map_iff (fun a b => Value.string.inj)).mp hvalues
      rw [hstrings.dedup.length_eq]
  · rw [h.get_of_notMem hname]

include hn

/-- One aggregate on the two tables: a column with one value on both, or none
for a NaN that `COUNT(DISTINCT)` cannot sort. -/
theorem Reordered.projectionColumn_agree {p : Projection} (hp : Aggregate t p) (isGroupby : Bool) :
    projectionColumn isGroupby t p = none ∧ ¬ OrderFree t t' p ∨
    ∃ c c', projectionColumn isGroupby t p = some c ∧ projectionColumn isGroupby t' p = some c' ∧
      c.rowCount = 1 ∧ c'.rowCount = 1 ∧ (Agree c c' ↔ OrderFree t t' p) := by
  have hsame : ∀ c : ColData, Agree c c := fun c => SameColumn.refl _
  unfold projectionColumn OrderFree firstType lastType floatsOf
  unfold Aggregate at hp
  cases hselect : p.selectType <;> simp only [hselect] at hp ⊢
  case sum =>
    right
    obtain ⟨first, rest, first', rest', hr, hr', hperm, hnum, -⟩ := h.rows hw hn horder hp
    rw [hr.all, hr'.all, hr.last, hr'.last]
    obtain ⟨hlast, hlast'⟩ := numeric_last hperm hnum
    have hagree := agree_sumColumn_iff hperm hnum
    exact ⟨_, _, rfl, rfl, rowCount_sumColumn hlast, rowCount_sumColumn hlast',
      by simpa using hagree⟩
  case avg =>
    right
    obtain ⟨first, rest, first', rest', hr, hr', hperm, hnum, -⟩ := h.rows hw hn horder hp
    obtain ⟨c, c', hc, hc', hone, hone', hagree⟩ := agree_avgColumn_iff hperm hnum t.rowCount
    rw [hr.all, hr'.all, hr.last, hr'.last, h.rowCount]
    refine ⟨c, c', hc, hc', hone, hone', ?_⟩
    rw [hagree]
    simp
  case min =>
    right
    obtain ⟨first, rest, first', rest', hr, hr', hperm, hnum, -⟩ := h.rows hw hn horder hp
    have hfirst : first.Numeric := hnum first (by simp)
    have hfirst' : first'.Numeric := hnum first' (hperm.mem_iff.mpr (by simp))
    have hagree := agree_minColumn_iff hperm hnum
    rw [hr.head, hr'.head, hr.tail, hr'.tail, hr.all, hr'.all]
    exact ⟨_, _, rfl, rfl, rowCount_pickColumn hfirst rest _, rowCount_pickColumn hfirst' rest' _,
      by simpa using hagree⟩
  case max =>
    right
    obtain ⟨first, rest, first', rest', hr, hr', hperm, hnum, -⟩ := h.rows hw hn horder hp
    have hfirst := (startsAt_maxStart (hnum first (by simp))).numeric (hnum first (by simp))
    have hmem' := hnum first' (hperm.mem_iff.mpr (by simp))
    have hfirst' := (startsAt_maxStart hmem').numeric hmem'
    have hagree := agree_maxColumn_iff hperm hnum
    rw [hr.head, hr'.head, hr.tail, hr'.tail, hr.last, hr'.last, hr.all, hr'.all]
    exact ⟨_, _, rfl, rfl, rowCount_pickColumn hfirst rest _, rowCount_pickColumn hfirst' rest' _,
      by simpa using hagree⟩
  case count =>
    right
    obtain ⟨col, hcol⟩ := hp
    have hcount := (h.perm_isnull hw horder col).count_eq false
    rw [hcol, Option.map_some, Option.map_some, hcount]
    exact ⟨_, _, rfl, rfl, rfl, rfl, by simpa using hsame _⟩
  case countStar =>
    right
    rw [h.rowCount]
    exact ⟨_, _, rfl, rfl, rfl, rfl, by simpa using hsame _⟩
  case countDistinct =>
    obtain ⟨col, hcol⟩ := hp
    have hcount' := h.distinctRowCount_eq hw horder col
    simp only [hcol, Option.bind_eq_bind, Option.bind_some, Option.some.injEq, forall_eq']
    by_cases hnan : (t.tableData.get col).type = .float → .nan ∉ (t.tableData.get col).floatvec
    · right
      obtain ⟨count, hcount⟩ : ∃ count, distinctRowCount (t.tableData.get col) = some count := by
        unfold distinctRowCount
        cases htype : (t.tableData.get col).type <;> simp [htype] at hnan ⊢
        exact hnan
      rw [hcount'.trans hcount, hcount]
      exact ⟨countColumn count, countColumn count, rfl, rfl, rfl, rfl,
        iff_of_true (hsame _) hnan⟩
    · left
      obtain ⟨htype, hin⟩ : (t.tableData.get col).type = .float ∧
          .nan ∈ (t.tableData.get col).floatvec := by simpa using hnan
      refine ⟨?_, hnan⟩
      simp [distinctRowCount, htype, hin]

/-- An operand with one tag on every row never tells two orders apart, unless
there is a NaN. -/
theorem Reordered.orderFree_of_one_tag {p : Projection} (hp : Aggregate t p) {type : VectorType}
    (htag : ∀ r < t.rowCount.toNat, ∀ v, projection t.tableData p r = some v →
      v.type = type ∧ v.varFloat ≠ .nan)
    (hdistinct : p.selectType = .countDistinct → ∀ col, p.value[0]? = some col →
      .nan ∉ (t.tableData.get col).floatvec) :
    OrderFree t t' p := by
  have htypes : NumericOn t p → firstType t p = firstType t' p ∧ lastType t p = lastType t' p ∧
      ∀ lt, SameLeast lt (floatsOf t p) (floatsOf t' p) := by
    intro hnum
    obtain ⟨first, rest, first', rest', hr, hr', hperm, -, hall⟩ := h.rows hw hn horder hnum
    have htag := hall _ htag
    have htag' : ∀ v ∈ first' :: rest', v.type = type := fun v hv =>
      (htag v (hperm.mem_iff.mpr hv)).1
    unfold firstType lastType floatsOf
    rw [hr.head, hr'.head, hr.last, hr'.last, hr.all, hr'.all]
    simp only [Option.map_some, Option.getD_some]
    rw [(htag first (by simp)).1, htag' first' (by simp), (htag _ (last_mem first rest)).1,
      htag' _ (last_mem first' rest')]
    refine ⟨rfl, rfl, fun lt => sameLeast_of_perm (hperm.map T.varFloat) fun hnan => ?_⟩
    obtain ⟨v, hv, he⟩ := List.mem_map.mp hnan
    exact (htag v hv).2 he
  unfold OrderFree
  unfold Aggregate at hp
  cases hselect : p.selectType <;> simp only [hselect] at hp ⊢
  case sum => exact (htypes hp).2.1
  case avg => exact .inl (htypes hp).2.1
  case min => exact ⟨(htypes hp).1, fun _ => (htypes hp).2.2 _⟩
  case max => exact ⟨(htypes hp).1, (htypes hp).2.1, fun _ _ => (htypes hp).2.2 _⟩
  case countDistinct => exact fun col hcol _ => hdistinct hselect col hcol

end

/-- Appending result columns that agree pairwise. -/
theorem sameColumn_foldl {names : List String} {columns columns' : List ColData}
    (hagree : List.Forall₂ Agree columns columns') {m m' : ColMap}
    (hm : (∀ name, name ∈ m ↔ name ∈ m') ∧ ∀ name, SameColumn (m.get name) (m'.get name)) :
    let r := (names.zip columns).foldl (fun m e => m.modify e.1 (appendColumn e.2)) m
    let r' := (names.zip columns').foldl (fun m e => m.modify e.1 (appendColumn e.2)) m'
    (∀ name, name ∈ r ↔ name ∈ r') ∧ ∀ name, SameColumn (r.get name) (r'.get name) := by
  induction hagree generalizing names m m' with
  | nil => simpa using hm
  | @cons c c' columns columns' hc hcs ih =>
    cases names with
    | nil => simpa using hm
    | cons name names =>
      simp only [List.zip_cons_cons, List.foldl_cons]
      apply ih
      refine ⟨fun other => ?_, fun other => ?_⟩
      · rw [ColMap.mem_modify, ColMap.mem_modify, hm.1]
      · by_cases hother : other = name
        · subst hother
          rw [ColMap.get_modify, ColMap.get_modify, sameColumn_appendColumn_iff (hm.2 other)]
          exact hc
        · rw [ColMap.get_modify_ne m _ hother, ColMap.get_modify_ne m' _ hother]
          exact hm.2 other

def partTable (types : List String) (prices : List Double) : TableData where
  tableData := ((∅ : ColMap).insert "p_type"
    { type := .string, strvec := types, isnull := [false, false], rowCount := 2 }).insert "price"
    { type := .float, floatvec := prices, isnull := [false, false], rowCount := 2, realSize := 2 }
  rowCount := 2

/-- A promotion first and a promotion last. -/
def promoFirst : TableData := partTable ["PROMO TIN", "STANDARD"] [.fin (5 / 2), .fin 1]

def promoLast : TableData := partTable ["STANDARD", "PROMO TIN"] [.fin 1, .fin (5 / 2)]

/-- `SUM(CASE WHEN p_type LIKE 'PROMO%' THEN price ELSE 0 END)`. -/
def promoRevenue : Projection where
  selectType := .sum
  value := ["CASE", "WHEN", "p_type", "PROMO%", "LIKE", "THEN", "price", "ELSE", "0", "END"]
  valueType := [.string, .string, .column, .string, .operator, .string, .column, .string, .int64,
    .string]

theorem mem_partTable {types : List String} {prices : List Double} {name : String} :
    name ∈ (partTable types prices).tableData ↔ name = "price" ∨ name = "p_type" := by
  simp [partTable, -AList.insert_empty]

theorem promoFirst_wellFormed : promoFirst.WellFormed 2 := by
  constructor
  case count => rfl
  case column =>
    intro name hname
    rcases mem_partTable.mp hname with rfl | rfl <;> exact ⟨rfl, rfl, rfl⟩
  case stored =>
    intro name hname
    rcases mem_partTable.mp hname with rfl | rfl <;> decide

theorem promo_reordered : Reordered promoFirst promoLast [1, 0] := by
  constructor
  case rowCount => rfl
  case names => exact fun name => mem_partTable.trans mem_partTable.symm
  case type | realSize =>
    intro name hname
    rcases mem_partTable.mp hname with rfl | rfl <;> rfl
  case value | isnull =>
    intro name hname k
    rcases mem_partTable.mp hname with rfl | rfl
    all_goals
      match k with
      | 0 => rfl
      | 1 => rfl
      | k + 2 => rfl

theorem promoRevenue_aggregate : ∀ p ∈ [promoRevenue], Aggregate promoFirst p := by
  intro p hp
  obtain rfl := List.mem_singleton.mp hp
  show NumericOn promoFirst promoRevenue
  intro r hr
  have hr : r < 2 := hr
  match r with
  | 0 => exact ⟨{ varFloat := .fin (5 / 2), realSize := 2, type := .float },
      by decide +kernel, .inr rfl⟩
  | 1 => exact ⟨{ varInt := 0, type := .int }, by decide +kernel, .inl rfl⟩

end KetiEngine.Merging
