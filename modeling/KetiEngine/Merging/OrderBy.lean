import KetiEngine.Lib.Lexicographic
import KetiEngine.Merging.InnerJoin
import Mathlib.Data.String.Basic
import Mathlib.Order.WithBot

/-!
# OrderBy — the comparator of ORDER BY

The lambda that `OrderBy` hands to `std::sort`: the order columns one after
another, each ascending or descending, until two rows differ. After the loop
it has no `return`.
-/

namespace KetiEngine.Merging

open KetiEngine Lexicographic

/-! ## The source function -/

/-- `SnippetRequest.Order.OrderDirection`. -/
inductive OrderDirection where
  | asc | desc
  deriving DecidableEq, Repr

/-- `SnippetRequest.Order`. -/
structure Order where
  ascending : List OrderDirection
  columnName : List String

/-- How a call of the comparator ends. -/
inductive Outcome where
  | returns (b : Bool)
  /-- A vector or a list is read outside its bounds. -/
  | outOfRange
  /-- The end of a function that has a value to return. -/
  | fallsThrough
  deriving DecidableEq, Repr

/-- `if(a != b) return a < b;`, or `a > b`. -/
def returnDifferent {V : Type} (cmp : Comparison V) (d : OrderDirection) (a b : V) : Option Bool :=
  if cmp.eq a b then none
  else
    match d with
    | .asc => some (cmp.lt a b)
    | .desc => some (cmp.lt b a)

/-- The `switch` over the type of an order column: what it returns, if it
does. -/
def orderColumn (d : OrderDirection) (c : ColData) (i j : Nat) : Option (Option Bool) :=
  match c.type with
  | .int | .date => do
      let a ← c.intvec[i]?
      let b ← c.intvec[j]?
      pure (returnDifferent intComparison d a b)
  | .float => do
      let a ← c.floatvec[i]?
      let b ← c.floatvec[j]?
      pure (returnDifferent doubleComparison d a b)
  | .string => do
      let a ← c.strvec[i]?
      let b ← c.strvec[j]?
      pure (returnDifferent stringComparison d a b)
  | .empty | .boolean => some (some true)

/-- The loop over the order columns. -/
def orderLoop (t : ColMap) (i j : Nat) : List String → List OrderDirection → Outcome
  | [], _ => .fallsThrough
  | _ :: _, [] => .outOfRange
  | name :: names, d :: ascending =>
      match orderColumn d (t.get name) i j with
      | none => .outOfRange
      | some (some b) => .returns b
      | some none => orderLoop t i j names ascending

/-- The comparator on the rows `i` and `j`. -/
def orderComparator (t : ColMap) (orders : Order) (i j : Nat) : Outcome :=
  orderLoop t i j orders.columnName orders.ascending

/-! ## The order of a query -/

/-- The order columns are columns of the table without NaN, each with a
direction. -/
structure OrdersBy (t : ColMap) (orders : Order) : Prop where
  directions : orders.ascending.length = orders.columnName.length
  columns : ∀ name ∈ orders.columnName, name ∈ t
  noNaN : ∀ name ∈ orders.columnName, (t.get name).type = .float →
    .nan ∉ (t.get name).floatvec

/-- Two rows are equal in all order columns. -/
def EqualInOrder (t : ColMap) (orders : Order) (i j : Nat) : Prop :=
  ∀ name ∈ orders.columnName, (t.get name).value? i = (t.get name).value? j

/-- What `std::sort` asks of a comparator on `n` rows: a value on every path,
and a strict weak order in which the rows that are equal are the incomparable
ones. -/
structure FitForSort (cmp : Nat → Nat → Outcome) (equal : Nat → Nat → Prop) (n : Nat) : Prop where
  returns : ∀ i < n, ∀ j < n, ∃ b, cmp i j = .returns b
  order : IsStrictWeakOrder (Fin n) fun i j => cmp i j = .returns true
  incomparable : ∀ i < n, ∀ j < n,
    (cmp i j ≠ .returns true ∧ cmp j i ≠ .returns true) ↔ equal i j

/-! ## One column -/

/-- A `double` in the order of the numbers; NaN has no place of its own. -/
def rank : Double → WithBot (WithTop ℚ)
  | .nan | .inf true => ⊥
  | .inf false => ((⊤ : WithTop ℚ) : WithBot (WithTop ℚ))
  | .fin q => ((q : WithTop ℚ) : WithBot (WithTop ℚ))

theorem rank_inj {x y : Double} (hx : x ≠ .nan) (hy : y ≠ .nan) : rank x = rank y ↔ x = y := by
  rcases x with _ | (_ | _) | p
  · exact absurd rfl hx
  all_goals
    rcases y with _ | (_ | _) | q
    · exact absurd rfl hy
    all_goals simp [rank]

theorem blt_iff {x y : Double} (hx : x ≠ .nan) (hy : y ≠ .nan) :
    x.blt y = true ↔ rank x < rank y := by
  have htop : ∀ q : ℚ, rank (.fin q) < rank (.inf false) := fun q =>
    WithBot.coe_lt_coe.mpr (WithTop.coe_lt_top q)
  rcases x with _ | (_ | _) | p
  · exact absurd rfl hx
  all_goals
    rcases y with _ | (_ | _) | q
    · exact absurd rfl hy
  case fin.inf.false => exact iff_of_true rfl (htop p)
  all_goals simp [rank, Double.blt]

/-- The order of a column, ascending. -/
def columnOrder (c : ColData) : Nat → Nat → Ordering :=
  match c.type with
  | .int | .date => compareOn fun i => c.intvec.getD i 0
  | .float => compareOn fun i => rank (c.floatvec.getD i (.fin 0))
  | .string => compareOn fun i => c.strvec.getD i ""
  | .empty | .boolean => fun _ _ => .eq

def directed (d : OrderDirection) (cmp : Nat → Nat → Ordering) : Nat → Nat → Ordering :=
  match d with
  | .asc => cmp
  | .desc => fun i j => cmp j i

/-- What a comparison makes the loop return. -/
def verdictOf : Ordering → Option Bool
  | .lt => some true
  | .gt => some false
  | .eq => none

theorem transCmp_columnOrder (c : ColData) : Std.TransCmp (columnOrder c) := by
  unfold columnOrder
  cases c.type with
  | empty | boolean => exact transCmp_lexicographic [] nofun
  | int | date | float | string => infer_instance

theorem transCmp_directed (d : OrderDirection) {cmp : Nat → Nat → Ordering} (h : Std.TransCmp cmp) :
    Std.TransCmp (directed d cmp) := by
  cases d with
  | asc => exact h
  | desc => exact inferInstanceAs (Std.TransCmp fun i j => cmp j i)

theorem directed_eq_iff (d : OrderDirection) {cmp : Nat → Nat → Ordering} (h : Std.TransCmp cmp)
    {i j : Nat} : directed d cmp i j = .eq ↔ cmp i j = .eq := by
  cases d with
  | asc => rfl
  | desc =>
    have hcomm : cmp j i = .eq ↔ cmp i j = .eq := Std.OrientedCmp.eq_comm
    exact hcomm

/-- The comparison of two values of a vector returns the order of their
keys `f`. -/
theorem returnDifferent_spec {V K : Type} [LinearOrder K] (cmp : Comparison V) (f : V → K)
    {vec : List V} {i j : Nat} {a b : V} (ha : vec[i]? = some a) (hb : vec[j]? = some b)
    (heq : cmp.eq a b = true ↔ f a = f b) (hlt : cmp.lt a b = true ↔ f a < f b)
    (hgt : cmp.lt b a = true ↔ f b < f a) (d : OrderDirection) (x : V) :
    returnDifferent cmp d a b =
      verdictOf (directed d (compareOn fun i => f (vec.getD i x)) i j) := by
  have horder : directed d (compareOn fun i => f (vec.getD i x)) i j =
      match d with
      | .asc => compare (f a) (f b)
      | .desc => compare (f b) (f a) := by
    cases d <;> simp [directed, compareOn, ha, hb]
  rw [horder]
  unfold returnDifferent
  rcases lt_trichotomy (f a) (f b) with h | h | h
  · have hne : cmp.eq a b = false := Bool.eq_false_iff.mpr fun he => h.ne (heq.mp he)
    have hnot : cmp.lt b a = false := Bool.eq_false_iff.mpr fun he => h.asymm (hgt.mp he)
    cases d with
    | asc => simp [hne, hlt.mpr h, compare_lt_iff_lt.mpr h, verdictOf]
    | desc => simp [hne, hnot, compare_gt_iff_gt.mpr h, verdictOf]
  · cases d <;> simp [heq.mpr h, compare_eq_iff_eq.mpr h, compare_eq_iff_eq.mpr h.symm, verdictOf]
  · have hne : cmp.eq a b = false := Bool.eq_false_iff.mpr fun he => h.ne' (heq.mp he)
    have hnot : cmp.lt a b = false := Bool.eq_false_iff.mpr fun he => h.asymm (hlt.mp he)
    cases d with
    | asc => simp [hne, hnot, compare_gt_iff_gt.mpr h, verdictOf]
    | desc => simp [hne, hgt.mpr h, compare_lt_iff_lt.mpr h, verdictOf]

/-- **One order column** returns the order of its values, and goes on where
they are equal. -/
theorem orderColumn_spec {c : ColData} {n i j : Nat} (hlength : c.HasLength n) (hstored : c.Stored)
    (hnan : c.type = .float → .nan ∉ c.floatvec) (hi : i < n) (hj : j < n) (d : OrderDirection) :
    orderColumn d c i j = some (verdictOf (directed d (columnOrder c) i j)) ∧
      (columnOrder c i j = .eq ↔ c.value? i = c.value? j) := by
  obtain ⟨v, hv⟩ := ColData.value?_isSome hlength hi
  obtain ⟨w, hw⟩ := ColData.value?_isSome hlength hj
  unfold orderColumn columnOrder
  unfold ColData.value? at hv hw ⊢
  rcases hstored with ht | ht | ht | ht <;> simp only [ht, Option.map_eq_some_iff] at hv hw hnan ⊢
  all_goals
    obtain ⟨a, ha, rfl⟩ := hv
    obtain ⟨b, hb, rfl⟩ := hw
    simp only [ha, hb, Option.bind_eq_bind, Option.bind_some, Option.pure_def]
  case inr.inr.inl =>
    have ha' : a ≠ .nan := fun he => hnan trivial (he ▸ List.mem_of_getElem? ha)
    have hb' : b ≠ .nan := fun he => hnan trivial (he ▸ List.mem_of_getElem? hb)
    have heq : a.beq b = true ↔ rank a = rank b := by
      rw [rank_inj ha' hb']
      cases a <;> simp [Double.beq] at ha' ⊢
    have hverdict := returnDifferent_spec doubleComparison rank ha hb heq (blt_iff ha' hb')
      (blt_iff hb' ha') d (.fin 0)
    exact ⟨congrArg some hverdict, by simp [ha, hb, compareOn, rank_inj ha' hb']⟩
  case inl =>
    have hverdict := returnDifferent_spec stringComparison id ha hb (by simp [stringComparison])
      (by simp [stringComparison]) (by simp [stringComparison]) d ""
    exact ⟨congrArg some hverdict, by simp [ha, hb, compareOn]⟩
  all_goals
    have hverdict := returnDifferent_spec intComparison id ha hb (by simp [intComparison])
      (by simp [intComparison]) (by simp [intComparison]) d 0
    exact ⟨congrArg some hverdict, by simp [ha, hb, compareOn]⟩

/-! ## The order columns together -/

/-- The order of the rows: by the first order column in which they differ. -/
def rowOrder (t : ColMap) (orders : Order) : Nat → Nat → Ordering :=
  lexicographic ((orders.columnName.zip orders.ascending).map fun p =>
    directed p.2 (columnOrder (t.get p.1)))

/-- How the comparator ends on rows in this order. -/
def outcomeOf : Ordering → Outcome
  | .lt => .returns true
  | .gt => .returns false
  | .eq => .fallsThrough

theorem outcomeOf_returns_iff {o : Ordering} : (∃ b, outcomeOf o = .returns b) ↔ o ≠ .eq := by
  cases o <;> simp [outcomeOf]

theorem outcomeOf_true_iff {o : Ordering} : outcomeOf o = .returns true ↔ o = .lt := by
  cases o <;> simp [outcomeOf]

theorem transCmp_rowOrder (t : ColMap) (orders : Order) : Std.TransCmp (rowOrder t orders) := by
  refine transCmp_lexicographic _ fun cmp hcmp => ?_
  obtain ⟨p, -, rfl⟩ := List.mem_map.mp hcmp
  exact transCmp_directed p.2 (transCmp_columnOrder _)

section
variable {t : TableData} {n i j : Nat} {orders : Order}

/-- **The loop** ends with the order of the rows. -/
theorem orderComparator_spec (hw : t.WellFormed n) (ho : OrdersBy t.tableData orders) (hi : i < n)
    (hj : j < n) :
    orderComparator t.tableData orders i j = outcomeOf (rowOrder t.tableData orders i j) := by
  obtain ⟨ascending, columnName⟩ := orders
  obtain ⟨hdirections, hcolumns, hnan⟩ := ho
  simp only at hdirections hcolumns hnan
  unfold orderComparator rowOrder
  induction columnName generalizing ascending with
  | nil => rfl
  | cons name names ih =>
    cases ascending with
    | nil => cases hdirections
    | cons d ascending =>
      have hname := hcolumns name (by simp)
      obtain ⟨hrun, -⟩ := orderColumn_spec (hw.column name hname) (hw.stored name hname)
        (hnan name (by simp)) hi hj d
      have hrest := ih ascending (by simpa using hdirections)
        (fun other h => hcolumns other (by simp [h])) (fun other h => hnan other (by simp [h]))
      rw [orderLoop, hrun, List.zip_cons_cons, List.map_cons, lexicographic_cons]
      cases directed d (columnOrder (t.tableData.get name)) i j with
      | eq => exact hrest
      | lt | gt => rfl

/-- The rows that no order column tells apart. -/
theorem rowOrder_eq_iff (hw : t.WellFormed n) (ho : OrdersBy t.tableData orders) (hi : i < n)
    (hj : j < n) :
    rowOrder t.tableData orders i j = .eq ↔ EqualInOrder t.tableData orders i j := by
  have hcolumn : ∀ name ∈ orders.columnName, ∀ d,
      directed d (columnOrder (t.tableData.get name)) i j = .eq ↔
        (t.tableData.get name).value? i = (t.tableData.get name).value? j := by
    intro name hname d
    have hin := ho.columns name hname
    rw [directed_eq_iff d (transCmp_columnOrder _)]
    have hspec := orderColumn_spec (hw.column name hin) (hw.stored name hin)
      (ho.noNaN name hname) hi hj d
    exact hspec.2
  unfold rowOrder EqualInOrder
  rw [lexicographic_eq_iff, List.forall_mem_map]
  constructor
  · intro h name hname
    obtain ⟨k, hk, rfl⟩ := List.getElem_of_mem hname
    have hk' : k < orders.ascending.length := ho.directions.symm ▸ hk
    have hp : (orders.columnName[k], orders.ascending[k]) ∈
        orders.columnName.zip orders.ascending := by
      rw [← List.getElem_zip (h := by simp [hk, hk'])]
      exact List.getElem_mem _
    exact (hcolumn _ hname _).mp (h _ hp)
  · intro h p hp
    have hname := (List.of_mem_zip hp).1
    exact (hcolumn _ hname _).mpr (h _ hname)

/-- **The comparator is fit for `std::sort`** only for no rows: it returns a
value exactly for rows that differ in an order column. Its relation is the
strict weak order that is asked for. -/
theorem orderComparator_fit_iff (hw : t.WellFormed n) (ho : OrdersBy t.tableData orders) :
    (FitForSort (orderComparator t.tableData orders) (EqualInOrder t.tableData orders) n ↔ n = 0) ∧
    (∀ i < n, ∀ j < n, (∃ b, orderComparator t.tableData orders i j = .returns b) ↔
      ¬ EqualInOrder t.tableData orders i j) ∧
    IsStrictWeakOrder (Fin n) (fun i j => orderComparator t.tableData orders i j = .returns true) ∧
    ∀ i < n, ∀ j < n, (orderComparator t.tableData orders i j ≠ .returns true ∧
      orderComparator t.tableData orders j i ≠ .returns true) ↔
        EqualInOrder t.tableData orders i j := by
  have htrans := transCmp_rowOrder t.tableData orders
  have hreturns : ∀ i < n, ∀ j < n,
      (∃ b, orderComparator t.tableData orders i j = .returns b) ↔
        ¬ EqualInOrder t.tableData orders i j := by
    intro i hi j hj
    rw [orderComparator_spec hw ho hi hj, outcomeOf_returns_iff, ne_eq, rowOrder_eq_iff hw ho hi hj]
  have hless : ∀ i < n, ∀ j < n, orderComparator t.tableData orders i j = .returns true ↔
      rowOrder t.tableData orders i j = .lt := by
    intro i hi j hj
    rw [orderComparator_spec hw ho hi hj, outcomeOf_true_iff]
  have horder : IsStrictWeakOrder (Fin n) fun i j =>
      orderComparator t.tableData orders i j = .returns true := by
    have hrelation : (fun i j : Fin n => orderComparator t.tableData orders i j = .returns true) =
        Order.Preimage Fin.val fun i j => rowOrder t.tableData orders i j = .lt := by
      funext i j
      exact propext (hless i i.isLt j j.isLt)
    have hweak : IsStrictWeakOrder Nat fun i j => rowOrder t.tableData orders i j = .lt :=
      isStrictWeakOrder
    rw [hrelation]
    infer_instance
  have hincomparable : ∀ i < n, ∀ j < n,
      (orderComparator t.tableData orders i j ≠ .returns true ∧
        orderComparator t.tableData orders j i ≠ .returns true) ↔
      EqualInOrder t.tableData orders i j := by
    intro i hi j hj
    rw [ne_eq, ne_eq, hless i hi j hj, hless j hj i hi, ← rowOrder_eq_iff hw ho hi hj]
    exact incomparable_iff
  refine ⟨⟨fun hfit => ?_, ?_⟩, hreturns, horder, hincomparable⟩
  · -- a row is equal to itself
    by_contra hn
    have hzero := Nat.pos_of_ne_zero hn
    exact (hreturns 0 hzero 0 hzero).mp (hfit.returns 0 hzero 0 hzero) fun _ _ => rfl
  · rintro rfl
    exact ⟨nofun, horder, nofun⟩

end

theorem ordersBy_numberTable (name : String) (ns : List Int) (status : WorkStatus)
    (dir : OrderDirection) : OrdersBy (numberTable name ns status).tableData ⟨[dir], [name]⟩ where
  directions := rfl
  columns other hother := mem_numberTable.mpr (List.mem_singleton.mp hother)
  noNaN other hother hfloat := by
    obtain rfl := List.mem_singleton.mp hother
    simp [get_numberTable] at hfloat

/-- `ORDER BY n DESC` on the rows 7, 3, 7. -/
theorem orderComparator_fit_numbers :
    (FitForSort
        (orderComparator (numberTable "n" [7, 3, 7] .workDone).tableData ⟨[.desc], ["n"]⟩)
        (EqualInOrder (numberTable "n" [7, 3, 7] .workDone).tableData ⟨[.desc], ["n"]⟩) 3 ↔
      3 = 0) ∧
    (∀ i < 3, ∀ j < 3,
      (∃ b, orderComparator (numberTable "n" [7, 3, 7] .workDone).tableData ⟨[.desc], ["n"]⟩ i j =
        .returns b) ↔
      ¬ EqualInOrder (numberTable "n" [7, 3, 7] .workDone).tableData ⟨[.desc], ["n"]⟩ i j) := by
  obtain ⟨hfit, hreturns, -, -⟩ :=
    orderComparator_fit_iff (numberTable_wellFormed "n" [7, 3, 7] .workDone)
      (ordersBy_numberTable "n" [7, 3, 7] .workDone .desc)
  exact ⟨hfit, hreturns⟩

/-- The rows 7, 7 by `n ASC`: the call on the two rows ends without a value. -/
theorem orderComparator_falls_through :
    orderComparator (numberTable "n" [7, 7] .workDone).tableData ⟨[.asc], ["n"]⟩ 0 1 =
      .fallsThrough ∧
    ¬ FitForSort
        (orderComparator (numberTable "n" [7, 7] .workDone).tableData ⟨[.asc], ["n"]⟩)
        (EqualInOrder (numberTable "n" [7, 7] .workDone).tableData ⟨[.asc], ["n"]⟩) 2 := by
  have hrun : orderComparator (numberTable "n" [7, 7] .workDone).tableData ⟨[.asc], ["n"]⟩ 0 1 =
      .fallsThrough := by
    simp [orderComparator, orderLoop, orderColumn, get_numberTable, returnDifferent, intComparison]
  refine ⟨hrun, fun hfit => ?_⟩
  obtain ⟨b, hb⟩ := hfit.returns 0 (by decide) 1 (by decide)
  rw [hrun] at hb
  cases hb

end KetiEngine.Merging
