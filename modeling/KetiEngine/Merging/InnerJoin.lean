import KetiEngine.Merging.Delivery
import KetiEngine.Merging.HashKey

/-!
# InnerJoin — the inner hash join

`InnerJoin_hash`: a hash table over the finished left table, probed by the
rows of the right table as they are delivered, with the other comparisons
checked inside the bucket. Against it stands the join as a query means it,
the pairs of rows that satisfy every filter.
-/

namespace KetiEngine.Merging

open KetiEngine Loops

/-! ## The source functions -/

/-- The comparison operators of an operand type. -/
structure Comparison (T : Type) where
  eq : T → T → Bool
  lt : T → T → Bool
  le : T → T → Bool

def stringComparison : Comparison String where
  eq a b := a = b
  lt a b := a < b
  le a b := a ≤ b

def intComparison : Comparison Int where
  eq a b := a = b
  lt a b := a < b
  le a b := a ≤ b

def doubleComparison : Comparison Double where
  eq := Double.beq
  lt := Double.blt
  le := Double.ble

def compareByOperator {T : Type} (c : Comparison T) (oper : OperType) (arg1 arg2 : T) : Bool :=
  match oper with
  | .eq => c.eq arg1 arg2
  | .ge => c.le arg2 arg1
  | .le => c.le arg1 arg2
  | .gt => c.lt arg2 arg1
  | .lt => c.lt arg1 arg2
  | .ne => !c.eq arg1 arg2
  | _ => false

/-- The operators the filter loop inside a bucket looks at. -/
def isResidual : OperType → Bool
  | .ge | .le | .gt | .lt | .ne => true
  | _ => false

/-- `passed` after one such filter. Columns of other types leave it true. -/
def compareColumns (oper : OperType) (left right : ColData) (l r : Nat) : Option Bool :=
  match left.type with
  | .string => do
      pure (compareByOperator stringComparison oper (← left.strvec[l]?) (← right.strvec[r]?))
  | .int => do
      pure (compareByOperator intComparison oper (← left.intvec[l]?) (← right.intvec[r]?))
  | .float => do
      pure (compareByOperator doubleComparison oper (← left.floatvec[l]?) (← right.floatvec[r]?))
  | .empty | .boolean | .date => some true

/-- The loop over the filters; it breaks at the first that fails. -/
def residualPassed (left right : ColMap) (l r : Nat) : List Filter → Option Bool
  | [] => some true
  | f :: rest =>
      if isResidual f.operator then do
        let leftColumn ← f.lv.value[0]?
        let rightColumn ← f.rv.value[0]?
        let passed ← compareColumns f.operator (left.get leftColumn) (right.get rightColumn) l r
        if passed then residualPassed left right l r rest else pure false
      else residualPassed left right l r rest

/-- The columns of the EQ filters on one side. -/
def equalJoinColumns (side : Filter → FilterValue) (filtering : List Filter) :
    Option (List String) :=
  (filtering.filter (·.operator = .eq)).mapM fun f => (side f).value[0]?

/-- A row of `target_table_`, from row `l` of the left and row `r` of the
right table, the right columns first. -/
def joinRow (left right : ColMap) (l r : Nat) (target : TableData) : Option TableData := do
  let td ← copyRow right r target.tableData
  let td ← copyRow left l td
  pure { target with tableData := td, rowCount := target.rowCount + 1 }

/-- Row `r` of the right table: its bucket, entry by entry. -/
def probeRow (filtering : List Filter) (left right : ColMap) (hash : HashTable)
    (target : TableData) (r : Nat) : Option TableData := do
  let columns ← equalJoinColumns Filter.rv filtering
  let key ← innerJoinProbeKey right columns r
  (hash.bucket key).foldlM (fun target i => do
    let passed ← residualPassed left right i r filtering
    if passed then joinRow left right i r target else pure target) target

/-- The row of the nested loop join; here the left columns come first. -/
def nestedRow (left right : ColMap) (r1 r2 : Nat) (target : TableData) : Option TableData := do
  let td ← copyRow left r1 target.tableData
  let td ← copyRow right r2 td
  pure { target with tableData := td, rowCount := target.rowCount + 1 }

/-- The nested loop join of a query without EQ filters: over all rows of the
right table delivered so far. -/
def nestedLoopJoin (filtering : List Filter) (left right : TableData) (target : TableData) :
    Option TableData :=
  (List.range left.rowCount.toNat).foldlM (fun target r1 =>
    (List.range right.rowCount.toNat).foldlM (fun target r2 => do
      let passed ← residualPassed left.tableData right.tableData r1 r2 filtering
      if passed then nestedRow left.tableData right.tableData r1 r2 target
      else pure target) target) target

/-- What the loop does with a delivered table that has new rows. -/
def joinDelivered (filtering : List Filter) (left : TableData) (hash : HashTable)
    (equalJoinColumn : List String) (rowIndex : Int) (first : Bool) (right target : TableData) :
    Option TableData :=
  let target :=
    if first then { target with tableData := setTypes right.tableData target.tableData }
    else target
  if equalJoinColumn.length ≠ 0 then
    (rowsFrom rowIndex right.rowCount).foldlM
      (probeRow filtering left.tableData right.tableData hash) target
  else nestedLoopJoin filtering left right target

/-- The loop over what `GetTableData` delivers; `none` when it still waits
after the last table. -/
def innerJoinLoop (filtering : List Filter) (left : TableData) (hash : HashTable)
    (equalJoinColumn : List String) :
    Int → Bool → TableData → List TableData → Option TableData
  | _, _, _, [] => none
  | rowIndex, first, target, right :: delivered =>
      if rowIndex = right.rowCount ∧ right.status = .workDone then some target
      else if rowIndex = right.rowCount ∧ right.status ≠ .workDone then
        innerJoinLoop filtering left hash equalJoinColumn rowIndex first target delivered
      else do
        let target ← joinDelivered filtering left hash equalJoinColumn rowIndex first right target
        if right.status = .workDone then pure target
        else innerJoinLoop filtering left hash equalJoinColumn right.rowCount false target delivered

/-- `InnerJoin_hash`: `target_table_` at its end. -/
def innerJoinHash (filtering : List Filter) (left : TableData) (delivered : List TableData) :
    Option TableData := do
  let equalJoinColumn ← equalJoinColumns Filter.lv filtering
  let hash ← createHashTable left equalJoinColumn ∅
  innerJoinLoop filtering left hash equalJoinColumn 0 true
    { tableData := setTypes left.tableData ∅ } delivered

/-! ## The join of a query -/

/-- The comparison an operator stands for. -/
def relates {T : Type} [DecidableEq T] [LT T] [LE T] [DecidableLT T] [DecidableLE T]
    (oper : OperType) (a b : T) : Bool :=
  match oper with
  | .eq => a = b
  | .ne => a ≠ b
  | .ge => a ≥ b
  | .le => a ≤ b
  | .gt => a > b
  | .lt => a < b
  | _ => false

/-- The same of two doubles, where NaN is unequal to everything and in no
order. -/
def relatesDouble (oper : OperType) (a b : Double) : Bool :=
  match oper with
  | .eq => a.beq b
  | .ne => !a.beq b
  | .ge => b.ble a
  | .le => a.ble b
  | .gt => b.blt a
  | .lt => a.blt b
  | _ => false

def valuesRelate (oper : OperType) : Value → Value → Bool
  | .string s, .string t => relates oper s t
  | .int m, .int n => relates oper m n
  | .float x, .float y => relatesDouble oper x y
  | _, _ => false

def isComparison : OperType → Bool
  | .eq | .ne | .ge | .le | .gt | .lt => true
  | _ => false

/-- The comparisons of `c1 AND c2 AND ... AND ck`. -/
def conjuncts : List Filter → List Filter
  | [] => []
  | [c] => [c]
  | c :: _ :: rest => c :: conjuncts rest

/-- Row `l` of the left and row `r` of the right table satisfy a filter. -/
def satisfies (left right : ColMap) (l r : Nat) (f : Filter) : Bool :=
  f.operator = .and ||
    match f.lv.value[0]?, f.rv.value[0]? with
    | some leftColumn, some rightColumn =>
        match (left.get leftColumn).value? l, (right.get rightColumn).value? r with
        | some v, some w => valuesRelate f.operator v w
        | _, _ => false
    | _, _ => false

/-- The pairs for row `r` of the right table, in the order of the left rows. -/
def rowPairs (filtering : List Filter) (left right : ColMap) (n r : Nat) : List (Nat × Nat) :=
  ((List.range n).filter fun l => filtering.all (satisfies left right l r)).map (·, r)

/-- The pairs (l, r) of rows that satisfy every filter, ordered by r and then
by l. -/
def joinPairs (filtering : List Filter) (left right : ColMap) (n m : Nat) : List (Nat × Nat) :=
  (List.range m).flatMap (rowPairs filtering left right n)

theorem mem_joinPairs {filtering : List Filter} {left right : ColMap} {n m l r : Nat} :
    (l, r) ∈ joinPairs filtering left right n m ↔
      l < n ∧ r < m ∧ ∀ f ∈ filtering, satisfies left right l r f = true := by
  simp only [joinPairs, rowPairs, List.mem_flatMap, List.mem_map, List.mem_filter, List.mem_range,
    List.all_eq_true, Prod.mk.injEq]
  constructor
  · rintro ⟨r', hr, l', ⟨hl, hall⟩, rfl, rfl⟩
    exact ⟨hl, hr, hall⟩
  · rintro ⟨hl, hr, hall⟩
    exact ⟨r, hr, l, ⟨hl, hall⟩, rfl, rfl⟩

/-! ## Filters of a hash join -/

/-- A filter of the join: an AND marker, an EQ over two INT columns or two
STRING columns without `|`, or another comparison of two INT, FLOAT or STRING
columns. -/
def JoinFilter (left right : ColMap) (f : Filter) : Prop :=
  f.operator = .and ∨
  ∃ a b, f.lv.value[0]? = some a ∧ f.rv.value[0]? = some b ∧ a ∈ left ∧ b ∈ right ∧
    (left.get a).type = (right.get b).type ∧
    (f.operator = .eq ∧ ((left.get a).type = .int ∨ (left.get a).type = .string) ∧
        (∀ s ∈ (left.get a).strvec, '|' ∉ s.toList) ∧
        (∀ s ∈ (right.get b).strvec, '|' ∉ s.toList) ∨
      isResidual f.operator = true ∧ ((left.get a).type = .int ∨ (left.get a).type = .float ∨
        (left.get a).type = .string))

theorem JoinFilter.part {left part whole : ColMap} {m : Nat} {f : Filter}
    (h : JoinFilter left whole f) (hpart : PartOf part whole m) : JoinFilter left part f := by
  refine h.imp id ?_
  rintro ⟨a, b, ha, hb, hleft, hright, htype, hcase⟩
  have hmem := (hpart.names b).mpr hright
  have hgrown := hpart.grown b hmem
  refine ⟨a, b, ha, hb, hleft, hmem, hgrown.type ▸ htype, hcase.imp ?_ id⟩
  rintro ⟨hop, hkind, hbar, hbar'⟩
  exact ⟨hop, hkind, hbar, fun s hs => hbar' s (hgrown.str.subset hs)⟩

/-- A filter says the same of a part of the right table and of the whole. -/
theorem satisfies_part {left part whole : ColMap} {m l r : Nat} {f : Filter}
    (h : JoinFilter left whole f) (hpart : PartOf part whole m) (hr : r < m) :
    satisfies left part l r f = satisfies left whole l r f := by
  rcases h with hand | ⟨a, b, ha, hb, -, hright, -, -⟩
  · simp [satisfies, hand]
  · have hmem := (hpart.names b).mpr hright
    obtain ⟨v, hv⟩ := ColData.value?_isSome (hpart.length b hmem) hr
    have hwhole := (hpart.grown b hmem).value? hv
    simp [satisfies, ha, hb, hv, hwhole]

theorem compareByOperator_string (oper : OperType) (s t : String) :
    compareByOperator stringComparison oper s t = valuesRelate oper (.string s) (.string t) := by
  cases oper <;> simp [compareByOperator, stringComparison, valuesRelate, relates]

theorem compareByOperator_int (oper : OperType) (m n : Int) :
    compareByOperator intComparison oper m n = valuesRelate oper (.int m) (.int n) := by
  cases oper <;> simp [compareByOperator, intComparison, valuesRelate, relates]

theorem compareByOperator_double (oper : OperType) (x y : Double) :
    compareByOperator doubleComparison oper x y = valuesRelate oper (.float x) (.float y) := by
  cases oper <;> simp [compareByOperator, doubleComparison, valuesRelate, relatesDouble]

theorem compareColumns_spec {c d : ColData} {l r : Nat} {v w : Value} (oper : OperType)
    (hsame : c.type = d.type) (hkind : c.type = .int ∨ c.type = .float ∨ c.type = .string)
    (hv : c.value? l = some v) (hw : d.value? r = some w) :
    compareColumns oper c d l r = some (valuesRelate oper v w) := by
  unfold ColData.value? at hv hw
  rw [← hsame] at hw
  unfold compareColumns
  rcases hkind with ht | ht | ht <;> simp only [ht, Option.map_eq_some_iff] at hv hw ⊢
  all_goals
    obtain ⟨a, ha, rfl⟩ := hv
    obtain ⟨b, hb, rfl⟩ := hw
    rw [ha, hb]
  · exact congrArg some (compareByOperator_int oper a b)
  · exact congrArg some (compareByOperator_double oper a b)
  · exact congrArg some (compareByOperator_string oper a b)

section
variable {left right : ColMap} {n m : Nat} {l r : Nat}

/-- **The residual loop** computes whether the pair satisfies the comparisons
other than EQ. -/
theorem residualPassed_spec (hleft : ∀ name ∈ left, (left.get name).HasLength n)
    (hright : ∀ name ∈ right, (right.get name).HasLength m) (hl : l < n) (hr : r < m)
    {filtering : List Filter} (hfilters : ∀ f ∈ filtering, JoinFilter left right f) :
    residualPassed left right l r filtering =
      some (filtering.all fun f => !isResidual f.operator || satisfies left right l r f) := by
  induction filtering with
  | nil => rfl
  | cons f rest ih =>
    have ih := ih fun g hg => hfilters g (by simp [hg])
    unfold residualPassed
    cases hres : isResidual f.operator with
    | false => simp [hres, ih]
    | true =>
      rcases hfilters f (by simp) with hand | ⟨a, b, ha, hb, hma, hmb, htype, hcase⟩
      · rw [hand] at hres
        cases hres
      · obtain ⟨v, hv⟩ := ColData.value?_isSome (hleft a hma) hl
        obtain ⟨w, hw⟩ := ColData.value?_isSome (hright b hmb) hr
        have hkind : (left.get a).type = .int ∨ (left.get a).type = .float ∨
            (left.get a).type = .string := by
          rcases hcase with ⟨heq, -⟩ | ⟨-, hkind⟩
          · rw [heq] at hres
            cases hres
          · exact hkind
        have hne : f.operator ≠ .and := fun hand => by
          rw [hand] at hres
          cases hres
        have hsat : satisfies left right l r f = valuesRelate f.operator v w := by
          simp [satisfies, ha, hb, hv, hw, hne]
        simp only [if_true, ha, hb, Option.bind_eq_bind, Option.bind_some,
          compareColumns_spec f.operator htype hkind hv hw, List.all_cons, hres, Bool.not_true,
          Bool.false_or, hsat]
        cases valuesRelate f.operator v w with
        | true => simpa using ih
        | false => rfl

end

/-! ## The bucket of a row -/

/-- The equality columns of the filters. -/
def equalityColumns (filtering : List Filter) : List (String × String) :=
  (filtering.filter (·.operator = .eq)).map fun f =>
    (f.lv.value[0]?.getD "", f.rv.value[0]?.getD "")

theorem mem_equalityColumns {left right : ColMap} {filtering : List Filter}
    (hfilters : ∀ f ∈ filtering, JoinFilter left right f) {p : String × String}
    (hp : p ∈ equalityColumns filtering) :
    ∃ f ∈ filtering, f.operator = .eq ∧ f.lv.value[0]? = some p.1 ∧ f.rv.value[0]? = some p.2 ∧
      p.1 ∈ left ∧ p.2 ∈ right ∧ (left.get p.1).type = (right.get p.2).type ∧
      ((left.get p.1).type = .int ∨ (left.get p.1).type = .string) ∧
      (∀ s ∈ (left.get p.1).strvec, '|' ∉ s.toList) ∧
      (∀ s ∈ (right.get p.2).strvec, '|' ∉ s.toList) := by
  obtain ⟨f, hf, rfl⟩ := List.mem_map.mp hp
  rw [List.mem_filter, decide_eq_true_eq] at hf
  rcases hfilters f hf.1 with hand | ⟨a, b, ha, hb, hma, hmb, htype, hcase⟩
  · rw [hand] at hf
    cases hf.2
  · rcases hcase with ⟨-, hkind, hbar, hbar'⟩ | ⟨hres, -⟩
    · rw [ha, hb]
      exact ⟨f, hf.1, hf.2, ha, hb, hma, hmb, htype, hkind, hbar, hbar'⟩
    · rw [hf.2] at hres
      cases hres

theorem equalJoinColumns_spec {left right : ColMap} {filtering : List Filter}
    (hfilters : ∀ f ∈ filtering, JoinFilter left right f) :
    equalJoinColumns Filter.lv filtering = some ((equalityColumns filtering).map Prod.fst) ∧
    equalJoinColumns Filter.rv filtering = some ((equalityColumns filtering).map Prod.snd) := by
  unfold equalJoinColumns equalityColumns
  rw [List.map_map, List.map_map]
  have heach : ∀ f ∈ filtering.filter (·.operator = .eq),
      f.lv.value[0]? = some (f.lv.value[0]?.getD "") ∧
        f.rv.value[0]? = some (f.rv.value[0]?.getD "") := by
    intro f hf
    rw [List.mem_filter, decide_eq_true_eq] at hf
    rcases hfilters f hf.1 with hand | ⟨a, b, ha, hb, -⟩
    · rw [hand] at hf
      cases hf.2
    · simp [ha, hb]
  exact ⟨mapM_of_forall fun f hf => (heach f hf).1, mapM_of_forall fun f hf => (heach f hf).2⟩

/-- The text of a stored value has no `|` when the column's strings have
none and it is no FLOAT column. -/
theorem bar_notMem_text {c : ColData} {i : Nat} {v : Value} (hv : c.value? i = some v)
    (hkind : c.type = .int ∨ c.type = .string) (hbar : ∀ s ∈ c.strvec, '|' ∉ s.toList) :
    '|' ∉ v.text.toList := by
  unfold ColData.value? at hv
  rcases hkind with ht | ht <;> simp only [ht, Option.map_eq_some_iff] at hv
  · obtain ⟨n, -, rfl⟩ := hv
    intro h
    rcases mem_intText h with h | h
    · exact absurd h (by decide)
    · exact absurd h (by decide)
  · obtain ⟨s, hs, rfl⟩ := hv
    exact hbar s (List.mem_of_getElem? hs)

/-- The rows of a bucket: those that agree in every equality column. -/
theorem equalOn_iff {left right : ColMap} {n m l r : Nat} (hleft : ∀ name ∈ left,
    (left.get name).HasLength n) (hright : ∀ name ∈ right, (right.get name).HasLength m)
    (hl : l < n) (hr : r < m) {filtering : List Filter}
    (hfilters : ∀ f ∈ filtering, JoinFilter left right f) :
    EqualOn left right (equalityColumns filtering) l r ↔
      ∀ f ∈ filtering, f.operator = .eq → satisfies left right l r f = true := by
  have hsat : ∀ f ∈ filtering, f.operator = .eq → ∀ a b, f.lv.value[0]? = some a →
      f.rv.value[0]? = some b → a ∈ left → b ∈ right →
      (left.get a).type = (right.get b).type →
      ((left.get a).type = .int ∨ (left.get a).type = .string) →
      (satisfies left right l r f = true ↔
        (left.get a).value? l = (right.get b).value? r) := by
    intro f _ hop a b ha hb hma hmb htype hkind
    obtain ⟨v, hv⟩ := ColData.value?_isSome (hleft a hma) hl
    obtain ⟨w, hw⟩ := ColData.value?_isSome (hright b hmb) hr
    rw [hv, hw, Option.some.injEq]
    have hsat : satisfies left right l r f = valuesRelate .eq v w := by
      simp [satisfies, ha, hb, hv, hw, hop]
    rw [hsat]
    unfold ColData.value? at hv hw
    rw [← htype] at hw
    rcases hkind with ht | ht <;> simp only [ht, Option.map_eq_some_iff] at hv hw
    all_goals
      obtain ⟨x, -, rfl⟩ := hv
      obtain ⟨y, -, rfl⟩ := hw
      simp [valuesRelate, relates]
  constructor
  · intro h f hf hop
    have hp : (f.lv.value[0]?.getD "", f.rv.value[0]?.getD "") ∈ equalityColumns filtering :=
      List.mem_map.mpr ⟨f, List.mem_filter.mpr ⟨hf, by simp [hop]⟩, rfl⟩
    rcases hfilters f hf with hand | ⟨a, b, ha, hb, hma, hmb, htype, hcase⟩
    · rw [hand] at hop
      cases hop
    · rcases hcase with ⟨-, hkind, -⟩ | ⟨hres, -⟩
      · have heq := h _ hp
        rw [ha, hb] at heq
        exact (hsat f hf hop a b ha hb hma hmb htype hkind).mpr heq
      · rw [hop] at hres
        cases hres
  · intro h p hp
    obtain ⟨f, hf, hop, ha, hb, hma, hmb, htype, hkind, -⟩ := mem_equalityColumns hfilters hp
    exact (hsat f hf hop p.1 p.2 ha hb hma hmb htype hkind).mp (h f hf hop)

end KetiEngine.Merging
