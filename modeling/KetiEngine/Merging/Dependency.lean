import KetiEngine.Merging.InnerJoin
import KetiEngine.Merging.Projection
import KetiEngine.Merging.Selection

/-!
# Dependency — EXISTS and the comparisons of a dependent subquery

For each left row the operators with a dependent subquery go through the right
rows and test the comparisons of the dependency filter, every second filter of
the list. Integers are compared as `int`, and a FLOAT column of the right table
is read from its integer vector.
-/

namespace KetiEngine.Merging

open KetiEngine Loops

/-! ## The source functions -/

/-- `SnippetRequest.Dependency`. -/
structure Dependency where
  dependencyProjection : List Projection := []
  dependencyFilter : List Filter := []

/-- Conversion of a `float` to `int`. Outside the range it is undefined in
C++; the value is the one x86-64 leaves. -/
def floatToInt : Double → Int
  | .fin q =>
      let t := Int.tdiv q.num q.den
      if -2 ^ 31 ≤ t ∧ t < 2 ^ 31 then t else -2 ^ 31
  | _ => -2 ^ 31

/-- One comparison of the dependency filter on left row `r1` and right row
`r2`; the flag stays what it was for a column of another type. The right value
of an INT and of a FLOAT comparison both come from `intvec`; the operators
differ in what they make of it. -/
def compareDependency (onInt : ColData → Int → Int) (onFloat : ColData → Int → Double)
    (left right : ColMap) (r1 r2 : Nat) (f : Filter) (passed : Bool) : Option Bool := do
  let lvColumn ← f.lv.value[0]?
  let rvColumn ← f.rv.value[0]?
  let lv := left.get lvColumn
  let rv := right.get rvColumn
  match lv.type with
  | .string => do
      let lvValue ← lv.strvec[r1]?
      let rvValue ← rv.strvec[r2]?
      pure (compareByOperator stringComparison f.operator lvValue rvValue)
  | .int => do
      let lvValue ← lv.intvec[r1]?
      let rvValue ← rv.intvec[r2]?
      pure (compareByOperator intComparison f.operator (toInt32 lvValue) (onInt rv rvValue))
  | .float => do
      let lvValue ← lv.floatvec[r1]?
      let rvValue ← rv.intvec[r2]?
      pure (compareByOperator doubleComparison f.operator lvValue.toFloat (onFloat rv rvValue))
  | .empty | .boolean | .date => pure passed

/-- The comparison of `DependencyExist` and of `DependencyIn`, which look at
the type of the right column. -/
def compareTyped : ColMap → ColMap → Nat → Nat → Filter → Bool → Option Bool :=
  compareDependency
    (fun rv n => if rv.type = .int then toInt32 n else floatToInt (Double.ofInt n).toFloat)
    (fun rv n =>
      if rv.type = .float then (Double.ofInt n).toFloat else (Double.ofInt (toInt32 n)).toFloat)

/-- The loop over the dependency filter, which steps over every second one and
breaks at the first that fails. -/
def dependencyLoop (compare : Filter → Bool → Option Bool) : List Filter → Bool → Option Bool
  | [], passed => some passed
  | [f], passed => compare f passed
  | f :: _ :: rest, passed => do
      let passed ← compare f passed
      if passed then dependencyLoop compare rest passed else pure passed

/-- The loop over the right rows of `DependencyExist`. `exist` is not
initialised before the first row. -/
def existLoop (rowExists : Nat → Option Bool) : List Nat → Option Bool → Option (Option Bool)
  | [], exist => some exist
  | r2 :: rest, _ => do
      let exist ← rowExists r2
      if exist then pure (some true) else existLoop rowExists rest (some false)

/-- `passed` for left row `r1`. -/
def existVerdict (dependencyFilter : List Filter) (isNot : Bool) (right : TableData) : Verdict :=
  fun left r1 hashTable => do
    let exist ← existLoop
      (fun r2 => dependencyLoop (compareTyped left.tableData right.tableData r1 r2)
        dependencyFilter false)
      (List.range right.rowCount.toNat) none
    let exist ← exist
    pure (if isNot then !exist else exist, hashTable)

/-- `DependencyExist`: `target_table_` at its end. -/
def dependencyExist (filtering : List Filter) (dependency : Dependency) (right : TableData)
    (delivered : List TableData) : Option TableData :=
  selectLoop (existVerdict dependency.dependencyFilter (filtering.length ≠ 0) right) ∅ delivered

/-! ## The comparisons of a query -/

/-- A comparison of a left with a right column of the same type. -/
structure ComparesColumns (left right : ColMap) (f : Filter) (a b : String) : Prop where
  operator : isComparison f.operator = true
  lv : f.lv.value[0]? = some a
  rv : f.rv.value[0]? = some b
  leftColumn : a ∈ left
  rightColumn : b ∈ right
  type : (left.get a).type = (right.get b).type
  kind : (left.get a).type = .int ∨ (left.get a).type = .float ∨ (left.get a).type = .string

/-- Every comparison of `c1 AND c2 AND ... AND ck` is one of columns. -/
def Correlates (left right : ColMap) (filters : List Filter) : Prop :=
  ∀ c ∈ conjuncts filters, ∃ a b, ComparesColumns left right c a b

/-- Left row `l` and right row `r` satisfy every comparison. -/
def rowMatches (filters : List Filter) (left right : ColMap) (l r : Nat) : Bool :=
  (conjuncts filters).all (satisfies left right l r)

/-- The comparison holds of the values cut to 32 bits. -/
def satisfiesNarrow (left right : ColMap) (l r : Nat) (f : Filter) : Bool :=
  match f.lv.value[0]?, f.rv.value[0]? with
  | some a, some b =>
      match (left.get a).value? l, (right.get b).value? r with
      | some v, some w => valuesRelate f.operator (narrow v) (narrow w)
      | _, _ => false
  | _, _ => false

/-- The two rows satisfy every comparison of the values cut to 32 bits. -/
def rowMatchesNarrow (filters : List Filter) (left right : ColMap) (l r : Nat) : Bool :=
  (conjuncts filters).all (satisfiesNarrow left right l r)

def comparesFloat (left : ColMap) (f : Filter) : Bool :=
  match f.lv.value[0]? with
  | some a => (left.get a).type = .float
  | none => false

/-! ## The loops -/

/-- The filters the loop looks at. -/
theorem dependencyLoop_eq {compare : Filter → Bool → Option Bool} {p : Filter → Option Bool}
    {filters : List Filter} (hp : ∀ c ∈ conjuncts filters, ∀ passed, compare c passed = p c)
    (passed : Bool) : dependencyLoop compare filters passed =
      if filters = [] then some passed else (conjuncts filters).allM p := by
  fun_induction dependencyLoop compare filters passed with
  | case1 passed => rfl
  | case2 f passed =>
    rw [hp f (by simp [conjuncts]) passed, if_neg (by simp)]
    simp only [conjuncts, List.allM_cons, List.allM_nil]
    cases p f with
    | none => rfl
    | some b => cases b <;> rfl
  | case3 f g rest passed ih =>
    rw [hp f (by simp [conjuncts]) passed, if_neg (by simp)]
    simp only [conjuncts, List.allM_cons]
    cases p f with
    | none => rfl
    | some b =>
      cases b with
      | false => rfl
      | true =>
        have hrest := ih true fun c hc => hp c (by simp [conjuncts, hc])
        have hall : (if rest = [] then some true else (conjuncts rest).allM p) =
            (conjuncts rest).allM p := by
          by_cases he : rest = []
          · rw [if_pos he, he]
            rfl
          · rw [if_neg he]
        exact hrest.trans hall

theorem existLoop_eq (rowExists : Nat → Option Bool) (rows : List Nat) :
    existLoop rowExists rows none =
      if rows = [] then some none else (rows.anyM rowExists).map some := by
  have hloop : ∀ rows, existLoop rowExists rows (some false) =
      (rows.anyM rowExists).map some := by
    intro rows
    induction rows with
    | nil => rfl
    | cons r rows ih =>
      rw [existLoop, List.anyM_cons, ih]
      cases rowExists r with
      | none => rfl
      | some b => cases b <;> rfl
  cases rows with
  | nil => rfl
  | cons r rows =>
    rw [if_neg (by simp), ← hloop]
    rfl

section
variable {left part right : ColMap} {filters : List Filter} {k m l r : Nat}

/-- **One comparison**: on FLOAT columns it leaves the bounds of the empty
integer vector, otherwise it compares the values cut to 32 bits. -/
theorem compareDependency_spec {onInt : ColData → Int → Int} {onFloat : ColData → Int → Double}
    (honInt : ∀ rv n, rv.type = .int → onInt rv n = toInt32 n) (hpart : PartOf part left k)
    (hright : ∀ name ∈ right, (right.get name).HasLength m)
    (hown : ∀ name ∈ right, (right.get name).OneVector) (hl : l < k) (hr : r < m) {f : Filter}
    {a b : String} (h : ComparesColumns left right f a b) (passed : Bool) :
    compareDependency onInt onFloat part right l r f passed =
      if comparesFloat left f then none else some (satisfiesNarrow left right l r f) := by
  have hmem := (hpart.names a).mpr h.leftColumn
  have hgrown := hpart.grown a hmem
  obtain ⟨v, hv⟩ := ColData.value?_isSome (hpart.length a hmem) hl
  obtain ⟨w, hw⟩ := ColData.value?_isSome (hright b h.rightColumn) hr
  have hnarrow : satisfiesNarrow left right l r f =
      valuesRelate f.operator (narrow v) (narrow w) := by
    simp [satisfiesNarrow, h.lv, h.rv, hgrown.value? hv, hw]
  have htype := h.type
  rw [hnarrow]
  unfold compareDependency
  simp only [h.lv, h.rv, Option.bind_eq_bind, Option.bind_some, hgrown.type, comparesFloat]
  unfold ColData.value? at hv hw
  rw [hgrown.type] at hv
  rcases h.kind with ht | ht | ht <;> rw [ht] at htype <;>
    simp only [ht, ← htype, Option.map_eq_some_iff] at hv hw ⊢
  · obtain ⟨x, hx, rfl⟩ := hv
    obtain ⟨y, hy, rfl⟩ := hw
    simp [hx, hy, honInt _ _ htype.symm, compareByOperator_int, narrow]
  · -- the right value is read from a vector that is not in use
    obtain ⟨x, hx, rfl⟩ := hv
    have hnil : (right.get b).intvec = [] :=
      (hown b h.rightColumn).int (by simp [← htype]) (by simp [← htype])
    simp [hx, hnil]
  · obtain ⟨x, hx, rfl⟩ := hv
    obtain ⟨y, hy, rfl⟩ := hw
    simp [hx, hy, compareByOperator_string, narrow]

/-- **The comparisons of a pair of rows**: the loop leaves the bounds when it
comes to a FLOAT comparison. -/
theorem dependencyLoop_spec {onInt : ColData → Int → Int} {onFloat : ColData → Int → Double}
    (honInt : ∀ rv n, rv.type = .int → onInt rv n = toInt32 n) (hpart : PartOf part left k)
    (hright : ∀ name ∈ right, (right.get name).HasLength m)
    (hown : ∀ name ∈ right, (right.get name).OneVector) (hl : l < k) (hr : r < m)
    (hfilters : Correlates left right filters) {passed : Bool}
    (hpassed : filters = [] → passed = true) :
    dependencyLoop (compareDependency onInt onFloat part right l r) filters passed =
      if reached (satisfiesNarrow left right l r) (comparesFloat left) (conjuncts filters) then none
      else some (rowMatchesNarrow filters left right l r) := by
  rw [dependencyLoop_eq (p := fun f => if comparesFloat left f then none
    else some (satisfiesNarrow left right l r f)) (fun c hc passed => ?_) passed]
  · by_cases hnil : filters = []
    · rw [if_pos hnil, hpassed hnil, hnil]
      rfl
    · rw [if_neg hnil, allM_guarded fun _ _ => rfl]
      rfl
  · obtain ⟨a, b, h⟩ := hfilters c hc
    exact compareDependency_spec honInt hpart hright hown hl hr h passed

/-- The comparisons of a left row look at its values only. -/
theorem satisfies_congr {l' : Nat}
    (h : ∀ name ∈ left, (left.get name).value? l = (left.get name).value? l')
    (hfilters : Correlates left right filters) {c : Filter} (hc : c ∈ conjuncts filters) (r : Nat) :
    satisfies left right l r c = satisfies left right l' r c ∧
      satisfiesNarrow left right l r c = satisfiesNarrow left right l' r c := by
  obtain ⟨a, b, hcolumns⟩ := hfilters c hc
  have hvalue := h a hcolumns.leftColumn
  simp [satisfies, satisfiesNarrow, hcolumns.lv, hcolumns.rv, hvalue]

/-- Left rows with the same values have the same matches. -/
theorem rowMatches_congr {l' : Nat}
    (h : ∀ name ∈ left, (left.get name).value? l = (left.get name).value? l')
    (hfilters : Correlates left right filters) :
    rowMatches filters left right l = rowMatches filters left right l' ∧
      rowMatchesNarrow filters left right l = rowMatchesNarrow filters left right l' := by
  have hsame := fun i c (hc : c ∈ conjuncts filters) => satisfies_congr h hfilters hc i
  constructor
  · funext i
    exact all_congr_mem fun c hc => (hsame i c hc).1
  · funext i
    exact all_congr_mem fun c hc => (hsame i c hc).2

end

/-! ## EXISTS and NOT EXISTS -/

/-- `exist` for a left row, where it is decided. -/
def existNarrow (filters : List Filter) (left right : ColMap) (m l : Nat) : Option Bool :=
  if m = 0 ∨ reached (fun r => !rowMatchesNarrow filters left right l r)
      (fun r => reached (satisfiesNarrow left right l r) (comparesFloat left) (conjuncts filters))
      (List.range m) = true then none
  else some ((List.range m).any (rowMatchesNarrow filters left right l))

theorem existVerdict_decides {right final : TableData} {m : Nat} (hright : right.WellFormed m)
    (hown : ∀ name ∈ right.tableData, (right.tableData.get name).OneVector)
    {filters : List Filter} (hfilters : Correlates final.tableData right.tableData filters)
    (hne : filters ≠ []) (isNot : Bool) (hash : HashTable) :
    Decides (existVerdict filters isNot right) final hash fun l =>
      (existNarrow filters final.tableData right.tableData m l).map fun exist =>
        if isNot then !exist else exist := by
  intro t k l hpart hcount hl
  have hm : right.rowCount.toNat = m := by simp [hright.count]
  have hrows : (List.range m).anyM (fun r2 => dependencyLoop
        (compareTyped t.tableData right.tableData l r2) filters false) =
      if reached (fun r => !rowMatchesNarrow filters final.tableData right.tableData l r)
        (fun r => reached (satisfiesNarrow final.tableData right.tableData l r)
          (comparesFloat final.tableData) (conjuncts filters)) (List.range m) then none
      else some ((List.range m).any
        (rowMatchesNarrow filters final.tableData right.tableData l)) := by
    refine anyM_guarded fun r hr => ?_
    exact dependencyLoop_spec (fun rv n hrv => if_pos hrv) hpart hright.column hown hl
      (List.mem_range.mp hr) hfilters fun hnil => absurd hnil hne
  unfold existVerdict existNarrow
  rw [hm, existLoop_eq, hrows]
  by_cases hzero : m = 0
  · subst hzero
    simp
  · rw [if_neg (by simpa using hzero)]
    by_cases hfloat : reached
        (fun r => !rowMatchesNarrow filters final.tableData right.tableData l r)
        (fun r => reached (satisfiesNarrow final.tableData right.tableData l r)
          (comparesFloat final.tableData) (conjuncts filters)) (List.range m) = true
    · simp [hfloat]
    · simp [hfloat, hzero]

/-- `DependencyExist` decides left row `l` as the query does: there are right
rows, no FLOAT comparison is come to before the answer is known, and cutting
the integers to 32 bits does not change it. -/
structure ExistDecided (filters : List Filter) (left right : ColMap) (m l : Nat) : Prop where
  rows : 0 < m
  floats : ∀ r < m, (∀ r' < r, rowMatchesNarrow filters left right l r' = false) →
    ∀ before c after, conjuncts filters = before ++ c :: after →
      (∀ d ∈ before, satisfiesNarrow left right l r d = true) → comparesFloat left c = false
  width : (∃ r < m, rowMatchesNarrow filters left right l r = true) ↔
    ∃ r < m, rowMatches filters left right l r = true

theorem existNarrow_eq_some_iff {filters : List Filter} {left right : ColMap} {m l : Nat} :
    existNarrow filters left right m l =
        some ((List.range m).any (rowMatches filters left right l)) ↔
      ExistDecided filters left right m l := by
  unfold existNarrow
  constructor
  · intro h
    split at h
    · cases h
    · rename_i hopen
      obtain ⟨hzero, hfloat⟩ := not_or.mp hopen
      rw [Bool.not_eq_true, reached_eq_false_iff] at hfloat
      refine ⟨Nat.pos_of_ne_zero hzero, fun r hr hbefore => ?_, ?_⟩
      · refine reached_eq_false_iff.mp (hfloat (List.range r) r
          (List.range' (r + 1) (m - (r + 1))) ?_ fun r' hr' => ?_)
        · have hsplit := range_append_rowsFrom (Nat.le_of_lt hr)
          rw [rowsFrom_natCast (Nat.le_of_lt hr), show m - r = m - (r + 1) + 1 by omega,
            List.range'_succ] at hsplit
          exact hsplit.symm
        · rw [hbefore r' (List.mem_range.mp hr'), Bool.not_false]
      · have hany := Bool.eq_iff_iff.mp (Option.some.inj h)
        simpa using hany
  · intro h
    have hzero : m ≠ 0 := Nat.ne_of_gt h.rows
    have hfloat : reached (fun r => !rowMatchesNarrow filters left right l r)
        (fun r => reached (satisfiesNarrow left right l r) (comparesFloat left) (conjuncts filters))
        (List.range m) = false := by
      rw [reached_eq_false_iff]
      intro before r after hsplit hbefore
      obtain ⟨rfl, hr⟩ := range_eq_append_cons hsplit
      refine reached_eq_false_iff.mpr (h.floats r hr fun r' hr' => ?_)
      simpa using hbefore r' (List.mem_range.mpr hr')
    rw [if_neg (by simp [hzero, hfloat]), Option.some.injEq, Bool.eq_iff_iff]
    simpa using h.width

/-- Left rows with the same values have the same answer. -/
theorem existNarrow_congr {filters : List Filter} {left right : ColMap} {l l' : Nat}
    (h : ∀ name ∈ left, (left.get name).value? l = (left.get name).value? l')
    (hfilters : Correlates left right filters) (m : Nat) :
    existNarrow filters left right m l = existNarrow filters left right m l' := by
  have hfloat : (fun r => reached (satisfiesNarrow left right l r) (comparesFloat left)
        (conjuncts filters)) =
      fun r => reached (satisfiesNarrow left right l' r) (comparesFloat left)
        (conjuncts filters) := by
    funext r
    exact reached_congr fun c hc => ⟨(satisfies_congr h hfilters hc r).2, rfl⟩
  unfold existNarrow
  rw [(rowMatches_congr h hfilters).2, hfloat]

/-- **EXISTS and NOT EXISTS** keep exactly the left rows of the query where
every left row is decided as the query does. -/
theorem dependencyExist_exact_iff {right final : TableData} {n m : Nat}
    (hright : right.WellFormed m)
    (hown : ∀ name ∈ right.tableData, (right.tableData.get name).OneVector)
    {dependency : Dependency}
    (hfilters : Correlates final.tableData right.tableData dependency.dependencyFilter)
    (hne : dependency.dependencyFilter ≠ []) {delivered : List TableData}
    (hsnapshots : Snapshots delivered final n) (filtering : List Filter) :
    (∃ target, dependencyExist filtering dependency right delivered = some target ∧
      HoldsSelection final.tableData ((List.range n).filter fun l =>
        let exist := (List.range m).any
          (rowMatches dependency.dependencyFilter final.tableData right.tableData l)
        if filtering = [] then exist else !exist) target) ↔
      ∀ l < n, ExistDecided dependency.dependencyFilter final.tableData right.tableData m l := by
  -- what the flag makes of the answer
  have hkeep : ∀ exist : Bool, (if filtering = [] then exist else !exist) =
      if decide (filtering.length ≠ 0) then !exist else exist := by
    intro exist
    cases filtering with
    | nil => rfl
    | cons f fs => simp
  have hinj : Function.Injective fun exist : Bool =>
      if decide (filtering.length ≠ 0) then !exist else exist := by
    intro x y hxy
    cases filtering with
    | nil => exact hxy
    | cons f fs => simpa using hxy
  have hexact := selectLoop_exact_iff (existVerdict_decides hright hown hfilters hne
    (filtering.length ≠ 0) ∅) (fun l =>
      if filtering = [] then (List.range m).any
          (rowMatches dependency.dependencyFilter final.tableData right.tableData l)
      else !(List.range m).any
          (rowMatches dependency.dependencyFilter final.tableData right.tableData l))
    (fun r hr r' _ hrow => by
      have hvalues := value?_eq_of_row_eq hsnapshots.wellFormed hr hrow
      simp only [existNarrow_congr hvalues hfilters m, (rowMatches_congr hvalues hfilters).1,
        and_self]) hsnapshots
  refine hexact.trans (forall₂_congr fun l _ => ?_)
  rw [hkeep, ← existNarrow_eq_some_iff]
  constructor
  · intro h
    obtain ⟨exist, hexist, heq⟩ := Option.map_eq_some_iff.mp h
    rw [hexist, hinj heq]
  · intro h
    rw [h]
    rfl

/-- `id = key`. -/
def idEqualsKey : Dependency where
  dependencyFilter := [{ lv := ⟨[.column], ["id"]⟩, operator := .eq, rv := ⟨[.column], ["key"]⟩ }]

theorem numberTable_oneVector (name : String) (ns : List Int) (status : WorkStatus) :
    ∀ other ∈ (numberTable name ns status).tableData,
      ((numberTable name ns status).tableData.get other).OneVector := by
  intro other hother
  obtain rfl := mem_numberTable.mp hother
  rw [get_numberTable]
  exact ⟨fun _ => rfl, fun hne => absurd rfl hne, fun _ => rfl⟩

theorem idEqualsKey_correlates (ns ms : List Int) (status status' : WorkStatus) :
    Correlates (numberTable "id" ns status).tableData (numberTable "key" ms status').tableData
      idEqualsKey.dependencyFilter := by
  intro f hf
  obtain rfl := List.mem_singleton.mp hf
  refine ⟨"id", "key", rfl, rfl, rfl, mem_numberTable.mpr rfl, mem_numberTable.mpr rfl, ?_, ?_⟩
  · rw [get_numberTable, get_numberTable]
  · rw [get_numberTable]
    exact .inl rfl

/-- The filter that says `NOT`. -/
def notFilter : List Filter := [{ operator := .isNot }]

/-- NOT EXISTS over two left rows in two parts. -/
theorem dependencyExist_exact_parts :
    (∃ target, dependencyExist notFilter idEqualsKey (numberTable "key" [2] .workDone)
        [numberTable "id" [1] .notFinished, numberTable "id" [1, 2] .workDone] = some target ∧
      HoldsSelection (numberTable "id" [1, 2] .workDone).tableData ((List.range 2).filter fun l =>
        let exist := (List.range 1).any (rowMatches idEqualsKey.dependencyFilter
          (numberTable "id" [1, 2] .workDone).tableData
          (numberTable "key" [2] .workDone).tableData l)
        if notFilter = [] then exist else !exist) target) ↔
      ∀ l < 2, ExistDecided idEqualsKey.dependencyFilter
        (numberTable "id" [1, 2] .workDone).tableData
        (numberTable "key" [2] .workDone).tableData 1 l :=
  dependencyExist_exact_iff (numberTable_wellFormed "key" [2] .workDone)
    (numberTable_oneVector _ _ _) (idEqualsKey_correlates _ _ _ _) (by simp [idEqualsKey])
    (numberTable_snapshots "id" [1] [2]) notFilter

/-- Without right rows the flag is read before it is set, and 4294967296 is
found equal to 0. -/
theorem dependencyExist_undecided :
    (dependencyExist notFilter idEqualsKey (numberTable "key" [] .workDone)
        [numberTable "id" [1] .workDone] = none ∧
      (dependencyExist [] idEqualsKey (numberTable "key" [0] .workDone)
        [numberTable "id" [4294967296] .workDone]).map TableData.rowCount = some 1) ∧
    ¬ ∃ target, dependencyExist [] idEqualsKey (numberTable "key" [0] .workDone)
        [numberTable "id" [4294967296] .workDone] = some target ∧
      HoldsSelection (numberTable "id" [4294967296] .workDone).tableData
        ((List.range 1).filter fun l => (List.range 1).any (rowMatches
          idEqualsKey.dependencyFilter (numberTable "id" [4294967296] .workDone).tableData
          (numberTable "key" [0] .workDone).tableData l)) target := by
  have hrows : (dependencyExist [] idEqualsKey (numberTable "key" [0] .workDone)
      [numberTable "id" [4294967296] .workDone]).map TableData.rowCount = some 1 := by rfl
  have hwanted : ((List.range 1).filter fun l => (List.range 1).any (rowMatches
      idEqualsKey.dependencyFilter (numberTable "id" [4294967296] .workDone).tableData
      (numberTable "key" [0] .workDone).tableData l)) = [] := by decide
  refine ⟨⟨rfl, hrows⟩, ?_⟩
  rintro ⟨target, hrun, hholds⟩
  rw [hwanted] at hholds
  rw [hrun, Option.map_some, Option.some.injEq, hholds.count] at hrows
  exact absurd hrows (by decide)

end KetiEngine.Merging
