import KetiEngine.Merging.DependencyJoin
import KetiEngine.Merging.In

/-!
# DependencyIn — membership in a correlated subquery

`DependencyIn`: for each left row a table of the right rows that pass the
dependency filter, its projection, and a hash table for the left value. The
type of the left value is looked up as in `DependencyInnerJoin`, and
`hash_table_` is a member that is not cleared between the rows.
-/

namespace KetiEngine.Merging

open KetiEngine Loops

/-! ## The source function -/

/-- The text of `lv` in `hash_key`. -/
def T.keyText (t : T) : String :=
  match t.type with
  | .string => t.varString
  | .int => toString t.varInt
  | _ => t.varFloat.toText

/-- `passed` for left row `r1`. The hash table is built over the filtered
table by the names of the projected one, which is not read. -/
def memberVerdict (isGroupby isNot : Bool) (f : Filter) (dependency : Dependency)
    (right : TableData) : Verdict := fun left r1 hashTable => do
  let lvColumn ← f.lv.value[0]?
  let lv ← leftValue (lvType lvColumn) (left.tableData.get lvColumn) r1
  let filtered ← filteredTable (fun r2 => compareTyped left.tableData right.tableData r1 r2)
    dependency.dependencyFilter true right
  let aliasList := dependencyAlias dependency.dependencyProjection.length
  let _ ← aggregation isGroupby filtered dependency.dependencyProjection aliasList {}
  let hashTable ← createHashTable filtered aliasList hashTable
  let found := (hashTable.lookup ("|" ++ lv.keyText)).isSome
  pure (if isNot then !found else found, hashTable)

/-- `DependencyIn`: `target_table_` at its end. -/
def dependencyIn (isGroupby : Bool) (filtering : List Filter) (dependency : Dependency)
    (right : TableData) (delivered : List TableData) : Option TableData := do
  let f ← filtering[0]?
  selectLoop (memberVerdict isGroupby (filtering.length ≠ 0) f dependency right) ∅ delivered

/-! ## Membership -/

/-- The value of left row `l` in column `a` is one of column `b` in the right
rows that satisfy the dependency filter for that row. -/
def memberOf (filters : List Filter) (left right : ColMap) (a b : String) (m l : Nat) : Bool :=
  (matchingRows filters left right m l).any fun r => (right.get b).value? r = (left.get a).value? l

/-- The dependency whose projection is the bare column `b`. -/
def columnDependency (b : String) (filters : List Filter) : Dependency where
  dependencyProjection := [{ selectType := .columnName, value := [b], valueType := [.column] }]
  dependencyFilter := filters

section
variable {right final : TableData} {n m : Nat} {a b : String} {f : Filter} {filters : List Filter}

/-- An INT and a STRING value are read from the empty `floatvec`. -/
theorem memberVerdict_decides (hcolumns : SameKind final.tableData right.tableData a b)
    (hleft : (final.tableData.get a).OneVector) (hf : f.lv.value[0]? = some a)
    (isGroupby isNot : Bool) (dependency : Dependency) (hash : HashTable) :
    Decides (memberVerdict isGroupby isNot f dependency right) final hash fun _ => none := by
  intro t k l hpart _ _
  have hgrown := hpart.grown a ((hpart.names a).mpr hcolumns.leftColumn)
  have hfloat : (t.tableData.get a).type ≠ .float := by
    rw [hgrown.type]
    rcases hcolumns.kind with h | h <;> simp [h]
  unfold memberVerdict
  rw [hf, Option.bind_eq_bind, Option.bind_some, leftValue_eq_none (hgrown.oneVector hleft) hfloat]
  rfl

/-- **Correlated IN** decides the rows by membership only of a left table
without rows. -/
theorem dependencyIn_member_iff (hcolumns : SameKind final.tableData right.tableData a b)
    (hleft : (final.tableData.get a).OneVector)
    (hfilters : Correlates final.tableData right.tableData filters)
    (hf : f.lv.value[0]? = some a) {delivered : List TableData}
    (hsnapshots : Snapshots delivered final n) (rest : List Filter) (isGroupby : Bool) :
    (∃ negated : Bool, ∃ target,
      dependencyIn isGroupby (f :: rest) (columnDependency b filters) right delivered =
        some target ∧
      HoldsSelection final.tableData ((List.range n).filter fun l =>
        negated != memberOf filters final.tableData right.tableData a b m l) target) ↔ n = 0 := by
  have hexact : ∀ negated : Bool, (∃ target,
      dependencyIn isGroupby (f :: rest) (columnDependency b filters) right delivered =
        some target ∧
      HoldsSelection final.tableData ((List.range n).filter fun l =>
        negated != memberOf filters final.tableData right.tableData a b m l) target) ↔
      ∀ l < n, none = some (negated !=
        memberOf filters final.tableData right.tableData a b m l) := by
    intro negated
    refine selectLoop_exact_iff (memberVerdict_decides hcolumns hleft hf isGroupby _ _ ∅) _
      (fun r hr r' _ hrow => ⟨rfl, ?_⟩) hsnapshots
    have hvalues := value?_eq_of_row_eq hsnapshots.wellFormed hr hrow
    obtain ⟨hmatches, -⟩ := rowMatches_congr hvalues hfilters
    simp only [memberOf, matchingRows, hmatches, hvalues a hcolumns.leftColumn]
  constructor
  · rintro ⟨negated, h⟩
    by_contra hn
    have hnone := (hexact negated).mp h 0 (Nat.pos_of_ne_zero hn)
    cases hnone
  · rintro rfl
    exact ⟨false, (hexact false).mpr fun l hl => absurd hl (Nat.not_lt_zero l)⟩

/-- `id IN (SELECT key FROM right WHERE id = key)` on one row. -/
theorem dependencyIn_member_one :
    (∃ negated : Bool, ∃ target,
      dependencyIn false [idEqualsSum] (columnDependency "key" idEqualsKey.dependencyFilter)
        (numberTable "key" [1] .workDone)
        [numberTable "id" [] .notFinished, numberTable "id" [1] .workDone] = some target ∧
      HoldsSelection (numberTable "id" [1] .workDone).tableData ((List.range 1).filter fun l =>
        negated != memberOf idEqualsKey.dependencyFilter
          (numberTable "id" [1] .workDone).tableData (numberTable "key" [1] .workDone).tableData
          "id" "key" 1 l) target) ↔ 1 = 0 :=
  dependencyIn_member_iff ⟨mem_numberTable.mpr rfl, mem_numberTable.mpr rfl,
      by rw [get_numberTable, get_numberTable], by rw [get_numberTable]; exact .inl rfl⟩
    (numberTable_oneVector _ _ _ _ (mem_numberTable.mpr rfl)) (idEqualsKey_correlates _ _ _ _) rfl
    (numberTable_snapshots "id" [] [1]) [] false

/-- The INT value of the left row is read from the empty `floatvec`. -/
theorem dependencyIn_misread :
    ¬ ∃ negated : Bool, ∃ target,
      dependencyIn false [idEqualsSum] (columnDependency "key" idEqualsKey.dependencyFilter)
        (numberTable "key" [1] .workDone) [numberTable "id" [1] .workDone] = some target ∧
      HoldsSelection (numberTable "id" [1] .workDone).tableData ((List.range 1).filter fun l =>
        negated != memberOf idEqualsKey.dependencyFilter
          (numberTable "id" [1] .workDone).tableData (numberTable "key" [1] .workDone).tableData
          "id" "key" 1 l) target := by
  rintro ⟨negated, target, hrun, -⟩
  have hnone : dependencyIn false [idEqualsSum]
      (columnDependency "key" idEqualsKey.dependencyFilter) (numberTable "key" [1] .workDone)
      [numberTable "id" [1] .workDone] = none := by rfl
  rw [hnone] at hrun
  cases hrun

end

end KetiEngine.Merging
