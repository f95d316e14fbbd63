import KetiEngine.Merging.Selection

/-!
# In — IN and NOT IN

`In`: a hash table over one column of the finished right table, probed by a
column of the left rows as they are delivered. With one column a key is the
text of its value, and two INT or two STRING values have the same text only
when they are equal.
-/

namespace KetiEngine.Merging

open KetiEngine Loops

/-! ## The source function -/

/-- `passed` for row `r`: the probe loop has no case for `TYPE_DATE`. -/
def inVerdict (f : Filter) : Verdict := fun left r hashTable => do
  let hashKeyColumn ← f.lv.value[0]?
  let key ← hashKey false left.tableData [hashKeyColumn] r
  let found := (hashTable.lookup key).isSome
  pure (if f.operator = .notIn then !found else found, hashTable)

/-- `In`: `target_table_` at its end. -/
def mergeIn (filtering : List Filter) (right : TableData) (delivered : List TableData) :
    Option TableData := do
  let f ← filtering[0]?
  let equalJoinColumn ← f.rv.value[0]?
  let hashTable ← createHashTable right [equalJoinColumn] ∅
  selectLoop (inVerdict f) hashTable delivered

/-! ## The split of the left rows -/

/-- The key of one column. -/
theorem hashKey_single (dates : Bool) {t : ColMap} {name : String} {i : Nat} {v : Value}
    (hkind : (t.get name).type = .int ∨ (t.get name).type = .string)
    (hv : (t.get name).value? i = some v) :
    hashKey dates t [name] i = some ("" ++ ("|" ++ v.text)) := by
  have hstored : (t.get name).Stored := hkind.elim (fun h => .inr (.inl h)) .inl
  have hcase : (dates || (t.get name).type ≠ .date) = true := by
    rcases hkind with h | h <;> simp [h]
  unfold hashKey
  rw [List.foldlM_cons, keyText_spec hstored hv, if_pos hcase]
  rfl

/-- The value of left row `l` in column `a` occurs in column `b` of the `m`
right rows. -/
def occurs (left right : ColMap) (a b : String) (m l : Nat) : Bool :=
  (List.range m).any fun i => (right.get b).value? i = (left.get a).value? l

/-- Two columns of one type, both INT or both STRING. -/
structure SameKind (left right : ColMap) (a b : String) : Prop where
  leftColumn : a ∈ left
  rightColumn : b ∈ right
  type : (left.get a).type = (right.get b).type
  kind : (left.get a).type = .int ∨ (left.get a).type = .string

/-- **The probe** finds the key of a row exactly where its value occurs. -/
theorem inVerdict_decides {right final : TableData} {m : Nat} (hright : right.WellFormed m)
    {a b : String} (hcolumns : SameKind final.tableData right.tableData a b) {f : Filter}
    (ha : f.lv.value[0]? = some a) :
    ∃ hashTable, createHashTable right [b] ∅ = some hashTable ∧
      Decides (inVerdict f) final hashTable fun l =>
        let found := occurs final.tableData right.tableData a b m l
        some (if f.operator = .notIn then !found else found) := by
  obtain ⟨hleftColumn, hrightColumn, htype, hkind⟩ := hcolumns
  -- the key of each right row
  let keys : Nat → String := fun i => (buildKey right.tableData [b] i).getD ""
  have hkey : ∀ i < m, ∃ v, (right.tableData.get b).value? i = some v ∧
      buildKey right.tableData [b] i = some ("" ++ ("|" ++ v.text)) := by
    intro i hi
    obtain ⟨v, hv⟩ := ColData.value?_isSome (hright.column b hrightColumn) hi
    exact ⟨v, hv, hashKey_single true (htype ▸ hkind) hv⟩
  have hkeys : ∀ i < m, buildKey right.tableData [b] i = some (keys i) := by
    intro i hi
    obtain ⟨v, -, hv⟩ := hkey i hi
    simp [keys, hv]
  obtain ⟨hashTable, hhash, -⟩ := createHashTable_spec hright.count hkeys
  refine ⟨hashTable, hhash, fun t k l hpart hcount hl => ?_⟩
  have hmem := (hpart.names a).mpr hleftColumn
  have hgrown := hpart.grown a hmem
  obtain ⟨w, hw⟩ := ColData.value?_isSome (hpart.length a hmem) hl
  have hprobe := hashKey_single false (hgrown.type ▸ hkind) hw
  have hfound : (hashTable.lookup ("" ++ ("|" ++ w.text))).isSome =
      occurs final.tableData right.tableData a b m l := by
    rw [Bool.eq_iff_iff, AList.lookup_isSome, createHashTable_mem hright.count hkeys hhash]
    simp only [occurs, List.any_eq_true, List.mem_range, decide_eq_true_eq, hgrown.value? hw]
    refine exists_congr fun i => and_congr_right fun hi => ?_
    obtain ⟨v, hv, hbuilt⟩ := hkey i hi
    have hki : keys i = "" ++ ("|" ++ v.text) := by simp [keys, hbuilt]
    rw [hki, hv, Option.some.injEq]
    refine ⟨fun heq => ?_, fun heq => by rw [heq]⟩
    have htext : v.text = w.text := by simpa using heq
    exact text_injective (htype.symm.trans hgrown.type.symm) (htype ▸ hkind.imp_right .inr) hv hw
      htext
  unfold inVerdict
  rw [ha]
  simp only [Option.bind_eq_bind, Option.bind_some, hprobe, hfound, Option.pure_def,
    Option.map_some]

/-- **IN and NOT IN split the left table**: IN, and any operator but NOT IN,
keeps the rows whose value occurs in the right column, NOT IN the others, each
once and in order, and every left row is kept by one of the two. -/
theorem mergeIn_splits {right final : TableData} {n m : Nat} (hright : right.WellFormed m)
    {f : Filter} {rest : List Filter} {a b : String} (ha : f.lv.value[0]? = some a)
    (hb : f.rv.value[0]? = some b) (hcolumns : SameKind final.tableData right.tableData a b)
    {delivered : List TableData} (hsnapshots : Snapshots delivered final n) {oper : OperType}
    (hoper : oper ≠ .notIn) :
    ∃ inTable notInTable,
      mergeIn ({ f with operator := oper } :: rest) right delivered = some inTable ∧
      mergeIn ({ f with operator := .notIn } :: rest) right delivered = some notInTable ∧
      let inRows := (List.range n).filter (occurs final.tableData right.tableData a b m)
      let notInRows := (List.range n).filter (!occurs final.tableData right.tableData a b m ·)
      HoldsSelection final.tableData inRows inTable ∧
      HoldsSelection final.tableData notInRows notInTable ∧
      (inRows ++ notInRows).Perm (List.range n) := by
  have hrun : ∀ g : Filter, g.lv = f.lv → g.rv = f.rv → ∃ target,
      mergeIn (g :: rest) right delivered = some target ∧
      HoldsSelection final.tableData ((List.range n).filter fun l =>
        let found := occurs final.tableData right.tableData a b m l
        if g.operator = .notIn then !found else found) target := by
    intro g hlv hrv
    obtain ⟨hashTable, hhash, hdecides⟩ := inVerdict_decides hright hcolumns (hlv ▸ ha)
    obtain ⟨target, hloop, hholds⟩ := selectLoop_kept hdecides (fun _ _ => rfl) hsnapshots
    refine ⟨target, ?_, hholds⟩
    have hcolumn : g.rv.value[0]? = some b := hrv ▸ hb
    simp only [mergeIn, List.getElem?_cons_zero, Option.bind_eq_bind, Option.bind_some, hcolumn,
      hhash]
    exact hloop
  obtain ⟨inTable, hin, hinRows⟩ := hrun { f with operator := oper } rfl rfl
  obtain ⟨notInTable, hnotIn, hnotInRows⟩ := hrun { f with operator := .notIn } rfl rfl
  refine ⟨inTable, notInTable, hin, hnotIn, ?_, ?_, ?_⟩
  · simpa only [if_neg hoper] using hinRows
  · simpa only [if_true] using hnotInRows
  · have hperm := List.filter_append_perm (occurs final.tableData right.tableData a b m)
      (List.range n)
    simpa using hperm

/-- `id IN key` on three left rows in two parts. -/
theorem mergeIn_splits_numbers :
    ∃ inTable notInTable,
      mergeIn [{ lv := ⟨[.column], ["id"]⟩, operator := .in, rv := ⟨[.column], ["key"]⟩ }]
        (numberTable "key" [2, 2] .workDone)
        [numberTable "id" [1] .notFinished, numberTable "id" [1, 2, 3] .workDone] =
          some inTable ∧
      mergeIn [{ lv := ⟨[.column], ["id"]⟩, operator := .notIn, rv := ⟨[.column], ["key"]⟩ }]
        (numberTable "key" [2, 2] .workDone)
        [numberTable "id" [1] .notFinished, numberTable "id" [1, 2, 3] .workDone] =
          some notInTable ∧
      let inRows := (List.range 3).filter (occurs (numberTable "id" [1, 2, 3] .workDone).tableData
        (numberTable "key" [2, 2] .workDone).tableData "id" "key" 2)
      let notInRows := (List.range 3).filter
        (!occurs (numberTable "id" [1, 2, 3] .workDone).tableData
          (numberTable "key" [2, 2] .workDone).tableData "id" "key" 2 ·)
      HoldsSelection (numberTable "id" [1, 2, 3] .workDone).tableData inRows inTable ∧
      HoldsSelection (numberTable "id" [1, 2, 3] .workDone).tableData notInRows notInTable ∧
      (inRows ++ notInRows).Perm (List.range 3) :=
  @mergeIn_splits _ _ 3 2 (numberTable_wellFormed "key" [2, 2] .workDone)
    { lv := ⟨[.column], ["id"]⟩, operator := .in, rv := ⟨[.column], ["key"]⟩ } [] "id" "key" rfl rfl
    ⟨mem_numberTable.mpr rfl, mem_numberTable.mpr rfl, by rw [get_numberTable, get_numberTable],
      by rw [get_numberTable]; exact .inl rfl⟩ _
    (numberTable_snapshots "id" [1] [2, 3]) .in (by decide)

end KetiEngine.Merging
