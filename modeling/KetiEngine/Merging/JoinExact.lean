import KetiEngine.Merging.InnerJoin

/-!
# JoinExact — the inner hash join is exact

What `target_table_` holds after any number of rows of the right table, for
every way the right table is delivered, and that this is the join of the
query at the end.
-/

namespace KetiEngine.Merging

open KetiEngine Loops

/-! ## What the target table holds -/

/-- The target table after the pairs `pairs`. Before a first table with rows
has been delivered the columns of the right table are not there. -/
structure JoinState (left right : ColMap) (first : Bool) (pairs : List (Nat × Nat))
    (target : TableData) : Prop where
  count : target.rowCount = pairs.length
  leftCells : CopiesOf left (pairs.map Prod.fst) target.tableData
  rightCells : CopiesOf right (pairs.map Prod.snd) target.tableData
  leftTyped : Typed left target.tableData
  rightTyped : first = false → Typed right target.tableData
  names : ∀ name, name ∈ target.tableData ↔ name ∈ left ∨ (first = false ∧ name ∈ right)

section
variable {left : TableData} {right part : ColMap} {filtering : List Filter}
  {pairs : List (Nat × Nat)} {target : TableData} {n m l r : Nat}

/-- A row of each of two tables, copied one after the other. -/
theorem copyRows_spec {part₁ whole₁ part₂ whole₂ : ColMap} {i j : Nat}
    (h₁ : SameRow part₁ whole₁ i) (h₂ : SameRow part₂ whole₂ j)
    (hdisjoint : ∀ name ∈ whole₁, name ∉ whole₂) (td : ColMap) :
    ∃ td₁ td₂, copyRow part₁ i td = some td₁ ∧ copyRow part₂ j td₁ = some td₂ ∧
      (∀ name, name ∈ td₂ ↔ name ∈ whole₂ ∨ name ∈ whole₁ ∨ name ∈ td) ∧
      (∀ name, name ∈ whole₁ ∨ name ∈ whole₂ → (td₂.get name).type = (td.get name).type) ∧
      (∀ rows, CopiesOf whole₁ rows td → CopiesOf whole₁ (rows ++ [i]) td₂) ∧
      ∀ rows, CopiesOf whole₂ rows td → CopiesOf whole₂ (rows ++ [j]) td₂ := by
  obtain ⟨td₁, hrun₁, hnames₁, hother₁, htypes₁, hcopies₁⟩ := copyRow_copies h₁ td
  obtain ⟨td₂, hrun₂, hnames₂, hother₂, htypes₂, hcopies₂⟩ := copyRow_copies h₂ td₁
  have hkeep₁ : ∀ name ∈ whole₂, td₁.get name = td.get name :=
    fun name hname => hother₁ name fun hfirst => hdisjoint name hfirst hname
  have hkeep₂ : ∀ name ∈ whole₁, td₂.get name = td₁.get name :=
    fun name hname => hother₂ name (hdisjoint name hname)
  refine ⟨td₁, td₂, hrun₁, hrun₂, fun name => by rw [hnames₂, hnames₁], ?_, ?_, ?_⟩
  · rintro name (hname | hname)
    · rw [hkeep₂ name hname, htypes₁ name hname]
    · rw [htypes₂ name hname, hkeep₁ name hname]
  · exact fun rows hrows => (hcopies₁ rows hrows).congr hkeep₂
  · exact fun rows hrows => hcopies₂ rows (hrows.congr hkeep₁)

/-- One more row of both tables makes one more pair. -/
theorem JoinState.append (h : JoinState left.tableData right false pairs target) {td : ColMap}
    (hnames : ∀ name, name ∈ td ↔
      name ∈ left.tableData ∨ name ∈ right ∨ name ∈ target.tableData)
    (htypes : ∀ name, name ∈ left.tableData ∨ name ∈ right →
      (td.get name).type = (target.tableData.get name).type)
    (hleft : CopiesOf left.tableData (pairs.map Prod.fst ++ [l]) td)
    (hright : CopiesOf right (pairs.map Prod.snd ++ [r]) td) :
    JoinState left.tableData right false (pairs ++ [(l, r)])
      { target with tableData := td, rowCount := target.rowCount + 1 } := by
  constructor
  case count => simp [h.count]
  case leftCells => simpa using hleft
  case rightCells => simpa using hright
  case leftTyped =>
    intro name hname
    rw [htypes name (.inl hname)]
    exact h.leftTyped name hname
  case rightTyped =>
    intro _ name hname
    rw [htypes name (.inr hname)]
    exact h.rightTyped rfl name hname
  case names =>
    intro name
    rw [hnames, h.names]
    tauto

theorem joinRow_spec (hleft : left.WellFormed n) (hpart : PartOf part right m)
    (hdisjoint : ∀ name ∈ left.tableData, name ∉ right) (hl : l < n) (hr : r < m)
    (h : JoinState left.tableData right false pairs target) :
    ∃ target', joinRow left.tableData part l r target = some target' ∧
      JoinState left.tableData right false (pairs ++ [(l, r)]) target' := by
  obtain ⟨td₁, td₂, hrun₁, hrun₂, hnames, htypes, hcopies₁, hcopies₂⟩ :=
    copyRows_spec (hpart.sameRow hr) ((PartOf.self hleft).sameRow hl)
      (fun name hname hl => hdisjoint name hl hname) target.tableData
  refine ⟨{ target with tableData := td₂, rowCount := target.rowCount + 1 }, ?_, ?_⟩
  · rw [joinRow, hrun₁]
    simp only [Option.bind_eq_bind, Option.bind_some, hrun₂]
    rfl
  · exact h.append hnames (fun name hname => htypes name hname.symm)
      (hcopies₂ _ h.leftCells) (hcopies₁ _ h.rightCells)

/-- The hash table of the left table, as the probing rows see it. -/
structure HashOf (filtering : List Filter) (left : TableData) (right : ColMap) (n : Nat)
    (hash : HashTable) : Prop where
  bucket : ∀ {part m r}, PartOf part right m → r < m →
    ∃ key, innerJoinProbeKey part ((equalityColumns filtering).map Prod.snd) r = some key ∧
      hash.bucket key = (List.range n).filter fun l =>
        filtering.all fun f => f.operator ≠ .eq || satisfies left.tableData part l r f

theorem createHashTable_hashOf (hleft : left.WellFormed n)
    (hfilters : ∀ f ∈ filtering, JoinFilter left.tableData right f) :
    ∃ hash, createHashTable left ((equalityColumns filtering).map Prod.fst) ∅ = some hash ∧
      HashOf filtering left right n hash := by
  have hbuilt : ∀ name ∈ (equalityColumns filtering).map Prod.fst,
      name ∈ left.tableData := by
    intro name hname
    obtain ⟨p, hp, rfl⟩ := List.mem_map.mp hname
    obtain ⟨f, -, -, -, -, hmem, -⟩ := mem_equalityColumns hfilters hp
    exact hmem
  have hvalue : ∀ {i}, i < n → ∀ name ∈ (equalityColumns filtering).map Prod.fst,
      ∃ v, (left.tableData.get name).value? i = some v := fun hi name hname =>
    ColData.value?_isSome (hleft.column name (hbuilt name hname)) hi
  let keys : Nat → String := fun i =>
    (buildKey left.tableData ((equalityColumns filtering).map Prod.fst) i).getD ""
  have hkeys : ∀ i < n,
      buildKey left.tableData ((equalityColumns filtering).map Prod.fst) i = some (keys i) := by
    intro i hi
    obtain ⟨key, hkey, -⟩ := hashKey_spec true
      (fun name hname => hleft.stored name (hbuilt name hname)) (hvalue hi)
    simp [keys, buildKey, hkey]
  obtain ⟨hash, hhash, hbucket⟩ := createHashTable_spec hleft.count hkeys
  refine ⟨hash, hhash, ⟨fun {part m r} hpart hr => ?_⟩⟩
  have hparts : ∀ f ∈ filtering, JoinFilter left.tableData part f :=
    fun f hf => (hfilters f hf).part hpart
  have hprobed : ∀ name ∈ (equalityColumns filtering).map Prod.snd, name ∈ part := by
    intro name hname
    obtain ⟨p, hp, rfl⟩ := List.mem_map.mp hname
    obtain ⟨f, -, -, -, -, -, hmem, -⟩ := mem_equalityColumns hparts hp
    exact hmem
  have hvalue' : ∀ name ∈ (equalityColumns filtering).map Prod.snd,
      ∃ v, (part.get name).value? r = some v := fun name hname =>
    ColData.value?_isSome (hpart.length name (hprobed name hname)) hr
  obtain ⟨key, hkey, -⟩ := hashKey_spec false
    (fun name hname => hpart.stored name (hprobed name hname)) hvalue'
  refine ⟨key, hkey, (hbucket key).trans (List.filter_congr fun l hl => ?_)⟩
  have hl := List.mem_range.mp hl
  -- the keys are equal when the rows agree in the equality columns
  obtain ⟨key₁, key₂, hkey₁, hkey₂, heq⟩ := keys_eq_iff true false
    (fun name hname => hleft.stored name (hbuilt name hname)) (hvalue hl)
    (fun name hname => hpart.stored name (hprobed name hname)) hvalue'
  obtain rfl : keys l = key₁ := Option.some.inj ((hkeys l hl).symm.trans hkey₁)
  obtain rfl : key = key₂ := Option.some.inj (hkey.symm.trans hkey₂)
  rw [filter_keyed_true, filter_keyed_false, cutTexts_eq_iff, equalOn_iff hleft.column
    hpart.length hl hr hparts] at heq
  · rw [Bool.eq_iff_iff, decide_eq_true_eq, heq, List.all_eq_true]
    refine forall_congr' fun f => forall_congr' fun _ => ?_
    by_cases hop : f.operator = .eq <;> simp [hop]
  · intro p hp
    obtain ⟨f, -, -, -, -, -, -, htype, hkind, -⟩ := mem_equalityColumns hparts hp
    exact ⟨htype, hkind⟩
  · intro p hp
    obtain ⟨f, -, -, -, -, -, -, htype, hkind, hbar, hbar'⟩ := mem_equalityColumns hparts hp
    obtain ⟨v, hv⟩ := hvalue hl p.1 (List.mem_map_of_mem hp)
    obtain ⟨w, hw⟩ := hvalue' p.2 (List.mem_map_of_mem hp)
    exact ⟨v, w, hv, hw, bar_notMem_text hv hkind hbar,
      bar_notMem_text hw (htype ▸ hkind) hbar'⟩

/-- The entries of the bucket that pass the residual filters are the pairs of
the row. -/
theorem bucket_pairs (hfilters : ∀ f ∈ filtering, JoinFilter left.tableData right f)
    (hpart : PartOf part right m) (hr : r < m) :
    (((List.range n).filter fun l =>
      filtering.all fun f => f.operator ≠ .eq || satisfies left.tableData part l r f).filter
        fun l => filtering.all fun f =>
          !isResidual f.operator || satisfies left.tableData part l r f).map (·, r) =
      rowPairs filtering left.tableData right n r := by
  unfold rowPairs
  rw [List.filter_filter]
  refine congrArg (List.map (·, r)) (List.filter_congr fun l _ => ?_)
  rw [Bool.eq_iff_iff, Bool.and_eq_true, List.all_eq_true, List.all_eq_true, List.all_eq_true]
  have heach : ∀ f ∈ filtering,
      ((!isResidual f.operator || satisfies left.tableData part l r f) = true ∧
        (decide (f.operator ≠ .eq) || satisfies left.tableData part l r f) = true ↔
          satisfies left.tableData right l r f = true) := by
    intro f hf
    rw [satisfies_part (hfilters f hf) hpart hr]
    rcases hfilters f hf with hand | ⟨a, b, -, -, -, -, -, ⟨hop, -⟩ | ⟨hres, -⟩⟩
    · simp [hand, isResidual, satisfies]
    · simp [hop, isResidual]
    · have hne : f.operator ≠ .eq := fun hop => by
        rw [hop] at hres
        cases hres
      simp [hres, hne]
  constructor
  · rintro ⟨hres, heq⟩ f hf
    exact (heach f hf).mp ⟨hres f hf, heq f hf⟩
  · intro h
    exact ⟨fun f hf => ((heach f hf).mpr (h f hf)).1, fun f hf => ((heach f hf).mpr (h f hf)).2⟩

/-- **One row of the right table** adds the pairs it is in. -/
theorem probeRow_spec (hleft : left.WellFormed n) (hpart : PartOf part right m)
    (hdisjoint : ∀ name ∈ left.tableData, name ∉ right)
    (hfilters : ∀ f ∈ filtering, JoinFilter left.tableData right f) {hash : HashTable}
    (hhash : HashOf filtering left right n hash) (hr : r < m)
    (h : JoinState left.tableData right false pairs target) :
    ∃ target', probeRow filtering left.tableData part hash target r = some target' ∧
      JoinState left.tableData right false
        (pairs ++ rowPairs filtering left.tableData right n r) target' := by
  have hparts : ∀ f ∈ filtering, JoinFilter left.tableData part f :=
    fun f hf => (hfilters f hf).part hpart
  obtain ⟨key, hkey, hbucket⟩ := hhash.bucket hpart hr
  let passed : Nat → Bool := fun l => filtering.all fun f =>
    !isResidual f.operator || satisfies left.tableData part l r f
  have hround : ∀ done l rest t, hash.bucket key = done ++ l :: rest →
      JoinState left.tableData right false (pairs ++ (done.filter passed).map (·, r)) t →
      ∃ t', (do
        let ok ← residualPassed left.tableData part l r filtering
        if ok then joinRow left.tableData part l r t else pure t) = some t' ∧
        JoinState left.tableData right false
          (pairs ++ ((done ++ [l]).filter passed).map (·, r)) t' := by
    intro done l rest t hsplit ht
    have hl : l < n := by
      have hmem : l ∈ hash.bucket key := by simp [hsplit]
      rw [hbucket, List.mem_filter, List.mem_range] at hmem
      exact hmem.1
    rw [residualPassed_spec hleft.column hpart.length hl hr hparts, List.filter_append,
      List.map_append, ← List.append_assoc]
    cases hp : passed l with
    | true =>
      obtain ⟨t', hrun, ht'⟩ := joinRow_spec hleft hpart hdisjoint hl hr ht
      exact ⟨t', by simpa [passed, hp] using hrun, by simpa [hp] using ht'⟩
    | false => exact ⟨t, by simp [passed, hp], by simpa [hp] using ht⟩
  obtain ⟨target', hrun, htarget⟩ := foldlM_total (by simpa using h) hround
  refine ⟨target', ?_, ?_⟩
  · rw [probeRow, (equalJoinColumns_spec hparts).2]
    simp only [Option.bind_eq_bind, Option.bind_some, hkey]
    exact hrun
  · rw [hbucket, bucket_pairs hfilters hpart hr] at htarget
    exact htarget

/-- The columns of the right table are set up by the first part with rows. -/
theorem setTypes_joinState (hpart : PartOf part right m)
    (hdisjoint : ∀ name ∈ left.tableData, name ∉ right) {first : Bool}
    (h : JoinState left.tableData right first pairs target) :
    JoinState left.tableData right false pairs
      (if first then { target with tableData := setTypes part target.tableData }
      else target) := by
  cases first with
  | false => exact h
  | true =>
    obtain ⟨hnames, hother, hget⟩ := setTypes_of_sameTypes hpart.names
      (fun name hp => (hpart.grown name hp).type) target.tableData
    have hkeep : ∀ name ∈ left.tableData,
        (setTypes part target.tableData).get name = target.tableData.get name :=
      fun name hname => hother name (hdisjoint name hname)
    constructor
    case count => exact h.count
    case leftCells => exact h.leftCells.congr hkeep
    case rightCells =>
      intro name hname
      simp only [if_true, hget name hname]
      exact (h.rightCells name hname).retype _
    case leftTyped =>
      intro name hname
      simp only [if_true, hkeep name hname]
      exact h.leftTyped name hname
    case rightTyped =>
      intro _ name hname
      simp only [if_true, hget name hname]
    case names =>
      intro name
      simp only [if_true, hnames, h.names]
      tauto

/-- **A delivered part** adds the pairs of its new rows. -/
theorem joinDelivered_spec (hleft : left.WellFormed n) {table : TableData}
    (hpart : PartOf table.tableData right m) (hcount : table.rowCount = m)
    (hdisjoint : ∀ name ∈ left.tableData, name ∉ right)
    (hfilters : ∀ f ∈ filtering, JoinFilter left.tableData right f) {hash : HashTable}
    (hhash : HashOf filtering left right n hash) (heq : ∃ f ∈ filtering, f.operator = .eq)
    {k : Nat} (hk : k ≤ m) {first : Bool}
    (h : JoinState left.tableData right first
      (joinPairs filtering left.tableData right n k) target) :
    ∃ target', joinDelivered filtering left hash ((equalityColumns filtering).map Prod.fst) k
        first table target = some target' ∧
      JoinState left.tableData right false
        (joinPairs filtering left.tableData right n m) target' := by
  have hcolumns : ((equalityColumns filtering).map Prod.fst).length ≠ 0 := by
    obtain ⟨f, hf, hop⟩ := heq
    have hmem : f ∈ filtering.filter (·.operator = .eq) :=
      List.mem_filter.mpr ⟨hf, by simp [hop]⟩
    simpa [equalityColumns] using List.ne_nil_of_mem hmem
  have hround : ∀ done r rest t, rowsFrom k m = done ++ r :: rest →
      JoinState left.tableData right false (joinPairs filtering left.tableData right n k ++
        done.flatMap (rowPairs filtering left.tableData right n)) t →
      ∃ t', probeRow filtering left.tableData table.tableData hash t r = some t' ∧
        JoinState left.tableData right false (joinPairs filtering left.tableData right n k ++
          (done ++ [r]).flatMap (rowPairs filtering left.tableData right n)) t' := by
    intro done r rest t hsplit ht
    have hr : r < m := lt_of_mem_rowsFrom hk (by simp [hsplit])
    obtain ⟨t', hrun, ht'⟩ := probeRow_spec hleft hpart hdisjoint hfilters hhash hr ht
    exact ⟨t', hrun, by simpa using ht'⟩
  obtain ⟨target', hrun, htarget⟩ := foldlM_total
    (by simpa using setTypes_joinState hpart hdisjoint h) hround
  refine ⟨target', ?_, ?_⟩
  · simp only [joinDelivered, if_pos hcolumns, hcount]
    exact hrun
  · rw [joinPairs, ← range_append_rowsFrom hk, List.flatMap_append]
    exact htarget

end

/-- The loop of `InnerJoin_hash` is the loop over a delivered table. -/
theorem innerJoinLoop_eq (filtering : List Filter) (left : TableData) (hash : HashTable)
    (equalJoinColumn : List String) (rowIndex : Int) (first : Bool) (target : TableData)
    (delivered : List TableData) :
    innerJoinLoop filtering left hash equalJoinColumn rowIndex first target delivered =
      deliveredLoop (joinDelivered filtering left hash equalJoinColumn) rowIndex first target
        delivered := by
  induction delivered generalizing rowIndex first target with
  | nil => rfl
  | cons t delivered ih =>
    rw [innerJoinLoop, deliveredLoop]
    simp only [ih]

/-- The columns of the left table are set up before the loop. -/
theorem joinState_init {left : TableData} {right : ColMap}
    (hdisjoint : ∀ name ∈ left.tableData, name ∉ right) :
    JoinState left.tableData right true [] { tableData := setTypes left.tableData ∅ } := by
  obtain ⟨htypeNames, htypeOther, htypeGet⟩ := setTypes_spec left.tableData ∅
  constructor
  case count => rfl
  case leftCells =>
    intro name hname
    rw [htypeGet name hname]
    exact holdsCells_nil _ _
  case rightCells =>
    intro name hname
    rw [htypeOther name fun hl => hdisjoint name hl hname]
    exact holdsCells_nil _ _
  case leftTyped =>
    intro name hname
    rw [htypeGet name hname]
  case rightTyped => exact nofun
  case names =>
    intro name
    simp [htypeNames]

/-- The run of `InnerJoin_hash`: its table holds the pairs of the join. -/
theorem innerJoinHash_state {left final : TableData} {filtering : List Filter} {n m : Nat}
    (hleft : left.WellFormed n) (hdisjoint : ∀ name ∈ left.tableData, name ∉ final.tableData)
    (hfilters : ∀ f ∈ filtering, JoinFilter left.tableData final.tableData f)
    (heq : ∃ f ∈ filtering, f.operator = .eq) {delivered : List TableData}
    (hsnapshots : Snapshots delivered final m) :
    ∃ target first, innerJoinHash filtering left delivered = some target ∧
      (first = true → m = 0) ∧ JoinState left.tableData final.tableData first
        (joinPairs filtering left.tableData final.tableData n m) target := by
  obtain ⟨hash, hhash, hhashOf⟩ := createHashTable_hashOf hleft hfilters
  obtain ⟨target, first, hrun, hfirst, hstate⟩ := deliveredLoop_spec
    (P := fun k first target => JoinState left.tableData final.tableData first
      (joinPairs filtering left.tableData final.tableData n k) target)
    (fun t k k' first target hpart hcount hk _ h => joinDelivered_spec hleft hpart hcount hdisjoint
      hfilters hhashOf heq (Nat.le_of_lt hk) h)
    hsnapshots hsnapshots.nonneg (fun _ => rfl) (joinState_init hdisjoint)
  refine ⟨target, first, ?_, hfirst, hstate⟩
  rw [innerJoinHash, (equalJoinColumns_spec hfilters).1]
  simp only [Option.bind_eq_bind, Option.bind_some, hhash, innerJoinLoop_eq]
  exact hrun

/-- What a target table reads as at the end. -/
theorem JoinState.cells {left right : ColMap} {first : Bool} {pairs : List (Nat × Nat)}
    {target : TableData} {n m : Nat} (h : JoinState left right first pairs target)
    (hleft : ∀ name ∈ left, (left.get name).HasLength n)
    (hright : ∀ name ∈ right, (right.get name).HasLength m)
    (hpairs : ∀ p ∈ pairs, p.1 < n ∧ p.2 < m) (hfirst : first = true → m = 0) :
    (∀ name ∈ target.tableData, (name ∈ left ∨ name ∈ right) ∧
      (target.tableData.get name).HasLength pairs.length) ∧
    ∀ k l r, pairs[k]? = some (l, r) →
      (∀ name ∈ left, name ∈ target.tableData ∧
        (target.tableData.get name).type = (left.get name).type ∧
        (target.tableData.get name).cell? k = (left.get name).cell? l) ∧
      (∀ name ∈ right, name ∈ target.tableData ∧
        (target.tableData.get name).type = (right.get name).type ∧
        (target.tableData.get name).cell? k = (right.get name).cell? r) := by
  have hleftRows : ∀ i ∈ pairs.map Prod.fst, i < n := by
    intro i hi
    obtain ⟨p, hp, rfl⟩ := List.mem_map.mp hi
    exact (hpairs p hp).1
  have hrightRows : ∀ i ∈ pairs.map Prod.snd, i < m := by
    intro i hi
    obtain ⟨p, hp, rfl⟩ := List.mem_map.mp hi
    exact (hpairs p hp).2
  refine ⟨fun name hname => ?_, fun k l r hk => ⟨?_, ?_⟩⟩
  · rcases (h.names name).mp hname with hl | ⟨hopen, hr⟩
    · have hlen := (h.leftCells.cell? h.leftTyped hl (hleft name hl) hleftRows).1
      exact ⟨.inl hl, by simpa using hlen⟩
    · have hlen := (h.rightCells.cell? (h.rightTyped hopen) hr (hright name hr) hrightRows).1
      exact ⟨.inr hr, by simpa using hlen⟩
  · intro name hname
    refine ⟨(h.names name).mpr (.inl hname), h.leftTyped name hname, ?_⟩
    rw [(h.leftCells.cell? h.leftTyped hname (hleft name hname) hleftRows).2,
      List.getElem?_map, hk]
    rfl
  · intro name hname
    have hopen : first = false := by
      have hpos := (hpairs _ (List.mem_of_getElem? hk)).2
      cases first with
      | false => rfl
      | true =>
        have := hfirst rfl
        omega
    refine ⟨(h.names name).mpr (.inr ⟨hopen, hname⟩), h.rightTyped hopen name hname, ?_⟩
    rw [(h.rightCells.cell? (h.rightTyped hopen) hname (hright name hname) hrightRows).2,
      List.getElem?_map, hk]
    rfl

/-- **The inner hash join is exact**: however the right table is delivered,
`target_table_` ends with one row for each pair of rows that satisfies all
filters, in the order of the right and then of the left rows, and with no
other row. -/
theorem innerJoinHash_exact {left final : TableData} {filtering : List Filter} {n m : Nat}
    (hleft : left.WellFormed n) (hdisjoint : ∀ name ∈ left.tableData, name ∉ final.tableData)
    (hfilters : ∀ f ∈ filtering, JoinFilter left.tableData final.tableData f)
    (heq : ∃ f ∈ filtering, f.operator = .eq) {delivered : List TableData}
    (hsnapshots : Snapshots delivered final m) :
    ∃ target, innerJoinHash filtering left delivered = some target ∧
      let pairs := joinPairs filtering left.tableData final.tableData n m
      target.rowCount = pairs.length ∧
      (∀ name ∈ target.tableData, (name ∈ left.tableData ∨ name ∈ final.tableData) ∧
        (target.tableData.get name).HasLength pairs.length) ∧
      ∀ k l r, pairs[k]? = some (l, r) →
        (∀ name ∈ left.tableData, name ∈ target.tableData ∧
          (target.tableData.get name).type = (left.tableData.get name).type ∧
          (target.tableData.get name).cell? k = (left.tableData.get name).cell? l) ∧
        (∀ name ∈ final.tableData, name ∈ target.tableData ∧
          (target.tableData.get name).type = (final.tableData.get name).type ∧
          (target.tableData.get name).cell? k = (final.tableData.get name).cell? r) := by
  obtain ⟨target, first, hrun, hfirst, hstate⟩ :=
    innerJoinHash_state hleft hdisjoint hfilters heq hsnapshots
  have hpairs : ∀ p ∈ joinPairs filtering left.tableData final.tableData n m,
      p.1 < n ∧ p.2 < m := fun p hp =>
    ⟨(mem_joinPairs.mp hp).1, (mem_joinPairs.mp hp).2.1⟩
  exact ⟨target, hrun, hstate.count,
    hstate.cells hleft.column hsnapshots.wellFormed.column hpairs hfirst⟩

/-- A comparison of two columns of numbers. -/
theorem numberTable_joinFilter {name name' : String} (ns ms : List Int)
    (status status' : WorkStatus) {oper : OperType} (hoper : oper = .eq ∨ isResidual oper = true) :
    JoinFilter (numberTable name ns status).tableData (numberTable name' ms status').tableData
      { lv := ⟨[.column], [name]⟩, operator := oper, rv := ⟨[.column], [name']⟩ } := by
  refine .inr ⟨name, name', rfl, rfl, mem_numberTable.mpr rfl, mem_numberTable.mpr rfl, ?_⟩
  rw [get_numberTable, get_numberTable]
  exact ⟨rfl, hoper.imp (fun h => ⟨h, .inl rfl, by simp, by simp⟩) fun h => ⟨h, .inl rfl⟩⟩

theorem numberTable_disjoint {name name' : String} (h : name ≠ name') (ns ms : List Int)
    (status status' : WorkStatus) :
    ∀ n ∈ (numberTable name ns status).tableData, n ∉ (numberTable name' ms status').tableData :=
  fun _ hn hn' => h ((mem_numberTable.mp hn).symm.trans (mem_numberTable.mp hn'))

/-- `id = key AND id >= key`. -/
def numberFilters : List Filter :=
  [{ lv := ⟨[.column], ["id"]⟩, operator := .eq, rv := ⟨[.column], ["key"]⟩ },
    { operator := .and },
    { lv := ⟨[.column], ["id"]⟩, operator := .ge, rv := ⟨[.column], ["key"]⟩ }]

/-- Two left rows, and three right rows delivered in two parts. -/
theorem innerJoinHash_two_parts :
    ∃ target, innerJoinHash numberFilters (numberTable "id" [1, 2] .workDone)
        [numberTable "key" [2] .notFinished, numberTable "key" [2, 7, 1] .workDone] =
          some target ∧
      let pairs := joinPairs numberFilters (numberTable "id" [1, 2] .workDone).tableData
        (numberTable "key" [2, 7, 1] .workDone).tableData 2 3
      target.rowCount = pairs.length ∧
      (∀ name ∈ target.tableData, (name ∈ (numberTable "id" [1, 2] .workDone).tableData ∨
          name ∈ (numberTable "key" [2, 7, 1] .workDone).tableData) ∧
        (target.tableData.get name).HasLength pairs.length) ∧
      ∀ k l r, pairs[k]? = some (l, r) →
        (∀ name ∈ (numberTable "id" [1, 2] .workDone).tableData, name ∈ target.tableData ∧
          (target.tableData.get name).type =
            ((numberTable "id" [1, 2] .workDone).tableData.get name).type ∧
          (target.tableData.get name).cell? k =
            ((numberTable "id" [1, 2] .workDone).tableData.get name).cell? l) ∧
        (∀ name ∈ (numberTable "key" [2, 7, 1] .workDone).tableData, name ∈ target.tableData ∧
          (target.tableData.get name).type =
            ((numberTable "key" [2, 7, 1] .workDone).tableData.get name).type ∧
          (target.tableData.get name).cell? k =
            ((numberTable "key" [2, 7, 1] .workDone).tableData.get name).cell? r) := by
  refine innerJoinHash_exact (numberTable_wellFormed "id" [1, 2] .workDone)
    (numberTable_disjoint (by decide) _ _ _ _) (fun f hf => ?_) ⟨_, List.mem_cons_self, rfl⟩
    (numberTable_snapshots "key" [2] [7, 1])
  simp only [List.mem_cons, List.not_mem_nil, or_false] at hf
  rcases hf with rfl | rfl | rfl
  · exact numberTable_joinFilter _ _ _ _ (.inl rfl)
  · exact .inl rfl
  · exact numberTable_joinFilter _ _ _ _ (.inr rfl)

end KetiEngine.Merging
