import KetiEngine.Merging.JoinExact
import KetiEngine.Merging.OuterJoin

/-!
# OuterExact — what the outer hash joins emit

The left outer join of a query is a list of left rows with a matching right
row or with none. `LeftOuterJoin_hash` emits these rows with the right values,
however the left table is delivered. The null flags of its right columns are
those of other rows, and `RightOuterJoin_hash` leaves the defined behaviour at
its first row.
-/

namespace KetiEngine.Merging

open KetiEngine Loops

/-! ## The outer join of a query -/

/-- The rows of an outer join for row `l` of the table kept whole. -/
def outerRow (matching : List Nat) (l : Nat) : List (Nat × Option Nat) :=
  match matching with
  | [] => [(l, none)]
  | matching => matching.map fun r => (l, some r)

/-- The rows of an outer join that keeps the first `n` rows. -/
def outerRows (matching : Nat → List Nat) (n : Nat) : List (Nat × Option Nat) :=
  (List.range n).flatMap fun l => outerRow (matching l) l

/-- The right rows that satisfy every filter with row `l` of the left table. -/
def leftMatches (filtering : List Filter) (left right : ColMap) (m l : Nat) : List Nat :=
  (List.range m).filter fun r => filtering.all (satisfies left right l r)

/-- The left rows that satisfy every filter with row `r` of the right table. -/
def rightMatches (filtering : List Filter) (left right : ColMap) (n r : Nat) : List Nat :=
  (List.range n).filter fun l => filtering.all (satisfies left right l r)

/-- `target` holds these rows of an outer join and nothing else: the cells of
the row kept, and the values of its match or null-flagged defaults. -/
structure HoldsOuterRows (kept other : ColMap) (rows : List (Nat × Option Nat))
    (target : TableData) : Prop where
  count : target.rowCount = rows.length
  columns : ∀ name ∈ target.tableData, (name ∈ kept ∨ name ∈ other) ∧
    (target.tableData.get name).HasLength rows.length
  keptCells : ∀ k l o, rows[k]? = some (l, o) → ∀ name ∈ kept, name ∈ target.tableData ∧
    (target.tableData.get name).type = (kept.get name).type ∧
    (target.tableData.get name).cell? k = (kept.get name).cell? l
  matchedValues : ∀ k l r, rows[k]? = some (l, some r) → ∀ name ∈ other,
    name ∈ target.tableData ∧ (target.tableData.get name).type = (other.get name).type ∧
    (target.tableData.get name).value? k = (other.get name).value? r
  paddedCells : ∀ k l, rows[k]? = some (l, none) → ∀ name ∈ other,
    name ∈ target.tableData ∧ (target.tableData.get name).type = (other.get name).type ∧
    (target.tableData.get name).cell? k = some ⟨defaultValue (other.get name).type, true⟩

/-- The null flags of matched rows are those of the two source rows. -/
def FlagsTravel (left right : ColMap) (rows : List (Nat × Option Nat)) (target : TableData) :
    Prop :=
  ∀ k l r : Nat, rows[k]? = some (l, some r) →
    (∀ name ∈ left, (target.tableData.get name).isnull[k]? = (left.get name).isnull[l]?) ∧
    ∀ name ∈ right, (target.tableData.get name).isnull[k]? = (right.get name).isnull[r]?

/-- A filter of an outer join: an AND marker or an EQ over two INT columns or
two STRING columns without `|`. -/
def OuterFilter (left right : ColMap) (f : Filter) : Prop :=
  JoinFilter left right f ∧ (f.operator = .and ∨ f.operator = .eq)

/-! ## Rows with their places in the bucket -/

/-- The rows `LeftOuterJoin_hash` emits for row `l`. -/
def emittedRow (bucket : List Nat) (l : Nat) : List (Nat × Option Match) :=
  match bucket with
  | [] => [(l, none)]
  | bucket => bucket.zipIdx.map fun p => (l, some p)

def emittedRows (matching : Nat → List Nat) (n : Nat) : List (Nat × Option Match) :=
  (List.range n).flatMap fun l => emittedRow (matching l) l

theorem emittedRow_of_ne_nil {bucket : List Nat} (h : bucket ≠ []) (l : Nat) :
    emittedRow bucket l = bucket.zipIdx.map fun p => (l, some p) := by
  cases bucket with
  | nil => exact absurd rfl h
  | cons r bucket => rfl

theorem emittedRow_map (bucket : List Nat) (l : Nat) :
    (emittedRow bucket l).map (fun p => (p.1, p.2.map Prod.fst)) = outerRow bucket l := by
  cases bucket with
  | nil => rfl
  | cons r bucket =>
    have hrows : ((r :: bucket).zipIdx.map Prod.fst) = r :: bucket := List.zipIdx_map_fst 0 _
    simp only [emittedRow, outerRow, List.map_map]
    conv_rhs => rw [← hrows, List.map_map]
    rfl

theorem emittedRows_map (matching : Nat → List Nat) (n : Nat) :
    (emittedRows matching n).map (fun p => (p.1, p.2.map Prod.fst)) = outerRows matching n := by
  simp only [emittedRows, outerRows, List.map_flatMap, emittedRow_map]

theorem mem_emittedRows {matching : Nat → List Nat} {n l : Nat} {o : Option Match}
    (h : (l, o) ∈ emittedRows matching n) :
    l < n ∧ ∀ p, o = some p → (matching l)[p.2]? = some p.1 := by
  obtain ⟨l', hl', hmem⟩ := List.mem_flatMap.mp h
  rw [List.mem_range] at hl'
  by_cases hnone : matching l' = []
  · rw [hnone] at hmem
    obtain ⟨rfl, rfl⟩ := Prod.mk.inj (List.mem_singleton.mp hmem)
    exact ⟨hl', nofun⟩
  · rw [emittedRow_of_ne_nil hnone] at hmem
    obtain ⟨p, hp, heq⟩ := List.mem_map.mp hmem
    obtain ⟨rfl, rfl⟩ := Prod.mk.inj heq
    refine ⟨hl', fun q hq => ?_⟩
    obtain rfl := Option.some.inj hq
    exact List.mem_zipIdx_iff_getElem?.mp hp

/-- Every match of a row is emitted. -/
theorem emitted_of_match {matching : Nat → List Nat} {n l i r : Nat} (hl : l < n)
    (hi : (matching l)[i]? = some r) : (l, some (r, i)) ∈ emittedRows matching n := by
  refine List.mem_flatMap.mpr ⟨l, List.mem_range.mpr hl, ?_⟩
  have hsome : matching l ≠ [] := fun hnil => by simp [hnil] at hi
  rw [emittedRow_of_ne_nil hsome]
  exact List.mem_map.mpr ⟨(r, i), List.mem_zipIdx_iff_getElem?.mpr hi, rfl⟩

theorem emitted_of_outerRows {matching : Nat → List Nat} {n k l : Nat} {o : Option Nat}
    (h : (outerRows matching n)[k]? = some (l, o)) :
    ∃ o', (emittedRows matching n)[k]? = some (l, o') ∧ o = o'.map Prod.fst := by
  rw [← emittedRows_map, List.getElem?_map, Option.map_eq_some_iff] at h
  obtain ⟨p, hp, heq⟩ := h
  obtain ⟨rfl, rfl⟩ := Prod.mk.inj heq
  exact ⟨p.2, hp, rfl⟩

/-! ## The hash table of an outer join -/

/-- A key is in the table when its bucket has a row. -/
theorem mem_createHashTable {t : TableData} {columns : List String} {hash : HashTable}
    (h : createHashTable t columns ∅ = some hash) (key : String) :
    key ∈ hash ↔ hash.bucket key ≠ [] := by
  unfold createHashTable at h
  refine foldlM_induction
    (P := fun _ hash => ∀ key, key ∈ hash ↔ HashTable.bucket hash key ≠ []) ?_ ?_ h key
  · intro key
    simp [HashTable.bucket]
  · intro done i rest hash hash' _ hinv hrun key
    obtain ⟨key', -, hrun⟩ := Option.bind_eq_some_iff.mp hrun
    obtain rfl := Option.some.inj hrun
    rw [AList.mem_insert, HashTable.bucket_insert]
    by_cases hk : key' = key
    · simp [hk]
    · simp [hk, Ne.symm hk, hinv key]

/-- A hash table in which the rows of the streamed table, in whatever part
they are delivered, find their matches. -/
structure Finds (hash : HashTable) (streamed : ColMap) (columns : List String) (m : Nat)
    (matching : Nat → List Nat) : Prop where
  names : ∀ name ∈ columns, name ∈ streamed
  bound : ∀ r, (matching r).Sublist (List.range m)
  bucket : ∀ {part k r}, PartOf part streamed k → r < k →
    ∃ key, leftOuterJoinProbeKey part columns r = some key ∧ hash.bucket key = matching r
  filled : ∀ key, key ∈ hash ↔ hash.bucket key ≠ []

/-- Reading columns that are there changes nothing. -/
theorem touchColumns_of_mem {t : ColMap} {names : List String} (h : ∀ name ∈ names, name ∈ t) :
    touchColumns t names = t := by
  induction names with
  | nil => rfl
  | cons name names ih =>
    have hmem : ColMap.insertNew t name {} = t := if_pos (h name (by simp))
    rw [touchColumns, List.foldl_cons, hmem]
    exact ih fun other hother => h other (by simp [hother])

section
variable {streamed part hashed : ColMap} {filtering : List Filter} {columns : List String}
  {probe : Filter → FilterValue} {matching : Nat → List Nat} {hash : HashTable}
  {rows : List (Nat × Option Match)} {target : TableData} {k m r : Nat}

/-- **One streamed row** adds a row for each of its matches, or a padded one. -/
theorem outerJoinRow_spec (hpart : PartOf part streamed k) (hr : r < k)
    (hhashed : ∀ name ∈ hashed, (hashed.get name).HasLength m ∧ (hashed.get name).Stored)
    (hdisjoint : ∀ name ∈ streamed, name ∉ hashed)
    (hcolumns : equalJoinColumns probe filtering = some columns)
    (hfinds : Finds hash streamed columns m matching)
    (h : OuterState streamed hashed false rows target) :
    ∃ target', outerJoinRow probe filtering hash hashed part target r = some target' ∧
      OuterState streamed hashed false (rows ++ emittedRow (matching r) r) target' := by
  obtain ⟨key, hkey, hbucket⟩ := hfinds.bucket hpart hr
  have htouch : touchColumns part columns = part :=
    touchColumns_of_mem fun name hname => (hpart.names name).mpr (hfinds.names name hname)
  simp only [outerJoinRow, hcolumns, Option.bind_eq_bind, Option.bind_some, htouch, hkey]
  by_cases hnone : matching r = []
  · have habsent : ¬ key ∈ hash := by simp [hfinds.filled, hbucket, hnone]
    rw [if_neg habsent, hnone]
    exact unmatchedRow_spec hpart hr hhashed hdisjoint h
  · have hpresent : key ∈ hash := by rwa [hfinds.filled, hbucket]
    rw [if_pos hpresent, hbucket, emittedRow_of_ne_nil hnone]
    refine matchedRows_spec hpart hr hhashed hdisjoint (fun p hp => ?_) h
    have hget := List.mem_zipIdx_iff_getElem?.mp hp
    have hmem := (hfinds.bound r).subset (List.mem_of_getElem? hget)
    have hlength := (hfinds.bound r).length_le
    have hlt := (List.getElem?_eq_some_iff.mp hget).1
    rw [List.length_range] at hlength
    exact ⟨List.mem_range.mp hmem, by omega⟩

/-- The columns of the streamed table are set up by the first part with rows. -/
theorem setTypes_outerState (hpart : PartOf part streamed k)
    (hdisjoint : ∀ name ∈ streamed, name ∉ hashed) {first : Bool}
    (h : OuterState streamed hashed first rows target) :
    OuterState streamed hashed false rows
      (if first then { target with tableData := setTypes part target.tableData }
      else target) := by
  cases first with
  | false => exact h
  | true =>
    obtain ⟨hnames, hother, hget⟩ := setTypes_of_sameTypes hpart.names
      (fun name hp => (hpart.grown name hp).type) target.tableData
    have hkeep : ∀ name ∈ hashed,
        (setTypes part target.tableData).get name = target.tableData.get name :=
      fun name hname => hother name fun hstreamed => hdisjoint name hstreamed hname
    constructor
    case count => exact h.count
    case streamedCells =>
      intro name hname
      simp only [if_true, hget name hname]
      exact (h.streamedCells name hname).retype _
    case hashedCells =>
      intro name hname
      simp only [if_true, hkeep name hname]
      exact h.hashedCells name hname
    case streamedTyped =>
      intro _ name hname
      simp only [if_true, hget name hname]
    case hashedTyped =>
      intro name hname
      simp only [if_true, hkeep name hname]
      exact h.hashedTyped name hname
    case names =>
      intro name
      simp only [if_true, hnames, h.names]
      tauto

/-- **A delivered part** adds what its new rows emit. -/
theorem outerJoinDelivered_spec {table : TableData} {k' : Nat}
    (hpart : PartOf table.tableData streamed k') (hcount : table.rowCount = k') (hk : k ≤ k')
    (hhashed : ∀ name ∈ hashed, (hashed.get name).HasLength m ∧ (hashed.get name).Stored)
    (hdisjoint : ∀ name ∈ streamed, name ∉ hashed)
    (hcolumns : equalJoinColumns probe filtering = some columns)
    (hfinds : Finds hash streamed columns m matching) {first : Bool}
    (h : OuterState streamed hashed first (emittedRows matching k) target) :
    ∃ target', outerJoinDelivered probe filtering hash hashed k first table target =
        some target' ∧
      OuterState streamed hashed false (emittedRows matching k') target' := by
  have hround : ∀ done r rest t, rowsFrom k k' = done ++ r :: rest →
      OuterState streamed hashed false
        (emittedRows matching k ++ done.flatMap fun l => emittedRow (matching l) l) t →
      ∃ t', outerJoinRow probe filtering hash hashed table.tableData t r = some t' ∧
        OuterState streamed hashed false (emittedRows matching k ++
          (done ++ [r]).flatMap fun l => emittedRow (matching l) l) t' := by
    intro done r rest t hsplit ht
    have hr : r < k' := lt_of_mem_rowsFrom hk (by simp [hsplit])
    obtain ⟨t', hrun, ht'⟩ :=
      outerJoinRow_spec hpart hr hhashed hdisjoint hcolumns hfinds ht
    exact ⟨t', hrun, by simpa using ht'⟩
  obtain ⟨target', hrun, htarget⟩ := foldlM_total
    (by simpa using setTypes_outerState hpart hdisjoint h) hround
  refine ⟨target', ?_, ?_⟩
  · simp only [outerJoinDelivered, hcount]
    exact hrun
  · rw [emittedRows, ← range_append_rowsFrom hk, List.flatMap_append]
    exact htarget

/-- Every emitted row has a cell in every column of the hashed table. -/
theorem outerCell_emitted {c : ColData} (hc : c.HasLength m)
    (hbound : ∀ r, (matching r).Sublist (List.range m)) {n : Nat} {p : Nat × Option Match}
    (hp : p ∈ emittedRows matching n) : ∃ x, outerCell c p.2 = some x := by
  obtain ⟨l, o⟩ := p
  cases o with
  | none => exact ⟨_, rfl⟩
  | some q =>
    have hq := (mem_emittedRows hp).2 q rfl
    have hlt := (List.getElem?_eq_some_iff.mp hq).1
    have hle := (hbound l).length_le
    have hmem := (hbound l).subset (List.mem_of_getElem? hq)
    rw [List.length_range] at hle
    exact outerCell_isSome hc (List.mem_range.mp hmem) (by omega)

theorem OuterState.hashed_cell? {n : Nat} {first : Bool}
    (hhashed : ∀ name ∈ hashed, (hashed.get name).HasLength m)
    (hbound : ∀ r, (matching r).Sublist (List.range m))
    (h : OuterState streamed hashed first (emittedRows matching n) target) {name : String}
    (hname : name ∈ hashed) :
    (target.tableData.get name).HasLength (emittedRows matching n).length ∧
      ∀ k, (target.tableData.get name).cell? k =
        (emittedRows matching n)[k]?.bind fun p => outerCell (hashed.get name) p.2 := by
  have hholds := h.hashedCells name hname
  have htyped := h.hashedTyped name hname
  have hcell : ∀ p ∈ emittedRows matching n, ∃ x, outerCell (hashed.get name) p.2 = some x :=
    fun p hp => outerCell_emitted (hhashed name hname) hbound hp
  constructor
  · have hlength := hholds.hasLength htyped
    rwa [List.filterMap_length_eq_length.mpr fun p hp =>
      Option.isSome_iff_exists.mpr (hcell p hp)] at hlength
  · intro k
    rw [hholds.cell? htyped, getElem?_filterMap hcell]

/-- **The outer state at the end** holds the rows of the join. -/
theorem OuterState.holdsOuterRows {n : Nat} {first : Bool}
    (hstreamed : ∀ name ∈ streamed, (streamed.get name).HasLength n)
    (hhashed : ∀ name ∈ hashed, (hashed.get name).HasLength m)
    (hbound : ∀ r, (matching r).Sublist (List.range m)) (hfirst : first = true → n = 0)
    (h : OuterState streamed hashed first (emittedRows matching n) target) :
    HoldsOuterRows streamed hashed (outerRows matching n) target := by
  have hlength : (outerRows matching n).length = (emittedRows matching n).length := by
    rw [← emittedRows_map, List.length_map]
  have hkept : ∀ i ∈ (emittedRows matching n).map Prod.fst, i < n := by
    intro i hi
    obtain ⟨p, hp, rfl⟩ := List.mem_map.mp hi
    exact (mem_emittedRows hp).1
  -- where a row was emitted, a part with rows has been delivered
  have hopen : ∀ {k : Nat} {p}, (emittedRows matching n)[k]? = some p → first = false := by
    intro k p hk
    have hl := (mem_emittedRows (List.mem_of_getElem? hk)).1
    cases first with
    | false => rfl
    | true =>
      have := hfirst rfl
      omega
  have hcells := fun (name : String) (hname : name ∈ hashed) =>
    (h.hashed_cell? hhashed hbound hname).2
  constructor
  case count => rw [h.count, hlength]
  case columns =>
    intro name hname
    rw [hlength]
    rcases (h.names name).mp hname with hh | ⟨hopen, hs⟩
    · exact ⟨.inr hh, (h.hashed_cell? hhashed hbound hh).1⟩
    · have hlen := (h.streamedCells.cell? (h.streamedTyped hopen) hs (hstreamed name hs) hkept).1
      exact ⟨.inl hs, by simpa using hlen⟩
  case keptCells =>
    intro k l o hk name hname
    obtain ⟨o', hk', -⟩ := emitted_of_outerRows hk
    have htyped := h.streamedTyped (hopen hk')
    refine ⟨(h.names name).mpr (.inr ⟨hopen hk', hname⟩), htyped name hname, ?_⟩
    rw [(h.streamedCells.cell? htyped hname (hstreamed name hname) hkept).2, List.getElem?_map,
      hk']
    rfl
  case matchedValues =>
    intro k l r hk name hname
    obtain ⟨o', hk', ho⟩ := emitted_of_outerRows hk
    refine ⟨(h.names name).mpr (.inl hname), h.hashedTyped name hname, ?_⟩
    obtain ⟨q, rfl, rfl⟩ := Option.map_eq_some_iff.mp ho.symm
    obtain ⟨x, hx⟩ := outerCell_emitted (hhashed name hname) hbound (List.mem_of_getElem? hk')
    have hread := hcells name hname k
    rw [hk', Option.bind_some, hx] at hread
    rw [ColData.value?_of_cell? hread, (outerCell_eq_some_iff.mp hx).1]
  case paddedCells =>
    intro k l hk name hname
    obtain ⟨o', hk', ho⟩ := emitted_of_outerRows hk
    refine ⟨(h.names name).mpr (.inl hname), h.hashedTyped name hname, ?_⟩
    obtain rfl := Option.map_eq_none_iff.mp ho.symm
    rw [hcells name hname k, hk']
    rfl

/-- The null flag of a matched row is the one at the match's place in its
bucket. -/
theorem OuterState.flag_at_place {n : Nat} {first : Bool}
    (hhashed : ∀ name ∈ hashed, (hashed.get name).HasLength m)
    (hbound : ∀ r, (matching r).Sublist (List.range m))
    (h : OuterState streamed hashed first (emittedRows matching n) target) {k l r i : Nat}
    (hk : (emittedRows matching n)[k]? = some (l, some (r, i))) {name : String}
    (hname : name ∈ hashed) :
    (target.tableData.get name).isnull[k]? = (hashed.get name).isnull[i]? := by
  obtain ⟨x, hx⟩ := outerCell_emitted (hhashed name hname) hbound (List.mem_of_getElem? hk)
  have hread := (h.hashed_cell? hhashed hbound hname).2 k
  rw [hk, Option.bind_some, hx] at hread
  rw [ColData.isnull_of_cell? hread, (outerCell_eq_some_iff.mp hx).2]

end

/-! ## The left outer join -/

/-- A filter with its operands exchanged: the hash table of the left outer
join is built on the right table. -/
def swapped (f : Filter) : Filter := { f with lv := f.rv, rv := f.lv }

theorem OuterFilter.swapped {left right : ColMap} {f : Filter} (h : OuterFilter left right f) :
    JoinFilter right left (swapped f) := by
  obtain ⟨hfilter, hop⟩ := h
  refine hfilter.imp id ?_
  rintro ⟨a, b, ha, hb, hleft, hright, htype, hcase⟩
  refine ⟨b, a, hb, ha, hright, hleft, htype.symm, ?_⟩
  rcases hcase with ⟨heq, hkind, hbar, hbar'⟩ | ⟨hres, -⟩
  · exact .inl ⟨heq, htype ▸ hkind, hbar', hbar⟩
  · rcases hop with hop | hop <;> rw [hop] at hres <;> cases hres

theorem equalityColumns_swapped (filtering : List Filter) :
    equalityColumns (filtering.map swapped) = (equalityColumns filtering).map Prod.swap := by
  unfold equalityColumns
  rw [List.filter_map, List.map_map, List.map_map]
  rfl

theorem valuesRelate_eq_comm (v w : Value) : valuesRelate .eq v w = valuesRelate .eq w v := by
  cases v <;> cases w <;> simp [valuesRelate, relates, relatesDouble, eq_comm, Double.beq_comm]

theorem satisfies_swapped {left right : ColMap} {f : Filter} (h : OuterFilter left right f)
    (l r : Nat) : satisfies right left r l (swapped f) = satisfies left right l r f := by
  rcases h.2 with hop | hop
  · simp [satisfies, swapped, hop]
  · unfold satisfies swapped
    cases f.lv.value[0]? with
    | none => cases f.rv.value[0]? <;> rfl
    | some a =>
      cases f.rv.value[0]? with
      | none => rfl
      | some b =>
        cases hv : (left.get a).value? l with
        | none => cases hw : (right.get b).value? r <;> simp [hv, hw]
        | some v =>
          cases hw : (right.get b).value? r with
          | none => simp [hv, hw]
          | some w => simp [hv, hw, hop, valuesRelate_eq_comm v w]

/-- The hash table on the right table finds the matches of a left row. -/
theorem leftOuter_finds {right : TableData} {left : ColMap} {filtering : List Filter} {m : Nat}
    (hright : right.WellFormed m)
    (hfilters : ∀ f ∈ filtering, OuterFilter left right.tableData f) :
    ∃ hash, createHashTable right ((equalityColumns filtering).map Prod.snd) ∅ = some hash ∧
      Finds hash left ((equalityColumns filtering).map Prod.fst) m
        (leftMatches filtering left right.tableData m) := by
  have hswapped : ∀ f ∈ filtering.map swapped, JoinFilter right.tableData left f := by
    intro f hf
    obtain ⟨g, hg, rfl⟩ := List.mem_map.mp hf
    exact (hfilters g hg).swapped
  have hfst : (equalityColumns (filtering.map swapped)).map Prod.fst =
      (equalityColumns filtering).map Prod.snd := by
    rw [equalityColumns_swapped, List.map_map]
    rfl
  have hsnd : (equalityColumns (filtering.map swapped)).map Prod.snd =
      (equalityColumns filtering).map Prod.fst := by
    rw [equalityColumns_swapped, List.map_map]
    rfl
  obtain ⟨hash, hhash, hhashOf⟩ := createHashTable_hashOf hright hswapped
  rw [hfst] at hhash
  refine ⟨hash, hhash, ⟨?_, fun l => List.filter_sublist, fun {part k l} hpart hl => ?_,
    mem_createHashTable hhash⟩⟩
  · intro name hname
    obtain ⟨p, hp, rfl⟩ := List.mem_map.mp hname
    obtain ⟨f, -, -, -, -, hmem, -⟩ := mem_equalityColumns (fun f hf => (hfilters f hf).1) hp
    exact hmem
  · obtain ⟨key, hkey, hbucket⟩ := hhashOf.bucket hpart hl
    rw [hsnd] at hkey
    refine ⟨key, hkey, hbucket.trans (List.filter_congr fun r _ => ?_)⟩
    rw [List.all_map, Bool.eq_iff_iff, List.all_eq_true, List.all_eq_true]
    refine forall_congr' fun f => forall_congr' fun hf => ?_
    rw [Function.comp_apply, satisfies_part (hfilters f hf).swapped hpart hl,
      satisfies_swapped (hfilters f hf)]
    rcases (hfilters f hf).2 with hop | hop
    · simp [swapped, satisfies, hop]
    · simp [swapped, hop]

/-- No rows yet, and the types of the hashed columns. -/
theorem outerState_init {streamed hashed : ColMap} {matching : Nat → List Nat}
    (hdisjoint : ∀ name ∈ streamed, name ∉ hashed) :
    OuterState streamed hashed true (emittedRows matching 0)
      { tableData := setTypes hashed ∅ } := by
  obtain ⟨hnames, hother, hget⟩ := setTypes_spec hashed ∅
  constructor
  case count => rfl
  case streamedCells =>
    intro name hname
    rw [hother name (hdisjoint name hname)]
    exact holdsCells_nil _ _
  case hashedCells =>
    intro name hname
    rw [hget name hname]
    exact holdsCells_nil _ _
  case streamedTyped => exact nofun
  case hashedTyped =>
    intro name hname
    rw [hget name hname]
  case names =>
    intro name
    simp [hnames]

/-- The run of `LeftOuterJoin_hash`, and its table: the rows of the left outer
join, and under each null flag that of the bucket's place. -/
theorem leftOuterJoinHash_spec {right final : TableData} {filtering : List Filter} {n m : Nat}
    (hright : right.WellFormed m) (hdisjoint : ∀ name ∈ final.tableData, name ∉ right.tableData)
    (hfilters : ∀ f ∈ filtering, OuterFilter final.tableData right.tableData f)
    {delivered : List TableData} (hsnapshots : Snapshots delivered final n) :
    ∃ target, leftOuterJoinHash filtering right delivered = some target ∧
      HoldsOuterRows final.tableData right.tableData
        (outerRows (leftMatches filtering final.tableData right.tableData m) n) target ∧
      ∀ k l r i : Nat,
        (emittedRows (leftMatches filtering final.tableData right.tableData m) n)[k]? =
          some (l, some (r, i)) →
        ∀ name ∈ right.tableData,
          (target.tableData.get name).isnull[k]? = (right.tableData.get name).isnull[i]? := by
  have hhashed : ∀ name ∈ right.tableData,
      (right.tableData.get name).HasLength m ∧ (right.tableData.get name).Stored :=
    fun name hname => ⟨hright.column name hname, hright.stored name hname⟩
  obtain ⟨hash, hhash, hfinds⟩ := leftOuter_finds hright hfilters
  have hcolumns := equalJoinColumns_spec fun f hf => (hfilters f hf).1
  obtain ⟨target, first, hrun, hfirst, hstate⟩ := deliveredLoop_spec
    (P := fun k first target => OuterState final.tableData right.tableData first
      (emittedRows (leftMatches filtering final.tableData right.tableData m) k) target)
    (fun t k k' first target hpart hcount hk _ h => outerJoinDelivered_spec hpart hcount
      (Nat.le_of_lt hk) hhashed hdisjoint hcolumns.1 hfinds h)
    hsnapshots hsnapshots.nonneg (fun _ => rfl) (outerState_init hdisjoint)
  refine ⟨target, ?_, hstate.holdsOuterRows hsnapshots.wellFormed.column hright.column
    hfinds.bound hfirst, fun k l r i hk name hname =>
      hstate.flag_at_place hright.column hfinds.bound hk hname⟩
  rw [leftOuterJoinHash, outerJoinHash, hcolumns.2]
  simp only [Option.bind_eq_bind, Option.bind_some, hhash]
  exact hrun

/-- **The left outer join emits the right rows and values**, however the left
table is delivered: for each left row in order one row for each right row that
satisfies all filters, in their order, or one padded row. -/
theorem leftOuterJoinHash_rows {right final : TableData} {filtering : List Filter} {n m : Nat}
    (hright : right.WellFormed m) (hdisjoint : ∀ name ∈ final.tableData, name ∉ right.tableData)
    (hfilters : ∀ f ∈ filtering, OuterFilter final.tableData right.tableData f)
    {delivered : List TableData} (hsnapshots : Snapshots delivered final n) :
    ∃ target, leftOuterJoinHash filtering right delivered = some target ∧
      HoldsOuterRows final.tableData right.tableData
        (outerRows (leftMatches filtering final.tableData right.tableData m) n) target := by
  obtain ⟨target, hrun, hrows, -⟩ :=
    leftOuterJoinHash_spec hright hdisjoint hfilters hsnapshots
  exact ⟨target, hrun, hrows⟩

/-- `id = key AND`. -/
def numberJoin : List Filter :=
  [{ lv := ⟨[.column], ["id"]⟩, operator := .eq, rv := ⟨[.column], ["key"]⟩ },
    { operator := .and }]

theorem numberJoin_outerFilters (ns ms : List Int) (status status' : WorkStatus) :
    ∀ f ∈ numberJoin, OuterFilter (numberTable "id" ns status).tableData
      (numberTable "key" ms status').tableData f := by
  intro f hf
  simp only [numberJoin, List.mem_cons, List.not_mem_nil, or_false] at hf
  rcases hf with rfl | rfl
  · exact ⟨numberTable_joinFilter ns ms status status' (.inl rfl), .inr rfl⟩
  · exact ⟨.inl rfl, .inl rfl⟩

/-- Three left rows delivered in two parts: `2` has two matches, `7` has none. -/
theorem leftOuterJoinHash_two_parts :
    ∃ target, leftOuterJoinHash numberJoin (numberTable "key" [2, 1, 2] .workDone)
        [numberTable "id" [2] .notFinished, numberTable "id" [2, 7, 1] .workDone] =
          some target ∧
      HoldsOuterRows (numberTable "id" [2, 7, 1] .workDone).tableData
        (numberTable "key" [2, 1, 2] .workDone).tableData
        (outerRows (leftMatches numberJoin (numberTable "id" [2, 7, 1] .workDone).tableData
          (numberTable "key" [2, 1, 2] .workDone).tableData 3) 3) target :=
  leftOuterJoinHash_rows (numberTable_wellFormed "key" [2, 1, 2] .workDone)
    (numberTable_disjoint (by decide) _ _ _ _) (numberJoin_outerFilters _ _ _ _)
    (numberTable_snapshots "id" [2] [7, 1])

/-! ## The null flags -/

/-- The rows of the inner join as rows of an outer one. -/
def innerRows (pairs : List (Nat × Nat)) : List (Nat × Option Nat) :=
  pairs.map fun p => (p.1, some p.2)

theorem JoinState.flagsTravel {left right : ColMap} {first : Bool} {pairs : List (Nat × Nat)}
    {target : TableData} {n m : Nat} (h : JoinState left right first pairs target)
    (hleft : ∀ name ∈ left, (left.get name).HasLength n)
    (hright : ∀ name ∈ right, (right.get name).HasLength m)
    (hpairs : ∀ p ∈ pairs, p.1 < n ∧ p.2 < m) (hfirst : first = true → m = 0) :
    FlagsTravel left right (innerRows pairs) target := by
  intro k l r hk
  obtain ⟨p, hp, heq⟩ : ∃ p, pairs[k]? = some p ∧ (p.1, some p.2) = (l, some r) := by
    simpa [innerRows] using hk
  obtain ⟨rfl, hr⟩ := Prod.mk.inj heq
  obtain rfl := Option.some.inj hr
  obtain ⟨hleftCells, hrightCells⟩ :=
    (h.cells hleft hright hpairs hfirst).2 k p.1 p.2 hp
  obtain ⟨hl, hr⟩ := hpairs p (List.mem_of_getElem? hp)
  exact ⟨fun name hname => ColData.isnull_eq_of_cell?_eq (hleft name hname) hl
      (hleftCells name hname).2.2,
    fun name hname => ColData.isnull_eq_of_cell?_eq (hright name hname) hr
      (hrightCells name hname).2.2⟩

/-- Where the flag of a match's place is the flag of the match. -/
def FlagsAtPlaces (right : ColMap) (matching : Nat → List Nat) (n : Nat) : Prop :=
  ∀ l < n, ∀ i r : Nat, (matching l)[i]? = some r →
    ∀ name ∈ right, (right.get name).isnull[i]? = (right.get name).isnull[r]?

theorem flagsTravel_outer_iff {left right : ColMap} {matching : Nat → List Nat} {n : Nat}
    {target : TableData} (hleft : ∀ name ∈ left, (left.get name).HasLength n)
    (hrows : HoldsOuterRows left right (outerRows matching n) target)
    (hplaces : ∀ k l r i : Nat, (emittedRows matching n)[k]? = some (l, some (r, i)) →
      ∀ name ∈ right, (target.tableData.get name).isnull[k]? = (right.get name).isnull[i]?) :
    FlagsTravel left right (outerRows matching n) target ↔ FlagsAtPlaces right matching n := by
  constructor
  · intro h l hl i r hi name hname
    obtain ⟨k, hk⟩ := List.mem_iff_getElem?.mp (emitted_of_match hl hi)
    have hrow : (outerRows matching n)[k]? = some (l, some r) := by
      rw [← emittedRows_map, List.getElem?_map, hk]
      rfl
    rw [← hplaces k l r i hk name hname, (h k l r hrow).2 name hname]
  · intro h k l r hk
    obtain ⟨o, hemitted, ho⟩ := emitted_of_outerRows hk
    obtain ⟨⟨r', i⟩, rfl, rfl⟩ := Option.map_eq_some_iff.mp ho.symm
    obtain ⟨hl, hmatch⟩ := mem_emittedRows (List.mem_of_getElem? hemitted)
    refine ⟨fun name hname => ?_, fun name hname => ?_⟩
    · exact ColData.isnull_eq_of_cell?_eq (hleft name hname) hl
        (hrows.keptCells k l _ hk name hname).2.2
    · rw [hplaces k l r' i hemitted name hname, h l hl i r' (hmatch _ rfl) name hname]

/-- **Null flags travel through both hash joins** exactly where, in every
column of the right table, the row at the place of a match among the matches
of its left row has the null flag of that match. The inner join alone keeps
them always. -/
theorem nullFlags_travel_iff {left right : TableData} {filtering : List Filter} {n m : Nat}
    (hdisjoint : ∀ name ∈ left.tableData, name ∉ right.tableData)
    (hfilters : ∀ f ∈ filtering, OuterFilter left.tableData right.tableData f)
    (heq : ∃ f ∈ filtering, f.operator = .eq) {deliveredLeft deliveredRight : List TableData}
    (hleft : Snapshots deliveredLeft left n) (hright : Snapshots deliveredRight right m) :
    ∃ inner outer, innerJoinHash filtering left deliveredRight = some inner ∧
      leftOuterJoinHash filtering right deliveredLeft = some outer ∧
      ((FlagsTravel left.tableData right.tableData
          (innerRows (joinPairs filtering left.tableData right.tableData n m)) inner ∧
        FlagsTravel left.tableData right.tableData
          (outerRows (leftMatches filtering left.tableData right.tableData m) n) outer) ↔
        FlagsAtPlaces right.tableData
          (leftMatches filtering left.tableData right.tableData m) n) := by
  obtain ⟨inner, first, hinner, hfirst, hstate⟩ := innerJoinHash_state hleft.wellFormed hdisjoint
    (fun f hf => (hfilters f hf).1) heq hright
  obtain ⟨outer, houter, hrows, hplaces⟩ :=
    leftOuterJoinHash_spec hright.wellFormed hdisjoint hfilters hleft
  refine ⟨inner, outer, hinner, houter, ?_⟩
  rw [flagsTravel_outer_iff hleft.wellFormed.column hrows hplaces]
  refine and_iff_right (hstate.flagsTravel hleft.wellFormed.column hright.wellFormed.column
    (fun p hp => ?_) hfirst)
  exact ⟨(mem_joinPairs.mp hp).1, (mem_joinPairs.mp hp).2.1⟩

/-- One left row with two matches. -/
theorem nullFlags_travel_numbers :
    ∃ inner outer, innerJoinHash numberJoin (numberTable "id" [2, 7, 1] .workDone)
        [numberTable "key" [2] .notFinished, numberTable "key" [2, 1, 2] .workDone] =
          some inner ∧
      leftOuterJoinHash numberJoin (numberTable "key" [2, 1, 2] .workDone)
        [numberTable "id" [2] .notFinished, numberTable "id" [2, 7, 1] .workDone] =
          some outer ∧
      ((FlagsTravel (numberTable "id" [2, 7, 1] .workDone).tableData
          (numberTable "key" [2, 1, 2] .workDone).tableData
          (innerRows (joinPairs numberJoin (numberTable "id" [2, 7, 1] .workDone).tableData
            (numberTable "key" [2, 1, 2] .workDone).tableData 3 3)) inner ∧
        FlagsTravel (numberTable "id" [2, 7, 1] .workDone).tableData
          (numberTable "key" [2, 1, 2] .workDone).tableData
          (outerRows (leftMatches numberJoin (numberTable "id" [2, 7, 1] .workDone).tableData
            (numberTable "key" [2, 1, 2] .workDone).tableData 3) 3) outer) ↔
        FlagsAtPlaces (numberTable "key" [2, 1, 2] .workDone).tableData
          (leftMatches numberJoin (numberTable "id" [2, 7, 1] .workDone).tableData
            (numberTable "key" [2, 1, 2] .workDone).tableData 3) 3) :=
  nullFlags_travel_iff (numberTable_disjoint (by decide) _ _ _ _)
    (numberJoin_outerFilters _ _ _ _) ⟨_, List.mem_cons_self, rfl⟩
    (numberTable_snapshots "id" [2] [7, 1]) (numberTable_snapshots "key" [2] [1, 2])

/-- A finished table with one INT column and the null flags given. -/
def flaggedTable (name : String) (cells : List (Int × Bool)) : TableData where
  tableData := AList.singleton name
    { type := .int, intvec := cells.map Prod.fst, isnull := cells.map Prod.snd,
      rowCount := cells.length }
  rowCount := cells.length
  status := .workDone

theorem flaggedTable_wellFormed (name : String) (cells : List (Int × Bool)) :
    (flaggedTable name cells).WellFormed cells.length := by
  have hcolumn : ∀ other ∈ (flaggedTable name cells).tableData,
      (flaggedTable name cells).tableData.get other =
        { type := .int, intvec := cells.map Prod.fst, isnull := cells.map Prod.snd,
          rowCount := cells.length } := by
    intro other hother
    rw [flaggedTable, ← AList.insert_empty, AList.mem_insert] at hother
    obtain rfl : other = name := by simpa using hother
    rw [flaggedTable, ← AList.insert_empty, ColMap.get_insert]
  constructor
  case count => rfl
  case column =>
    intro other hother
    rw [hcolumn other hother]
    exact ⟨by simp [ColData.vecLength], by simp, rfl⟩
  case stored =>
    intro other hother
    rw [hcolumn other hother]
    exact .inr (.inl rfl)

/-- The right rows are a null `2` and a `1`. The left row `1` matches the
second, alone, and its output row is null like the first. -/
theorem leftOuterJoinHash_wrong_flag :
    (flaggedTable "key" [(2, true), (1, false)]).WellFormed 2 ∧
    ∃ target, leftOuterJoinHash numberJoin (flaggedTable "key" [(2, true), (1, false)])
        [numberTable "id" [1] .workDone] = some target ∧
      ¬ FlagsTravel (numberTable "id" [1] .workDone).tableData
        (flaggedTable "key" [(2, true), (1, false)]).tableData
        (outerRows (leftMatches numberJoin (numberTable "id" [1] .workDone).tableData
          (flaggedTable "key" [(2, true), (1, false)]).tableData 2) 1) target := by
  refine ⟨flaggedTable_wellFormed "key" [(2, true), (1, false)], _, rfl, fun h => ?_⟩
  exact absurd ((h 0 0 1 (by decide)).2 "key" (by decide)) (by decide)

/-! ## The right outer join -/

theorem mem_touchColumns {t : ColMap} {names : List String} {name : String} (h : name ∈ names) :
    name ∈ touchColumns t names := by
  have hkeep : ∀ (names : List String) (t : ColMap), name ∈ t → name ∈ touchColumns t names := by
    intro names
    induction names with
    | nil => exact fun _ ht => ht
    | cons other names ih => exact fun t ht => ih _ (ColMap.mem_insertNew.mpr (.inr ht))
  induction names generalizing t with
  | nil => cases h
  | cons other names ih =>
    rcases List.mem_cons.mp h with rfl | h
    · exact hkeep names _ (ColMap.mem_insertNew.mpr (.inl rfl))
    · exact ih h

theorem get_touchColumns (t : ColMap) (names : List String) (name : String) :
    (touchColumns t names).get name = t.get name := by
  induction names generalizing t with
  | nil => rfl
  | cons other names ih => exact (ih _).trans (ColMap.get_insertNew_default t other name)

/-- A row is not copied where a column of the key is missing: it has come into
being when the key was read, and it has no rows. -/
theorem outerJoinRow_eq_none {probe : Filter → FilterValue} {filtering : List Filter}
    {columns : List String} (hcolumns : equalJoinColumns probe filtering = some columns)
    {name : String} (hname : name ∈ columns) {hashed streamed : ColMap}
    (hmissing : name ∉ streamed) {hash : HashTable}
    (hfilled : ∀ key, key ∈ hash ↔ hash.bucket key ≠ []) (target : TableData) (r : Nat) :
    outerJoinRow probe filtering hash hashed streamed target r = none := by
  have hcopy : ∀ td, copyRow (touchColumns streamed columns) r td = none := fun td => by
    refine copyRow_eq_none (mem_touchColumns hname) ?_ td
    rw [get_touchColumns, ColMap.get_of_notMem hmissing]
    rfl
  simp only [outerJoinRow, hcolumns, Option.bind_eq_bind, Option.bind_some]
  cases leftOuterJoinProbeKey (touchColumns streamed columns) columns r with
  | none => rfl
  | some key =>
    simp only [Option.bind_some]
    by_cases hkey : key ∈ hash
    · rw [if_pos hkey]
      obtain ⟨i, rows, hbucket⟩ := List.exists_cons_of_ne_nil ((hfilled key).mp hkey)
      rw [hbucket]
      simp [matchedRows, List.zipIdx_cons, hcopy]
    · rw [if_neg hkey]
      simp [unmatchedRow, hcopy]

/-- `RightOuterJoin_hash` looks the rows of the right table up by columns of
the left one. At the first row it reads a null list that is empty. -/
theorem rightOuterJoinHash_eq_none {left final : TableData} {filtering : List Filter} {m : Nat}
    (hpos : 0 < m) (hdisjoint : ∀ name ∈ left.tableData, name ∉ final.tableData)
    (hfilters : ∀ f ∈ filtering, OuterFilter left.tableData final.tableData f)
    (heq : ∃ f ∈ filtering, f.operator = .eq) {delivered : List TableData}
    (hsnapshots : Snapshots delivered final m) :
    rightOuterJoinHash filtering left delivered = none := by
  have hcolumns := (equalJoinColumns_spec fun f hf => (hfilters f hf).1).1
  obtain ⟨f, hf, hop⟩ := heq
  have hp : (f.lv.value[0]?.getD "", f.rv.value[0]?.getD "") ∈ equalityColumns filtering :=
    List.mem_map.mpr ⟨f, List.mem_filter.mpr ⟨hf, by simp [hop]⟩, rfl⟩
  obtain ⟨-, -, -, -, -, hmem, -⟩ := mem_equalityColumns (fun f hf => (hfilters f hf).1) hp
  simp only [rightOuterJoinHash, outerJoinHash, hcolumns, Option.bind_eq_bind, Option.bind_some]
  cases hhash : createHashTable left ((equalityColumns filtering).map Prod.fst) ∅ with
  | none => rfl
  | some hash =>
    refine deliveredLoop_eq_none hpos (fun t k s hpart hcount hk => ?_) hsnapshots _
    refine foldlM_eq_none (a := 0) ?_ (fun s => ?_) _
    · rw [hcount]
      have hrows := rowsFrom_natCast (Nat.zero_le k)
      rw [Nat.cast_zero] at hrows
      rw [hrows, List.mem_range'_1]
      omega
    · exact outerJoinRow_eq_none hcolumns (List.mem_map_of_mem hp)
        (fun h => hdisjoint _ hmem ((hpart.names _).mp h)) (mem_createHashTable hhash) s 0

/-- **The right outer join emits the right rows of no join.** -/
theorem rightOuterJoinHash_never {left final : TableData} {filtering : List Filter} {n m : Nat}
    (hpos : 0 < m) (hdisjoint : ∀ name ∈ left.tableData, name ∉ final.tableData)
    (hfilters : ∀ f ∈ filtering, OuterFilter left.tableData final.tableData f)
    (heq : ∃ f ∈ filtering, f.operator = .eq) {delivered : List TableData}
    (hsnapshots : Snapshots delivered final m) :
    ¬ ∃ target, rightOuterJoinHash filtering left delivered = some target ∧
      HoldsOuterRows final.tableData left.tableData
        (outerRows (rightMatches filtering left.tableData final.tableData n) m) target := by
  rintro ⟨target, hrun, -⟩
  rw [rightOuterJoinHash_eq_none hpos hdisjoint hfilters heq hsnapshots] at hrun
  cases hrun

theorem rightOuterJoinHash_never_numbers :
    ¬ ∃ target, rightOuterJoinHash numberJoin (numberTable "id" [2, 7, 1] .workDone)
        [numberTable "key" [2] .notFinished, numberTable "key" [2, 1, 2] .workDone] =
          some target ∧
      HoldsOuterRows (numberTable "key" [2, 1, 2] .workDone).tableData
        (numberTable "id" [2, 7, 1] .workDone).tableData
        (outerRows (rightMatches numberJoin (numberTable "id" [2, 7, 1] .workDone).tableData
          (numberTable "key" [2, 1, 2] .workDone).tableData 3) 3) target :=
  rightOuterJoinHash_never (by decide) (numberTable_disjoint (by decide) _ _ _ _)
    (numberJoin_outerFilters _ _ _ _) ⟨_, List.mem_cons_self, rfl⟩
    (numberTable_snapshots "key" [2] [1, 2])

/-- The left row `1` and the right row `1`. -/
theorem rightOuterJoinHash_one_row :
    rightMatches numberJoin (numberTable "id" [1] .workDone).tableData
      (numberTable "key" [1] .workDone).tableData 1 0 = [0] ∧
    rightOuterJoinHash numberJoin (numberTable "id" [1] .workDone)
      [numberTable "key" [1] .workDone] = none := by
  decide

end KetiEngine.Merging
