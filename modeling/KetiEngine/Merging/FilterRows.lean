import KetiEngine.Merging.Filtering
import KetiEngine.Merging.Selection

/-!
# FilterRows — a filter is a conjunction

`Filtering` on a table with rows: comparisons with literals joined by AND. The
comparison of a STRING cell trims it in the table that is filtered, so the
rows kept are those of a trimmed table; an INT cell is compared as an `int`.
-/

namespace KetiEngine.Merging

open KetiEngine Loops

/-! ## The filter of a query -/

/-- The literal that a column of this type is compared with. -/
def literalOf (type : VectorType) (f : Filter) : Option Value :=
  match type with
  | .string => f.rv.value[0]?.map .string
  | .int => (f.rv.value[0]? >>= stoi).map .int
  | .empty | .float | .boolean | .date => none

/-- Row `r` satisfies the comparison of a column with a literal; `cut` is
applied to the cell, which is compared without its padding. -/
def relatesLiteral (cut : Value → Value) (t : ColMap) (r : Nat) (f : Filter) : Bool :=
  match f.lv.value[0]? with
  | some column =>
      match ((t.get column).value? r).map trimValue, literalOf (t.get column).type f with
      | some v, some w => valuesRelate f.operator (cut v) w
      | _, _ => false
  | none => false

/-- Row `r` satisfies every comparison. -/
def rowSatisfies (filters : List Filter) (t : ColMap) (r : Nat) : Bool :=
  (conjuncts filters).all (relatesLiteral id t r)

/-- Row `r` satisfies every comparison of the values cut to 32 bits. -/
def rowSatisfiesNarrow (filters : List Filter) (t : ColMap) (r : Nat) : Bool :=
  (conjuncts filters).all (relatesLiteral narrow t r)

/-- A comparison of a STRING or INT column with a literal of that type. -/
structure ComparesLiteral (t : ColMap) (f : Filter) (column : String) (w : Value) : Prop where
  operator : isComparison f.operator = true
  lv : f.lv.value[0]? = some column
  member : column ∈ t
  kind : (t.get column).type = .string ∨ (t.get column).type = .int
  literal : literalOf (t.get column).type f = some w

/-- The list is `c1 AND c2 AND ... AND ck`. -/
def ConjunctionOf (t : ColMap) : List Filter → Prop
  | [] => False
  | [c] => ∃ column w, ComparesLiteral t c column w
  | c :: a :: rest => (∃ column w, ComparesLiteral t c column w) ∧ a.operator = .and ∧
      ConjunctionOf t rest

def comparedColumns (filters : List Filter) : List String :=
  (conjuncts filters).filterMap fun c => c.lv.value[0]?

theorem ConjunctionOf.compares {t : ColMap} {filters : List Filter} (h : ConjunctionOf t filters)
    {c : Filter} (hc : c ∈ conjuncts filters) : ∃ column w, ComparesLiteral t c column w := by
  induction filters using conjuncts.induct with
  | case1 => exact h.elim
  | case2 d =>
    obtain rfl := List.mem_singleton.mp hc
    exact h
  | case3 d a rest ih =>
    rcases List.mem_cons.mp hc with rfl | hc
    · exact h.1
    · exact ih h.2.2 hc

theorem ConjunctionOf.columns {t : ColMap} {filters : List Filter} (h : ConjunctionOf t filters) :
    ∀ name ∈ comparedColumns filters, name ∈ t := by
  intro name hname
  obtain ⟨c, hc, hcolumn⟩ := List.mem_filterMap.mp hname
  obtain ⟨column, w, hcompares⟩ := h.compares hc
  obtain rfl : column = name := Option.some.inj (hcompares.lv.symm.trans hcolumn)
  exact hcompares.member

/-! ## Trimming in place -/

/-- The table while it is filtered: some strings of these columns have been
trimmed. -/
structure Trimming (t cur : ColMap) (columns : List String) : Prop where
  names : ∀ name, name ∈ cur ↔ name ∈ t
  column : ∀ name, TrimOf (cur.get name) (t.get name)
  other : ∀ name, name ∉ columns → cur.get name = t.get name

theorem Trimming.refl (t : ColMap) (columns : List String) : Trimming t t columns :=
  ⟨fun _ => Iff.rfl, fun _ => .refl _, fun _ _ => rfl⟩

/-- Cell `r` of a column has been trimmed. -/
def TrimmedAt (t cur : ColMap) (r : Nat) (name : String) : Prop :=
  (cur.get name).value? r = ((t.get name).value? r).map trimValue

section
variable {t cur : ColMap} {columns : List String} {n r : Nat}

/-- **One comparison** trims its cell and compares it cut to 32 bits. -/
theorem passesFilter_spec (hlength : ∀ name ∈ t, (t.get name).HasLength n) (hr : r < n)
    (h : Trimming t cur columns) {f : Filter} {column : String} {w : Value}
    (hf : ComparesLiteral t f column w) (hcolumn : column ∈ columns) (passed : Bool) :
    ∃ cur', passesFilter (cur.insertNew column {}) r column f passed =
        some (cur', relatesLiteral narrow t r f) ∧
      Trimming t cur' columns ∧
      ∀ name, name = column ∨ TrimmedAt t cur r name → TrimmedAt t cur' r name := by
  have hnew : cur.insertNew column {} = cur := if_pos ((h.names column).mpr hf.member)
  have htrim := h.column column
  obtain ⟨v, hv⟩ := ColData.value?_isSome (hlength column hf.member) hr
  have hliteral := hf.literal
  have hsatisfies : relatesLiteral narrow t r f =
      valuesRelate f.operator (narrow (trimValue v)) w := by
    simp [relatesLiteral, hf.lv, hv, hliteral]
  rw [hnew, hsatisfies]
  unfold passesFilter
  unfold ColData.value? at hv
  rcases hf.kind with ht | ht <;>
    simp only [htrim.type, ht, literalOf, Option.map_eq_some_iff] at hv hliteral ⊢
  · obtain ⟨str, hstr, rfl⟩ := hv
    obtain ⟨literal, hrv, rfl⟩ := hliteral
    -- the cell may have been trimmed by a comparison before
    obtain ⟨s, hs, hstrip⟩ := htrim.getElem? hstr
    refine ⟨cur.insert column
      { cur.get column with strvec := (cur.get column).strvec.set r (trim s) }, ?_, ?_,
      fun name hname => ?_⟩
    · simp [hs, hrv, hstrip, htrim.type, ht, compareByOperator_string, narrow, trimValue]
    · constructor
      case names =>
        intro name
        rw [AList.mem_insert, h.names]
        exact ⟨fun hmem => hmem.elim (fun he => he ▸ hf.member) id, .inr⟩
      case column => exact trimOf_insert h.column hs
      case other =>
        intro name hname
        have hne : name ≠ column := fun he => hname (he ▸ hcolumn)
        rw [ColMap.get_insert_ne cur _ hne]
        exact h.other name hname
    · by_cases he : name = column
      · subst he
        have hlt : r < (cur.get name).strvec.length := (List.getElem?_eq_some_iff.mp hs).1
        unfold TrimmedAt ColData.value?
        rw [ColMap.get_insert]
        simp [htrim.type, ht, hstr, hlt, hstrip, trimValue]
      · unfold TrimmedAt
        rw [ColMap.get_insert_ne cur _ he]
        exact hname.resolve_left he
  · obtain ⟨m, hm, rfl⟩ := hv
    obtain ⟨k, hk, rfl⟩ := hliteral
    have hvec : (cur.get column).intvec = (t.get column).intvec := by rw [htrim.rest]
    refine ⟨cur, ?_, h, fun name hname => ?_⟩
    · obtain ⟨literal, hrv, hk⟩ := Option.bind_eq_some_iff.mp hk
      simp [hvec, hm, hrv, hk, compareByOperator_int, narrow, trimValue]
    · rcases hname with rfl | hcell
      · unfold TrimmedAt ColData.value?
        simp [htrim.type, ht, hvec, hm, trimValue]
      · exact hcell

/-- **The comparisons of a row**: when all hold, all their cells have been
trimmed. -/
theorem filterLoop_spec (hlength : ∀ name ∈ t, (t.get name).HasLength n) (hr : r < n)
    {filters : List Filter} (hfilters : ConjunctionOf t filters)
    (hcolumns : ∀ name ∈ comparedColumns filters, name ∈ columns) {index : Nat}
    (hindex : index % 2 = 0) (h : Trimming t cur columns) (passed : Bool) :
    ∃ cur', filterLoop r index filters (cur, passed) =
        some (cur', rowSatisfiesNarrow filters t r) ∧
      Trimming t cur' columns ∧
      (rowSatisfiesNarrow filters t r = true → ∀ name,
        name ∈ comparedColumns filters ∨ TrimmedAt t cur r name → TrimmedAt t cur' r name) := by
  induction filters using conjuncts.induct generalizing index cur passed with
  | case1 => exact hfilters.elim
  | case2 c =>
    obtain ⟨column, w, hc⟩ := hfilters
    have heven : ¬ index % 2 = 1 := by omega
    obtain ⟨cur', hrun, htrimming, hcells⟩ := passesFilter_spec hlength hr h hc
      (hcolumns column (by simp [comparedColumns, conjuncts, hc.lv])) passed
    refine ⟨cur', ?_, htrimming, fun _ name hname => hcells name ?_⟩
    · simp [filterLoop, heven, hc.lv, hrun, rowSatisfiesNarrow, conjuncts]
    · simpa [comparedColumns, conjuncts, hc.lv] using hname
  | case3 c a rest ih =>
    obtain ⟨⟨column, w, hc⟩, hand, hrest⟩ := hfilters
    have heven : ¬ index % 2 = 1 := by omega
    have hodd : (index + 1) % 2 = 1 := by omega
    obtain ⟨cur₁, hrun, htrimming, hcells⟩ := passesFilter_spec hlength hr h hc
      (hcolumns column (by simp [comparedColumns, conjuncts, hc.lv])) passed
    cases hp : relatesLiteral narrow t r c with
    | false =>
      -- the marker that follows ends the loop
      refine ⟨cur₁, ?_, htrimming, fun hall => ?_⟩
      · simp [filterLoop, heven, hodd, hc.lv, hrun, hp, hand, rowSatisfiesNarrow, conjuncts]
      · simp [rowSatisfiesNarrow, conjuncts, hp] at hall
    | true =>
      have hall : rowSatisfiesNarrow (c :: a :: rest) t r = rowSatisfiesNarrow rest t r := by
        simp [rowSatisfiesNarrow, conjuncts, hp]
      obtain ⟨cur', hloop, htrimming', hcells'⟩ := ih hrest
        (fun name hname => hcolumns name (by
          simp only [comparedColumns, conjuncts, List.filterMap_cons, hc.lv]
          exact List.mem_cons_of_mem _ hname))
        (by omega : (index + 1 + 1) % 2 = 0) htrimming true
      refine ⟨cur', ?_, htrimming', fun hrow name hname => hcells' (hall ▸ hrow) name ?_⟩
      · rw [hall]
        simpa [filterLoop, heven, hodd, hc.lv, hrun, hp, hand] using hloop
      · simp only [comparedColumns, conjuncts, List.filterMap_cons, hc.lv, List.mem_cons] at hname
        rcases hname with (he | hmem) | hcell
        · exact .inr (hcells name (.inl he))
        · exact .inl hmem
        · exact .inr (hcells name (.inr hcell))

end

/-! ## The rows that are kept -/

section
variable {t : TableData} {n : Nat} {filters : List Filter}

/-- A row that passes is copied as it is in the trimmed table. -/
theorem sameRow_trimming (hw : t.WellFormed n) {cur : ColMap} {columns : List String} {r : Nat}
    (hr : r < n) (hcolumns : ∀ name ∈ columns, name ∈ t.tableData)
    (h : Trimming t.tableData cur columns)
    (hcells : ∀ name ∈ columns, TrimmedAt t.tableData cur r name) :
    SameRow cur (trimmed t columns) r := by
  have hrow : r < t.rowCount.toNat := by simp [hw.count, hr]
  refine sameRow_of_trimOf hw hcolumns hr h.names h.column fun name hname => ?_
  by_cases hcolumn : name ∈ columns
  · rw [hcells name hcolumn, trimmed, get_trimColumns, if_pos hcolumn,
      value?_trimColumn hrow (hw.stored name hname)]
  · rw [h.other name hcolumn, trimmed, get_trimColumns, if_neg hcolumn]

/-- **`Filtering`** keeps the rows that satisfy the comparisons cut to 32 bits,
each as it is in the trimmed table. -/
theorem filtering_kept (hw : t.WellFormed n) (hfilters : ConjunctionOf t.tableData filters) :
    ∃ dest, filtering t filters {} = some dest ∧
      Kept (trimmed t (comparedColumns filters)) false
        ((List.range n).filter (rowSatisfiesNarrow filters t.tableData)) dest := by
  have hcolumns := hfilters.columns
  have hn : t.rowCount.toNat = n := hw.toNat_rowCount
  have hstart : Kept (trimmed t (comparedColumns filters)) false []
      { tableData := setTypes t.tableData ∅ } :=
    selectTypes_kept (fun name => (mem_trimColumns hcolumns).symm)
      (fun name _ => (type_trimmed t _ name).symm) (kept_init _)
  obtain ⟨⟨cur, dest⟩, hrun, -, hkept⟩ := foldlM_total (l := List.range n) (f := filterRow filters)
    (s := (t.tableData, ({ tableData := setTypes t.tableData ∅ } : TableData)))
    (P := fun done s => Trimming t.tableData s.1 (comparedColumns filters) ∧
      Kept (trimmed t (comparedColumns filters)) false
        (done.filter (rowSatisfiesNarrow filters t.tableData)) s.2)
    ⟨.refl _ _, hstart⟩ (by
      intro done r rest ⟨cur, dest⟩ hsplit ⟨htrimming, hkept⟩
      obtain ⟨-, hr⟩ := range_eq_append_cons hsplit
      obtain ⟨cur', hloop, htrimming', hcells⟩ := filterLoop_spec hw.column hr hfilters
        (fun _ hname => hname) (by rfl : 0 % 2 = 0) htrimming true
      simp only [filterRow, hloop, Option.bind_eq_bind, Option.bind_some, List.filter_append]
      cases hp : rowSatisfiesNarrow filters t.tableData r with
      | false => exact ⟨(cur', dest), rfl, htrimming', by simpa [hp] using hkept⟩
      | true =>
        have hrow := sameRow_trimming hw hr hcolumns htrimming' fun name hname =>
          hcells hp name (.inl hname)
        obtain ⟨dest', hkeep, hkept'⟩ := keepRow_spec hrow hkept
        obtain ⟨td, hcopy, hkeep⟩ := Option.bind_eq_some_iff.mp hkeep
        cases hkeep
        refine ⟨(cur', { dest with tableData := td, rowCount := dest.rowCount + 1 }), ?_,
          htrimming', by simpa [hp] using hkept'⟩
        simp [hcopy])
  refine ⟨dest, ?_, hkept⟩
  simp only [filtering, hn, hrun]
  rfl

theorem filtering_spec (hw : t.WellFormed n) (hfilters : ConjunctionOf t.tableData filters) :
    ∃ dest, filtering t filters {} = some dest ∧
      HoldsSelection (trimmed t (comparedColumns filters))
        ((List.range n).filter (rowSatisfiesNarrow filters t.tableData)) dest := by
  obtain ⟨dest, hrun, hkept⟩ := filtering_kept hw hfilters
  exact ⟨dest, hrun, hkept.holdsSelection (trimmed_wellFormed hw hfilters.columns).column
    (fun r hr => List.mem_range.mp (List.mem_filter.mp hr).1) nofun⟩

/-- Rows with the same cells in the trimmed table satisfy the same
comparisons. -/
theorem relatesLiteral_congr (hw : t.WellFormed n) (hfilters : ConjunctionOf t.tableData filters)
    {r r' : Nat} (hr : r < n) (hr' : r' < n)
    (h : ∀ name ∈ trimmed t (comparedColumns filters),
      ((trimmed t (comparedColumns filters)).get name).value? r =
        ((trimmed t (comparedColumns filters)).get name).value? r')
    (cut : Value → Value) {c : Filter} (hc : c ∈ conjuncts filters) :
    relatesLiteral cut t.tableData r c = relatesLiteral cut t.tableData r' c := by
  obtain ⟨column, w, hcompares⟩ := hfilters.compares hc
  have hcolumn : column ∈ comparedColumns filters :=
    List.mem_filterMap.mpr ⟨c, hc, hcompares.lv⟩
  have hmem := hcompares.member
  have htrimmed : ∀ i < n, ((trimmed t (comparedColumns filters)).get column).value? i =
      ((t.tableData.get column).value? i).map trimValue := by
    intro i hi
    have hrow : i < t.rowCount.toNat := by simp [hw.count, hi]
    rw [trimmed, get_trimColumns, if_pos hcolumn, value?_trimColumn hrow (hw.stored column hmem)]
  have hvalue := h column ((mem_trimColumns hfilters.columns).mpr hmem)
  rw [htrimmed r hr, htrimmed r' hr'] at hvalue
  simp only [relatesLiteral, hcompares.lv, hvalue]

/-- **Filtering is conjunction** exactly where cutting the INT cells to 32 bits
does not change whether a row satisfies all comparisons. -/
theorem filtering_conjunction_iff (hw : t.WellFormed n)
    (hfilters : ConjunctionOf t.tableData filters) :
    (∃ dest, filtering t filters {} = some dest ∧
      HoldsSelection (trimmed t (comparedColumns filters))
        ((List.range n).filter (rowSatisfies filters t.tableData)) dest) ↔
      ∀ r < n, rowSatisfiesNarrow filters t.tableData r = rowSatisfies filters t.tableData r := by
  obtain ⟨dest, hrun, hholds⟩ := filtering_spec hw hfilters
  constructor
  · rintro ⟨dest', hrun', hwanted⟩
    obtain rfl := Option.some.inj (hrun.symm.trans hrun')
    have hheld : HoldsSelection
        ({ t with tableData := trimmed t (comparedColumns filters) } : TableData).tableData
        ((List.range n).filter (rowSatisfiesNarrow filters t.tableData)) dest := hholds
    refine hheld.filter_eq hwanted ?_
    intro r hr r' hr' hrow
    have hvalues := value?_eq_of_row_eq (trimmed_wellFormed hw hfilters.columns) hr hrow
    have hsame := fun cut c (hc : c ∈ conjuncts filters) =>
      relatesLiteral_congr hw hfilters hr hr' hvalues cut hc
    exact ⟨all_congr_mem (hsame narrow), all_congr_mem (hsame id)⟩
  · intro h
    refine ⟨dest, hrun, ?_⟩
    rwa [List.filter_congr fun r hr => h r (List.mem_range.mp hr)] at hholds

end

/-- `n > 5`. -/
def moreThanFive : List Filter :=
  [{ lv := ⟨[.column], ["n"]⟩, operator := .gt, rv := ⟨[.int32], ["5"]⟩ }]

theorem moreThanFive_conjunction (ns : List Int) (status : WorkStatus) :
    ConjunctionOf (numberTable "n" ns status).tableData moreThanFive := by
  refine ⟨"n", .int 5, rfl, rfl, mem_numberTable.mpr rfl, ?_, ?_⟩
  · rw [get_numberTable]
    exact .inr rfl
  · have hfive : stoi "5" = some 5 := by decide
    rw [get_numberTable]
    simp [literalOf, hfive]

/-- Two totals within 32 bits. -/
theorem filtering_conjunction_totals :
    (∃ dest, filtering (numberTable "n" [4, 6] .workDone) moreThanFive {} = some dest ∧
      HoldsSelection (trimmed (numberTable "n" [4, 6] .workDone) (comparedColumns moreThanFive))
        ((List.range 2).filter
          (rowSatisfies moreThanFive (numberTable "n" [4, 6] .workDone).tableData)) dest) ↔
      ∀ r < 2, rowSatisfiesNarrow moreThanFive (numberTable "n" [4, 6] .workDone).tableData r =
        rowSatisfies moreThanFive (numberTable "n" [4, 6] .workDone).tableData r :=
  filtering_conjunction_iff (numberTable_wellFormed "n" [4, 6] .workDone)
    (moreThanFive_conjunction _ _)

/-- The total 4294967296 is more than five, and is compared as 0. -/
theorem filtering_loses_total :
    (List.range 1).filter (rowSatisfies moreThanFive
      (numberTable "n" [4294967296] .workDone).tableData) = [0] ∧
    (filtering (numberTable "n" [4294967296] .workDone) moreThanFive {}).map TableData.rowCount =
      some 0 ∧
    ¬ ∃ dest, filtering (numberTable "n" [4294967296] .workDone) moreThanFive {} = some dest ∧
      HoldsSelection
        (trimmed (numberTable "n" [4294967296] .workDone) (comparedColumns moreThanFive))
        ((List.range 1).filter (rowSatisfies moreThanFive
          (numberTable "n" [4294967296] .workDone).tableData)) dest := by
  have hwanted : (List.range 1).filter (rowSatisfies moreThanFive
      (numberTable "n" [4294967296] .workDone).tableData) = [0] := by decide
  have hrows : (filtering (numberTable "n" [4294967296] .workDone) moreThanFive {}).map
      TableData.rowCount = some 0 := by rfl
  refine ⟨hwanted, hrows, ?_⟩
  rintro ⟨dest, hrun, hholds⟩
  rw [hrun, Option.map_some, Option.some.injEq, hholds.count, hwanted] at hrows
  exact absurd hrows (by decide)

end KetiEngine.Merging
