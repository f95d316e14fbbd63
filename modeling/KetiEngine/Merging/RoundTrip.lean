import KetiEngine.Merging.RowFormat

/-!
# RoundTrip — merging an encoded block

A block that holds rows in the row format: `mergeRows` appends to each
column what the decoder sees of the rows, and this is the rows themselves
exactly when no short string stands in a wide VARSTRING column (and the
block is not empty of bytes while it holds rows).
-/

namespace KetiEngine.Merging

open KetiEngine LittleEndian Segments

/-- A row fits a schema: one field of the right kind for each column. -/
def RowFits (schema : List FieldType) (row : List Field) : Prop :=
  List.Forall₂ FieldType.Holds schema row

/-- The encoded columns of a row. -/
def encodeRow (schema : List FieldType) (row : List Field) : List (List UInt8) :=
  List.zipWith FieldType.encode schema row

/-- The encoded rows of a block. -/
def encodeRows (schema : List FieldType) (rows : List (List Field)) :
    List (List UInt8) :=
  rows.map fun row => (encodeRow schema row).flatten

/-- A block holds `rows` in the row format of `schema`: `row_offset` has the
row starts and `length` the total size. -/
structure BlockResult.Encodes (schema : List FieldType) (rows : List (List Field))
    (r : BlockResult) : Prop where
  types : r.returnDatatype = schema.map (·.mysql.code)
  lens : r.returnOfflen = schema.map fun t => (t.declared : Int)
  count : r.rowCount = rows.length
  offsets : r.rowOffset = (starts 0 (encodeRows schema rows)).map fun n : Nat => (n : Int)
  length : r.length = ((encodeRows schema rows).flatten.length : Nat)
  data : (encodeRows schema rows).flatten <+: r.data

/-- What the decoder makes of a row. -/
def seenRow (schema : List FieldType) (row : List Field) : List Value :=
  List.zipWith FieldType.seen schema row

theorem RowFits.length_eq {schema : List FieldType} {row : List Field}
    (h : RowFits schema row) : schema.length = row.length :=
  List.Forall₂.length_eq h

private theorem RowFits.get {schema : List FieldType} {row : List Field}
    (h : RowFits schema row) {j : Nat} {t : FieldType} {f : Field}
    (ht : schema[j]? = some t) (hf : row[j]? = some f) : t.Holds f := by
  obtain ⟨hj, rfl⟩ := List.getElem?_eq_some_iff.mp ht
  obtain ⟨hj', rfl⟩ := List.getElem?_eq_some_iff.mp hf
  exact List.Forall₂.get h hj hj'

/-- The start of row `i` and the end of it are in `row_offset` and `length`. -/
theorem rowData_encoded {schema : List FieldType} {rows : List (List Field)}
    {r : BlockResult} (h : r.Encodes schema rows) {i : Nat} {row : List Field}
    (hrow : rows[i]? = some row) :
    r.rowData i = some (encodeRow schema row).flatten := by
  obtain ⟨hi, rfl⟩ := List.getElem?_eq_some_iff.mp hrow
  obtain ⟨junk, hdata⟩ := h.data
  have hlen : i < (encodeRows schema rows).length := by simpa [encodeRows] using hi
  have hstart : r.rowOffset[i]? =
      some (((encodeRows schema rows).take i).flatten.length : Int) := by
    rw [h.offsets, List.getElem?_map, starts_getElem?_of_lt 0 _ hlen]
    simp
  have hnext : (r.rowOffset ++ [r.length])[i + 1]? =
      some (((encodeRows schema rows).take (i + 1)).flatten.length : Int) := by
    have hcast : r.rowOffset ++ [r.length] =
        (starts 0 (encodeRows schema rows) ++
          [0 + (encodeRows schema rows).flatten.length]).map fun n : Nat => (n : Int) := by
      rw [h.offsets, h.length]
      simp
    rw [hcast, List.getElem?_map, starts_getElem? 0 _ hlen]
    simp
  have hseg : (encodeRows schema rows)[i] = (encodeRow schema rows[i]).flatten := by
    simp [encodeRows]
  have hsplit := flatten_split _ hlen
  have hsize := flatten_take_succ_length _ hlen
  unfold BlockResult.rowData
  simp only [hstart, hnext, Option.bind_eq_bind, Option.bind_some]
  rw [← hseg]
  refine bytesAt_middle ((encodeRows schema rows).take i).flatten
    (((encodeRows schema rows).drop (i + 1)).flatten ++ junk) ?_ rfl ?_
  · rw [← hdata, hsplit]
    simp
  · omega

private theorem laid_row {schema : List FieldType} {row : List Field}
    (hschema : ∀ t ∈ schema, t.Declarable) (hfits : RowFits schema row) :
    ∃ cols : List LaidColumn, (∀ c ∈ cols, c.Valid) ∧
      cols.map (·.bytes) = encodeRow schema row ∧
      cols.map (·.code) = schema.map (·.mysql.code) ∧
      cols.map (·.len) = schema.map fun t => (t.declared : Int) := by
  induction hfits with
  | nil => exact ⟨[], by simp [encodeRow]⟩
  | @cons t f schema row hf _ ih =>
    obtain ⟨cols, hvalid, hbytes, hcode, hlen⟩ := ih fun u hu => hschema u (by simp [hu])
    refine ⟨⟨t.mysql.code, t.declared, t.encode f⟩ :: cols, ?_, ?_, ?_, ?_⟩
    · intro c hc
      rcases List.mem_cons.mp hc with rfl | hc
      · exact FieldType.encode_valid (hschema t (by simp)) hf
      · exact hvalid c hc
    · simp [hbytes, encodeRow]
    · simp [hcode]
    · simp [hlen]

/-- **One encoded row decodes** to what the decoder sees of its fields. -/
theorem decodeRow_encoded {schema : List FieldType} {rows : List (List Field)}
    {r : BlockResult} (hschema : ∀ t ∈ schema, t.Declarable)
    (hr : r.Encodes schema rows) {i : Nat} {row : List Field}
    (hrow : rows[i]? = some row) (hfits : RowFits schema row) :
    decodeRow schema.length r i = some ((seenRow schema row).map some) := by
  obtain ⟨cols, hvalid, hbytes, hcode, hlen⟩ := laid_row hschema hfits
  have hcount : (encodeRow schema row).length = schema.length := by
    simp [encodeRow, hfits.length_eq]
  have hoffsets : getColOffset (encodeRow schema row).flatten r.returnDatatype r.returnOfflen
      = some ((starts 0 (encodeRow schema row)).map fun n : Nat => (n : Int)) := by
    rw [hr.types, hr.lens, ← hcode, ← hlen, ← hbytes]
    exact getColOffset_laid cols hvalid
  have hlist : r.colOffsetList (encodeRow schema row).flatten schema.length =
      some ((starts 0 (encodeRow schema row) ++
        [0 + (encodeRow schema row).flatten.length]).map fun n : Nat => (n : Int)) := by
    unfold BlockResult.colOffsetList
    simp [hoffsets, hcount, List.take_of_length_le]
  -- column `j` lies between two neighbouring entries of the list
  have hvalue : ∀ j ∈ List.range schema.length,
      r.columnValue (encodeRow schema row).flatten
        ((starts 0 (encodeRow schema row) ++
          [0 + (encodeRow schema row).flatten.length]).map fun n : Nat => (n : Int)) j =
      some ((seenRow schema row)[j]?) := by
    intro j hj
    have hj : j < schema.length := List.mem_range.mp hj
    have hjr : j < row.length := hfits.length_eq ▸ hj
    have hje : j < (encodeRow schema row).length := hcount.symm ▸ hj
    have hseg : (encodeRow schema row)[j] = (schema[j]).encode row[j] := by
      simp [encodeRow]
    have hholds : (schema[j]).Holds row[j] :=
      hfits.get (List.getElem?_eq_getElem hj) (List.getElem?_eq_getElem hjr)
    have hsplit := flatten_split _ hje
    have hsize := flatten_take_succ_length _ hje
    unfold BlockResult.columnValue
    rw [List.getElem?_map, starts_getElem? 0 _ (Nat.le_of_lt hje), List.getElem?_map,
      starts_getElem? 0 _ hje, hr.types, List.getElem?_map, List.getElem?_eq_getElem hj]
    simp only [Nat.zero_add, Option.map_some, Option.bind_eq_bind, Option.bind_some]
    have hwidth : (((encodeRow schema row).take (j + 1)).flatten.length : Int) -
        ((encodeRow schema row).take j).flatten.length =
        ((schema[j]).encode row[j]).length := by
      rw [← hseg]
      omega
    rw [hwidth, FieldType.decodeColumn_encode (hschema _ (List.getElem_mem hj)) hholds
      (hseg ▸ hsplit)]
    simp [seenRow, List.getElem?_zipWith, List.getElem?_eq_getElem hj,
      List.getElem?_eq_getElem hjr]
  unfold decodeRow
  simp only [rowData_encoded hr hrow, hlist, Option.bind_eq_bind, Option.bind_some]
  rw [Loops.mapM_of_forall hvalue]
  congr 1
  have hseen : (seenRow schema row).length = schema.length := by
    simp [seenRow, hfits.length_eq]
  apply List.ext_getElem
  · simp [hseen]
  · intro j h1 h2
    simp at h2
    simp [h2]

/-- What merging sees of the rows of a block; a block of length 0 is skipped. -/
def seenRows (schema : List FieldType) (rows : List (List Field)) (r : BlockResult) :
    List (List Value) :=
  if r.length ≠ 0 then rows.map (seenRow schema) else []

/-- An encoded block decodes to what merging sees of its rows. -/
theorem decodeRows_encoded {schema : List FieldType} {rows : List (List Field)}
    {r : BlockResult} (hschema : ∀ t ∈ schema, t.Declarable)
    (hr : r.Encodes schema rows) (hrows : ∀ row ∈ rows, RowFits schema row) :
    decodeRows schema.length r = some ((seenRows schema rows r).map (List.map some)) := by
  unfold decodeRows seenRows
  split
  · have hread : ∀ i ∈ List.range r.rowCount, decodeRow schema.length r i =
        some (((rows.map (seenRow schema)).map (List.map some)).getD i []) := by
      intro i hi
      have hi : i < rows.length := hr.count ▸ List.mem_range.mp hi
      rw [decodeRow_encoded hschema hr (List.getElem?_eq_getElem hi)
        (hrows _ (List.getElem_mem hi))]
      simp [List.getD_eq_getElem?_getD, hi]
    rw [Loops.mapM_of_forall hread, hr.count]
    congr 1
    apply List.ext_getElem
    · simp
    · intro i h1 h2
      simp at h2
      simp [List.getD_eq_getElem?_getD, h2]
  · rfl

/-! ## The round trip -/

/-- `td'` is `td` with the values of `rows` appended to the columns `names`,
in row order, and nothing else changed. -/
def AppendsRows (names : List String) (rows : List (List Value)) (td td' : ColMap) : Prop :=
  (∀ j name, names[j]? = some name →
    td'.get name = (td.get name).appendValues (columnOf rows j)) ∧
  ∀ name, name ∉ names → td'.get name = td.get name

/-- No short string in a wide VARSTRING column, and no rows in columns that
are all of length 0. -/
def DecodesBack (schema : List FieldType) (rows : List (List Field)) : Prop :=
  (∀ row ∈ rows, ∀ (j : Nat) (t : FieldType) (f : Field),
    schema[j]? = some t → row[j]? = some f → ¬ t.ShortInWide f) ∧
  (rows = [] ∨ schema = [] ∨ ∃ t ∈ schema, t ≠ .string 0)

private theorem columnOf_map {α : Type} (rows : List α) (F : α → List Value) (G : α → Value)
    (j : Nat) (h : ∀ row ∈ rows, (F row)[j]? = some (G row)) :
    columnOf (rows.map F) j = rows.map G := by
  induction rows with
  | nil => rfl
  | cons row rows ih =>
    have htail := ih fun r hr => h r (by simp [hr])
    simp only [columnOf, List.map_cons, List.filterMap_cons, h row (by simp)] at htail ⊢
    rw [htail]

private theorem columnOf_toValue {schema : List FieldType} {rows : List (List Field)}
    (hrows : ∀ row ∈ rows, RowFits schema row) {j : Nat} (hj : j < schema.length) :
    columnOf (rows.map (List.map Field.toValue)) j =
      rows.map fun row => (row.getD j (.int 0)).toValue := by
  apply columnOf_map
  intro row hrow
  have hjr : j < row.length := (hrows row hrow).length_eq ▸ hj
  simp [List.getD_eq_getElem?_getD, hjr]

private theorem columnOf_seenRow {schema : List FieldType} {rows : List (List Field)}
    (hrows : ∀ row ∈ rows, RowFits schema row) {j : Nat} {t : FieldType}
    (ht : schema[j]? = some t) :
    columnOf (rows.map (seenRow schema)) j =
      rows.map fun row => t.seen (row.getD j (.int 0)) := by
  apply columnOf_map
  intro row hrow
  obtain ⟨hj, -⟩ := List.getElem?_eq_some_iff.mp ht
  have hjr : j < row.length := (hrows row hrow).length_eq ▸ hj
  simp [seenRow, List.getElem?_zipWith, ht, List.getD_eq_getElem?_getD,
    List.getElem?_eq_getElem hjr]

private theorem eq_of_filterMap_string {α : Type} (l : List α) (g h : α → Value)
    (hg : ∀ a ∈ l, (g a).string?.isSome) (hh : ∀ a ∈ l, (h a).string?.isSome)
    (heq : (l.map g).filterMap Value.string? = (l.map h).filterMap Value.string?) :
    ∀ a ∈ l, (g a).string? = (h a).string? := by
  induction l with
  | nil => simp
  | cons a l ih =>
    obtain ⟨s, hs⟩ := Option.isSome_iff_exists.mp (hg a (by simp))
    obtain ⟨s', hs'⟩ := Option.isSome_iff_exists.mp (hh a (by simp))
    simp only [List.map_cons, List.filterMap_cons_some hs, List.filterMap_cons_some hs',
      List.cons.injEq] at heq
    intro b hb
    rcases List.mem_cons.mp hb with rfl | hb
    · rw [hs, hs', heq.1]
    · exact ih (fun c hc => hg c (by simp [hc])) (fun c hc => hh c (by simp [hc])) heq.2 b hb

/-- A block has bytes as soon as it has a row and a column with bytes. -/
private theorem length_ne_zero {schema : List FieldType} {rows : List (List Field)}
    {r : BlockResult} (hr : r.Encodes schema rows) (hrows : ∀ row ∈ rows, RowFits schema row)
    {row : List Field} (hrow : row ∈ rows) {t : FieldType} (ht : t ∈ schema)
    (hne : t ≠ .string 0) : r.length ≠ 0 := by
  obtain ⟨j, hj, rfl⟩ := List.getElem_of_mem ht
  have hfits := hrows row hrow
  have hjr : j < row.length := hfits.length_eq ▸ hj
  have hpos : 0 < ((schema[j]).encode row[j]).length :=
    FieldType.encode_length_pos
      (hfits.get (List.getElem?_eq_getElem hj) (List.getElem?_eq_getElem hjr)) hne
  have hcol : (schema[j]).encode row[j] ∈ encodeRow schema row := by
    have hlen : j < (encodeRow schema row).length := by simp [encodeRow, hj, hjr]
    have : (encodeRow schema row)[j] = (schema[j]).encode row[j] := by simp [encodeRow]
    exact this ▸ List.getElem_mem hlen
  have hseg : (encodeRow schema row).flatten ∈ encodeRows schema rows :=
    List.mem_map.mpr ⟨row, hrow, rfl⟩
  obtain ⟨b, hb⟩ := List.exists_mem_of_length_pos hpos
  have hmem : b ∈ (encodeRows schema rows).flatten :=
    List.mem_flatten.mpr ⟨_, hseg, List.mem_flatten.mpr ⟨_, hcol, hb⟩⟩
  have := List.length_pos_of_mem hmem
  rw [hr.length]
  omega

private theorem length_eq_zero {schema : List FieldType} {rows : List (List Field)}
    {r : BlockResult} (hr : r.Encodes schema rows) (hrows : ∀ row ∈ rows, RowFits schema row)
    (hall : ∀ t ∈ schema, t = .string 0) : r.length = 0 := by
  have hnil : (encodeRows schema rows).flatten = [] := by
    apply List.flatten_eq_nil_iff.mpr
    intro seg hseg
    obtain ⟨row, hrow, rfl⟩ := List.mem_map.mp hseg
    apply List.flatten_eq_nil_iff.mpr
    intro col hcol
    obtain ⟨j, hj, rfl⟩ := List.getElem_of_mem hcol
    have hj' : j < schema.length ∧ j < row.length := by simpa [encodeRow] using hj
    have hholds := (hrows row hrow).get (List.getElem?_eq_getElem hj'.1)
      (List.getElem?_eq_getElem hj'.2)
    have ht : schema[j] = .string 0 := hall _ (List.getElem_mem _)
    rw [ht] at hholds
    simp only [encodeRow, List.getElem_zipWith, ht]
    cases hf : row[j] with
    | int n => simp [hf, FieldType.Holds] at hholds
    | str bytes =>
      rw [hf] at hholds
      exact List.eq_nil_of_length_eq_zero hholds.1
  rw [hr.length, hnil]
  rfl

/-- Merging an encoded block appends what merging sees of its rows. -/
theorem mergeRows_appends_seen {schema : List FieldType} {rows : List (List Field)}
    {r : BlockResult} {names : List String} (td : ColMap)
    (hschema : ∀ t ∈ schema, t.Declarable) (hrows : ∀ row ∈ rows, RowFits schema row)
    (hr : r.Encodes schema rows) (hnodup : names.Nodup)
    (hnames : names.length = schema.length) :
    ∃ td', mergeRows names r td = some td' ∧
      AppendsRows names (seenRows schema rows r) td td' := by
  have hlen : ∀ seen ∈ seenRows schema rows r, seen.length = names.length := by
    intro seen hseen
    unfold seenRows at hseen
    split at hseen
    · obtain ⟨row, hrow, rfl⟩ := List.mem_map.mp hseen
      simp [seenRow, hnames, (hrows row hrow).length_eq]
    · cases hseen
  refine ⟨((seenRows schema rows r).map (List.map some)).foldl (pushRow names) td, ?_, ?_, ?_⟩
  · rw [mergeRows_eq, hnames, decodeRows_encoded hschema hr hrows]
    rfl
  · intro j name hname
    exact get_foldl_pushRow names td _ hnodup hlen hname
  · intro name hname
    exact get_foldl_pushRow_notMem names td _ hname

/-- Sufficiency: what merging sees of a good block is its rows. -/
private theorem columnOf_seenRows_of_decodesBack {schema : List FieldType}
    {rows : List (List Field)} {r : BlockResult} (hr : r.Encodes schema rows)
    (hrows : ∀ row ∈ rows, RowFits schema row) (hback : DecodesBack schema rows)
    {j : Nat} (hj : j < schema.length) :
    columnOf (seenRows schema rows r) j =
      columnOf (rows.map (List.map Field.toValue)) j := by
  obtain ⟨hgood, hbytes⟩ := hback
  unfold seenRows
  split
  · congr 1
    apply List.map_congr_left
    intro row hrow
    have hsize := (hrows row hrow).length_eq
    apply List.ext_getElem
    · simp [seenRow, hsize]
    · intro i h1 h2
      have hi : i < schema.length ∧ i < row.length := by simpa [seenRow] using h1
      simp only [seenRow, List.getElem_zipWith, List.getElem_map]
      exact FieldType.seen_of_not_short
        (hgood row hrow i _ _ (List.getElem?_eq_getElem hi.1) (List.getElem?_eq_getElem hi.2))
  · rename_i hlen
    rcases hbytes with rfl | rfl | ⟨t, ht, hne⟩
    · rfl
    · exact absurd hj (Nat.not_lt_zero j)
    · cases rows with
      | nil => rfl
      | cons row rows =>
        exact absurd (length_ne_zero hr hrows List.mem_cons_self ht hne) hlen

/-- Necessity, the bytes: of a block without bytes merging sees no row. -/
private theorem bytes_of_same {schema : List FieldType} {rows : List (List Field)}
    {r : BlockResult} (hr : r.Encodes schema rows)
    (hrows : ∀ row ∈ rows, RowFits schema row)
    (hsame : ∀ j < schema.length, ∃ c : ColData,
      c.appendValues (columnOf (seenRows schema rows r) j) =
        c.appendValues (columnOf (rows.map (List.map Field.toValue)) j)) :
    rows = [] ∨ schema = [] ∨ ∃ t ∈ schema, t ≠ .string 0 := by
  by_contra hcon
  simp only [not_or, not_exists, not_and, not_not, ne_eq] at hcon
  obtain ⟨hne, hsne, hall⟩ := hcon
  have hpos : 0 < schema.length := List.length_pos_iff.mpr hsne
  obtain ⟨c, h⟩ := hsame 0 hpos
  rw [seenRows, if_neg (by simpa using length_eq_zero hr hrows hall),
    columnOf_toValue hrows hpos] at h
  have hcount := congrArg ColData.rowCount h
  exact hne (by simpa [columnOf, ColData.appendValues] using hcount)

private theorem isSome_string?_of_wide {t : FieldType} {f f' : Field}
    (hshort : t.ShortInWide f) (hholds : t.Holds f') :
    (t.seen f').string?.isSome ∧ f'.toValue.string?.isSome := by
  cases t <;> cases f <;> simp only [FieldType.ShortInWide] at hshort
  cases f' with
  | int n => simp [FieldType.Holds] at hholds
  | str bytes =>
    unfold FieldType.seen
    split <;> simp [Value.string?, Field.toValue]

private theorem seen_ne_of_short {t : FieldType} {f : Field} (hshort : t.ShortInWide f) :
    (t.seen f).string? ≠ f.toValue.string? := by
  intro hcell
  rw [FieldType.seen_of_short hshort] at hcell
  cases t <;> cases f <;> simp only [FieldType.ShortInWide] at hshort
  rename_i len bytes
  simp only [Field.toValue, Value.string?, Option.some.injEq] at hcell
  have hnil : bytes = [] := bytesToString_injective (by rw [← hcell]; rfl)
  simp [hnil] at hshort

/-- Necessity, the strings: merging does not see a column as it is when a
short string stands in it and it is a wide VARSTRING. -/
private theorem not_short_of_same {schema : List FieldType} {rows : List (List Field)}
    {r : BlockResult} (hr : r.Encodes schema rows)
    (hrows : ∀ row ∈ rows, RowFits schema row) {row : List Field} (hrow : row ∈ rows)
    {j : Nat} {t : FieldType} {f : Field} (ht : schema[j]? = some t)
    (hf : row[j]? = some f) {c : ColData}
    (hsame : c.appendValues (columnOf (seenRows schema rows r) j) =
      c.appendValues (columnOf (rows.map (List.map Field.toValue)) j)) :
    ¬ t.ShortInWide f := by
  intro hshort
  obtain ⟨hj, -⟩ := List.getElem?_eq_some_iff.mp ht
  have hne : t ≠ .string 0 := by
    rintro rfl
    cases f <;> exact hshort
  have hlen := length_ne_zero hr hrows hrow (List.mem_of_getElem? ht) hne
  rw [seenRows, if_pos hlen, columnOf_seenRow hrows ht, columnOf_toValue hrows hj] at hsame
  have hstr := congrArg ColData.strvec hsame
  simp only [ColData.appendValues, List.append_cancel_left_eq] at hstr
  -- the column holds strings only, so the two agree cell by cell
  have hkind : ∀ row' ∈ rows, (t.seen (row'.getD j (.int 0))).string?.isSome ∧
      (row'.getD j (.int 0)).toValue.string?.isSome := by
    intro row' hrow'
    have hj' : j < row'.length := (hrows row' hrow').length_eq ▸ hj
    rw [List.getD_eq_getElem?_getD, List.getElem?_eq_getElem hj', Option.getD_some]
    exact isSome_string?_of_wide hshort ((hrows row' hrow').get ht (List.getElem?_eq_getElem hj'))
  have hcell := eq_of_filterMap_string rows _ _ (fun r hr => (hkind r hr).1)
    (fun r hr => (hkind r hr).2) hstr row hrow
  rw [List.getD_eq_getElem?_getD, hf, Option.getD_some] at hcell
  exact seen_ne_of_short hshort hcell

/-- **The round trip**: merging a block in the row format appends to each
column exactly the rows' values if and only if no row has a string of 1 to
255 bytes in a VARSTRING column declared with 256 or more, and the columns
are not all of length 0. -/
theorem mergeRows_appends_iff {schema : List FieldType} {rows : List (List Field)}
    {r : BlockResult} {names : List String} (td : ColMap)
    (hschema : ∀ t ∈ schema, t.Declarable) (hrows : ∀ row ∈ rows, RowFits schema row)
    (hr : r.Encodes schema rows) (hnodup : names.Nodup)
    (hnames : names.length = schema.length) :
    (∃ td', mergeRows names r td = some td' ∧
      AppendsRows names (rows.map (List.map Field.toValue)) td td') ↔
    DecodesBack schema rows := by
  obtain ⟨seen, hrun, happ, hrest⟩ := mergeRows_appends_seen td hschema hrows hr hnodup hnames
  constructor
  · rintro ⟨td', hrun', happ', -⟩
    rw [hrun, Option.some.injEq] at hrun'
    subst hrun'
    have hsame : ∀ j < schema.length, ∃ c : ColData,
        c.appendValues (columnOf (seenRows schema rows r) j) =
          c.appendValues (columnOf (rows.map (List.map Field.toValue)) j) := by
      intro j hj
      have hname : names[j]? = some names[j] := List.getElem?_eq_getElem (hnames ▸ hj)
      exact ⟨td.get names[j], (happ j _ hname).symm.trans (happ' j _ hname)⟩
    refine ⟨?_, bytes_of_same hr hrows hsame⟩
    intro row hrow j t f ht hf
    obtain ⟨hj, -⟩ := List.getElem?_eq_some_iff.mp ht
    obtain ⟨c, hc⟩ := hsame j hj
    exact not_short_of_same hr hrows hrow ht hf hc
  · intro hback
    refine ⟨seen, hrun, ?_, hrest⟩
    intro j name hname
    obtain ⟨hj, -⟩ := List.getElem?_eq_some_iff.mp hname
    rw [happ j name hname, columnOf_seenRows_of_decodesBack hr hrows hback (hnames ▸ hj)]

/-- A block with one row: an INT32 and a VARSTRING(10). -/
def narrowBlock : BlockResult where
  queryId := 1
  workId := 0
  data := [7, 0, 0, 0, 2, 0x68, 0x69]
  length := 7
  rowOffset := [0]
  rowCount := 1
  tableTotalBlockCount := 1
  resultBlockCount := 1
  returnDatatype := [3, 15]
  returnOfflen := [4, 10]
  scannedRowCount := 1
  filteredRowCount := 1
  tableAlias := "t"
  columnAlias := ["a", "b"]
  sameLength := rfl

theorem narrowBlock_encodes :
    narrowBlock.Encodes [.int32, .varString 10] [[.int 7, .str [0x68, 0x69]]] := by
  constructor <;> decide

theorem mergeRows_appends_narrowBlock :
    ∃ td', mergeRows ["a", "b"] narrowBlock ∅ = some td' ∧
      AppendsRows ["a", "b"]
        ([[.int 7, .str [0x68, 0x69]]].map (List.map Field.toValue)) ∅ td' := by
  refine (@mergeRows_appends_iff [.int32, .varString 10] _ _ _ ∅ ?_ ?_
    narrowBlock_encodes (by decide) rfl).mpr ⟨?_, .inr (.inr ⟨.int32, by simp, by simp⟩)⟩
  · simp [FieldType.Declarable]
  · simp [RowFits, FieldType.Holds]
  · intro row hrow j t f ht hf hshort
    obtain rfl : row = [.int 7, .str [0x68, 0x69]] := by simpa using hrow
    rcases j with _ | _ | j
    case succ.succ => simp at ht
    all_goals
      simp at ht hf
      subst ht hf
      simp [FieldType.ShortInWide] at hshort

/-- A block with one row: the string `"a"` in a VARSTRING(300). -/
def shortInWideBlock : BlockResult where
  queryId := 1
  workId := 0
  data := [1, 0, 0x61]
  length := 3
  rowOffset := [0]
  rowCount := 1
  tableTotalBlockCount := 1
  resultBlockCount := 1
  returnDatatype := [15]
  returnOfflen := [300]
  scannedRowCount := 1
  filteredRowCount := 1
  tableAlias := "t"
  columnAlias := ["a"]
  sameLength := rfl

/-- The string `"a"` comes out empty. -/
theorem mergeRows_loses_short_string :
    shortInWideBlock.Encodes [.varString 300] [[.str [0x61]]] ∧
    ¬ ∃ td', mergeRows ["a"] shortInWideBlock ∅ = some td' ∧
      AppendsRows ["a"] ([[.str [0x61]]].map (List.map Field.toValue)) ∅ td' := by
  refine ⟨by constructor <;> decide, ?_⟩
  rintro ⟨td', hrun, happ, -⟩
  have hstr : (mergeRows ["a"] shortInWideBlock ∅).map (fun td => (td.get "a").strvec) =
      some [""] := by decide
  have h := congrArg ColData.strvec (happ 0 "a" rfl)
  rw [hrun] at hstr
  simp only [Option.map_some, Option.some.injEq] at hstr
  rw [hstr] at h
  exact absurd h (by decide)

end KetiEngine.Merging
