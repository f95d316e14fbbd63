import KetiEngine.Merging.Projection
import KetiEngine.Merging.RowFormat

/-!
# ColumnOffsets — where `getColOffset` finds the columns of a row

A row holds a column of a fixed size in its declared length, and a VARSTRING
behind a prefix with its length. `getColOffset` keeps the sum of the declared
lengths and, in `tune`, how far the VARSTRING columns differ from theirs; the
two together are the position of the next column. They are `int`s: either may
overflow over many columns, but their sum modulo `2³²` stays the position.
-/

namespace KetiEngine.Merging

open KetiEngine LittleEndian

/-! ## Rows -/

/-- A column of a row. The length of a VARSTRING fits its prefix: one byte for
a declared length below 256, else two. -/
inductive RowColumn where
  | fixed (type : Int) (bytes : List UInt8) (htype : type ≠ MySQLDataType.varString.code)
  | varString (declared : Nat) (value : List UInt8)
      (hvalue : value.length < if declared < 256 then 256 else 65536)

namespace RowColumn

def type : RowColumn → Int
  | fixed type _ _ => type
  | varString _ _ _ => MySQLDataType.varString.code

/-- The length the schema declares. -/
def declared : RowColumn → Int
  | fixed _ bytes _ => bytes.length
  | varString declared _ _ => declared

def encode : RowColumn → List UInt8
  | fixed _ bytes _ => bytes
  | varString declared value _ =>
      if declared < 256 then UInt8.ofNat value.length :: value
      else ofNat 2 value.length ++ value

theorem encode_valid (c : RowColumn) : LaidColumn.Valid ⟨c.type, c.declared, c.encode⟩ := by
  cases c with
  | fixed type bytes htype => exact .fixed htype rfl
  | varString declared value hvalue =>
    simp only [RowColumn.type, RowColumn.declared, encode]
    split at hvalue
    case isTrue hnarrow =>
      rw [if_pos hnarrow]
      exact .narrow (by omega) (by simp; omega)
    case isFalse hwide =>
      rw [if_neg hwide]
      refine .wide (by omega) ?_
      exact (toNat_ofNat (n := 2) (by norm_num; omega)).symm

end RowColumn

def encodeColumns (cols : List RowColumn) : List UInt8 := cols.flatMap RowColumn.encode

/-- The list has an entry for each column: the position of its first byte, that
is where the columns before it end. -/
structure FindsColumns (cols : List RowColumn) (colOffsetList : List Int) : Prop where
  length : colOffsetList.length = cols.length
  start : ∀ j < cols.length,
    colOffsetList[j]? = some ((encodeColumns (cols.take j)).length : Int)

/-! ## On `int`s -/

/-- The loop of `getColOffset` with sums that wrap around. -/
def getColOffsetInt.go (rowData : List UInt8) :
    List Int → List Int → Int → Int → Option (List Int)
  | [], _, _, _ => some []
  | _ :: _, [], _, _ => none
  | colType :: types, colLen :: lens, colOffset, tune => do
      let newColOffset := toInt32 (colOffset + tune)
      let tune ←
        if colType = MySQLDataType.varString.code then
          if colLen < 256 then do
            let b ← byteAt rowData newColOffset
            pure (toInt32 (tune + (b.toNat + 1 - colLen)))
          else do
            let b₀ ← byteAt rowData newColOffset
            let b₁ ← byteAt rowData (toInt32 (newColOffset + 1))
            pure (toInt32 (tune + (LittleEndian.toNat [b₀, b₁] + 2 - colLen)))
        else pure tune
      let rest ← go rowData types lens (toInt32 (colOffset + colLen)) tune
      pure (newColOffset :: rest)

/-- `getColOffset` on `int`s of 32 bits in two's complement. -/
def getColOffsetInt (rowData : List UInt8) (returnDatatype tableOfflen : List Int) :
    Option (List Int) :=
  getColOffsetInt.go rowData returnDatatype tableOfflen 0 0

theorem toInt32_eq_of_emod {m n : Int} (h : m % 2 ^ 32 = n % 2 ^ 32) (hlo : -2 ^ 31 ≤ n)
    (hhi : n < 2 ^ 31) : toInt32 m = n := by
  rw [toInt32, Int.bmod_def]
  omega

/-- A sum wraps around to the same residue. -/
theorem toInt32_add_emod {m n : Int} (h : m % 2 ^ 32 = n % 2 ^ 32) (d : Int) :
    toInt32 (m + d) % 2 ^ 32 = (n + d) % 2 ^ 32 := by
  rw [toInt32, Int.bmod_def]
  omega

theorem byteAt_lt {buf : List UInt8} {off : Int} {b : UInt8} (h : byteAt buf off = some b) :
    0 ≤ off ∧ off < buf.length := by
  unfold byteAt at h
  split at h
  · have hlt := (List.getElem?_eq_some_iff.mp h).1
    omega
  · cases h

/-- **Wrapping around changes nothing** while the positions themselves are
`int`s. -/
theorem getColOffsetInt_go_eq {rowData : List UInt8} (hrow : rowData.length < 2 ^ 31)
    {types lens offsets : List Int} {colOffset tune colOffset' tune' : Int}
    (hoffset : colOffset' % 2 ^ 32 = colOffset % 2 ^ 32) (htune : tune' % 2 ^ 32 = tune % 2 ^ 32)
    (hrun : getColOffset.go rowData types lens colOffset tune = some offsets)
    (hfits : ∀ off ∈ offsets, -2 ^ 31 ≤ off ∧ off < 2 ^ 31) :
    getColOffsetInt.go rowData types lens colOffset' tune' = some offsets := by
  induction types generalizing lens offsets colOffset tune colOffset' tune' with
  | nil => simpa [getColOffset.go, getColOffsetInt.go] using hrun
  | cons colType types ih =>
    cases lens with
    | nil => cases hrun
    | cons colLen lens =>
      -- the position is read off the wrapped sums as it is, and the later
      -- columns see sums that agree with the exact ones again
      have hstart : ∀ off rest, offsets = off :: rest → off = colOffset + tune →
          toInt32 (colOffset' + tune') = colOffset + tune := by
        intro off rest hoffsets hoff
        obtain ⟨hlo, hhi⟩ := hfits off (by simp [hoffsets])
        exact toInt32_eq_of_emod (by omega) (by omega) (by omega)
      have hrest : ∀ {rest next next'}, (∀ off ∈ rest, off ∈ offsets) →
          next' % 2 ^ 32 = next % 2 ^ 32 →
          getColOffset.go rowData types lens (colOffset + colLen) next = some rest →
          getColOffsetInt.go rowData types lens (toInt32 (colOffset' + colLen)) next' =
            some rest := by
        intro rest next next' hsub hnext hrest
        exact ih (toInt32_add_emod hoffset colLen) hnext hrest fun off hoff =>
          hfits off (hsub off hoff)
      by_cases htype : colType = MySQLDataType.varString.code
      · by_cases hlen : colLen < 256
        · simp only [getColOffset.go, if_pos htype, if_pos hlen, Option.bind_eq_bind,
            Option.bind_eq_some_iff, Option.pure_def, Option.some.injEq] at hrun
          obtain ⟨b, hb, _, rfl, rest, hrun, rfl⟩ := hrun
          have hpos := hstart _ _ rfl rfl
          have hgo := hrest (fun off => List.mem_cons_of_mem _) (toInt32_add_emod htune _) hrun
          simp only [getColOffsetInt.go, if_pos htype, if_pos hlen, Option.bind_eq_bind,
            Option.bind_some, Option.pure_def, hpos, hb, hgo]
        · simp only [getColOffset.go, if_pos htype, if_neg hlen, Option.bind_eq_bind,
            Option.bind_eq_some_iff, Option.pure_def, Option.some.injEq] at hrun
          obtain ⟨b₀, hb₀, b₁, hb₁, _, rfl, rest, hrun, rfl⟩ := hrun
          have hpos := hstart _ _ rfl rfl
          -- the second byte of the prefix is in the row too
          have hsecond : toInt32 (colOffset + tune + 1) = colOffset + tune + 1 := by
            have := byteAt_lt hb₁
            exact toInt32_eq_of_emod rfl (by omega) (by omega)
          have hgo := hrest (fun off => List.mem_cons_of_mem _) (toInt32_add_emod htune _) hrun
          simp only [getColOffsetInt.go, if_pos htype, if_neg hlen, Option.bind_eq_bind,
            Option.bind_some, Option.pure_def, hpos, hsecond, hb₀, hb₁, hgo]
      · simp only [getColOffset.go, if_neg htype, Option.bind_eq_bind, Option.bind_some,
          Option.pure_def, Option.bind_eq_some_iff, Option.some.injEq] at hrun
        obtain ⟨rest, hrun, rfl⟩ := hrun
        simp only [getColOffsetInt.go, if_neg htype, Option.bind_eq_bind, Option.bind_some,
          Option.pure_def, hstart _ _ rfl rfl, hrest (fun off => List.mem_cons_of_mem _) htune hrun]

/-! ## The columns are found -/

theorem encodeColumns_eq_flatten (cols : List RowColumn) :
    encodeColumns cols = (cols.map RowColumn.encode).flatten :=
  List.flatMap_def

theorem getColOffset_encodeColumns (cols : List RowColumn) :
    getColOffset (encodeColumns cols) (cols.map RowColumn.type) (cols.map RowColumn.declared) =
      some ((Segments.starts 0 (cols.map RowColumn.encode)).map (fun n : Nat => (n : Int))) := by
  have := getColOffset_laid (cols.map fun c => ⟨c.type, c.declared, c.encode⟩) fun d hd => by
    obtain ⟨c, -, rfl⟩ := List.mem_map.mp hd
    exact c.encode_valid
  simpa [List.map_map, Function.comp_def, encodeColumns_eq_flatten] using this

theorem starts_findsColumns (cols : List RowColumn) :
    FindsColumns cols
      ((Segments.starts 0 (cols.map RowColumn.encode)).map (fun n : Nat => (n : Int))) where
  length := by simp
  start := by
    intro j hj
    rw [List.getElem?_map, Segments.starts_getElem?_of_lt 0 _ (by simpa using hj)]
    simp [encodeColumns_eq_flatten]

/-- No column starts behind the end of the row. -/
theorem FindsColumns.le_length {cols : List RowColumn} {colOffsetList : List Int}
    (h : FindsColumns cols colOffsetList) {off : Int} (hoff : off ∈ colOffsetList) :
    0 ≤ off ∧ off ≤ (encodeColumns cols).length := by
  obtain ⟨j, hj, rfl⟩ := List.mem_iff_getElem.mp hoff
  have hlt : j < cols.length := h.length ▸ hj
  have hstart := h.start j hlt
  rw [List.getElem?_eq_getElem hj, Option.some.injEq] at hstart
  have hcut : encodeColumns cols = encodeColumns (cols.take j) ++ encodeColumns (cols.drop j) := by
    rw [encodeColumns, encodeColumns, encodeColumns, ← List.flatMap_append, List.take_append_drop]
  have hlen := congrArg List.length hcut
  rw [List.length_append] at hlen
  omega

/-- **`getColOffset` finds every column** of every row: its `j`-th entry is
where the columns before column `j` end. A run that read a prefix byte outside
the row would be `none`. Rows of a block are far shorter than `2³¹`, and then
the positions are the same when the sums wrap around. -/
theorem getColOffset_findsColumns (cols : List RowColumn) :
    ∃ colOffsetList,
      getColOffset (encodeColumns cols) (cols.map RowColumn.type) (cols.map RowColumn.declared) =
          some colOffsetList ∧
        ((encodeColumns cols).length < 2 ^ 31 →
          getColOffsetInt (encodeColumns cols) (cols.map RowColumn.type)
              (cols.map RowColumn.declared) = some colOffsetList) ∧
        FindsColumns cols colOffsetList := by
  have hfinds := starts_findsColumns cols
  refine ⟨_, getColOffset_encodeColumns cols, ?_, hfinds⟩
  intro hrow
  refine getColOffsetInt_go_eq hrow rfl rfl (getColOffset_encodeColumns cols) fun off hoff => ?_
  have := hfinds.le_length hoff
  omega

end KetiEngine.Merging
