import KetiEngine.Merging.Block
import KetiEngine.Lib.Segments

/-!
# RowFormat — the row format and what the decoder makes of it

The format `getColOffset` assumes: fixed-size columns in their declared
length, a VARSTRING behind a length prefix of one byte (declared length
below 256) or two. `getColOffset` finds every column of a row in this format
(`getColOffset_laid`); `decodeColumn` reads every field back except a short
string in a wide VARSTRING column (`FieldType.seen`), because it chooses the
prefix by the encoded length of the value and not by the declared length of
the column.
-/

namespace KetiEngine.Merging

open KetiEngine LittleEndian Segments

/-! ## Column offsets -/

/-- One column of an encoded row: its type code, its declared length and
its bytes. -/
structure LaidColumn where
  code : Int
  len : Int
  bytes : List UInt8

/-- The bytes are what the format prescribes for the type and length. -/
inductive LaidColumn.Valid : LaidColumn → Prop
  | fixed {code len bytes} : code ≠ MySQLDataType.varString.code →
      (bytes.length : Int) = len → Valid ⟨code, len, bytes⟩
  | narrow {len b bytes} : len < 256 → bytes.length = b.toNat →
      Valid ⟨MySQLDataType.varString.code, len, b :: bytes⟩
  | wide {len b₀ b₁ bytes} : 256 ≤ len → bytes.length = toNat [b₀, b₁] →
      Valid ⟨MySQLDataType.varString.code, len, b₀ :: b₁ :: bytes⟩

theorem byteAt_middle {row : List UInt8} (before : List UInt8) (b : UInt8)
    (after : List UInt8) (h : row = before ++ b :: after) :
    byteAt row before.length = some b := by
  simp [byteAt, h]

/-- `row` is fixed: the columns still to come are its bytes from `before` on. -/
private theorem getColOffset_go_laid (row : List UInt8) (cols : List LaidColumn)
    (hcols : ∀ c ∈ cols, c.Valid) (before : List UInt8) (colOffset tune : Int)
    (hrow : row = before ++ (cols.map (·.bytes)).flatten)
    (hpos : colOffset + tune = before.length) :
    getColOffset.go row (cols.map (·.code)) (cols.map (·.len)) colOffset tune =
      some ((starts before.length (cols.map (·.bytes))).map (fun n : Nat => (n : Int))) := by
  induction cols generalizing before colOffset tune with
  | nil => rfl
  | cons c cols ih =>
    have hrest : ∀ d ∈ cols, d.Valid := fun d hd => hcols d (by simp [hd])
    -- the next column starts where this one ends
    have hnext : ∀ tune' : Int, colOffset + c.len + tune' =
        (before.length + c.bytes.length : Nat) →
        getColOffset.go row (cols.map (·.code)) (cols.map (·.len)) (colOffset + c.len) tune' =
          some ((starts (before.length + c.bytes.length)
            (cols.map (·.bytes))).map (fun n : Nat => (n : Int))) := by
      intro tune' hpos'
      have := ih hrest (before ++ c.bytes) (colOffset + c.len) tune' (by simp [hrow])
        (by rw [hpos', List.length_append])
      simpa using this
    cases hcols c (by simp) with
    | @fixed code len bytes hcode hlen =>
      have h := hnext tune (by push_cast; omega)
      simp only [List.map_cons, getColOffset.go, if_neg hcode, hpos, Option.pure_def,
        Option.bind_eq_bind, Option.bind_some, h, starts]
    | @narrow len b bytes hlen hb =>
      have hread : byteAt row before.length = some b :=
        byteAt_middle before b (bytes ++ (cols.map (·.bytes)).flatten) (by simp [hrow])
      have h := hnext (tune + (b.toNat + 1 - len)) (by
        simp only [List.length_cons]
        push_cast
        omega)
      simp only [List.map_cons, getColOffset.go, if_pos hlen, hpos, if_true, hread,
        Option.pure_def, Option.bind_eq_bind, Option.bind_some, h, starts]
    | @wide len b₀ b₁ bytes hlen hb =>
      have hread₀ : byteAt row before.length = some b₀ :=
        byteAt_middle before b₀ (b₁ :: (bytes ++ (cols.map (·.bytes)).flatten)) (by simp [hrow])
      have hread₁ : byteAt row (before.length + 1) = some b₁ := by
        have : byteAt row (before ++ [b₀]).length = some b₁ :=
          byteAt_middle _ b₁ (bytes ++ (cols.map (·.bytes)).flatten) (by simp [hrow])
        simpa using this
      have h := hnext (tune + (toNat [b₀, b₁] + 2 - len)) (by
        simp only [List.length_cons]
        push_cast
        omega)
      simp only [List.map_cons, getColOffset.go, if_neg (by omega : ¬ len < 256), hpos,
        if_true, hread₀, hread₁, Option.pure_def, Option.bind_eq_bind, Option.bind_some, h,
        starts]

/-- **`getColOffset` finds every column**: on a row in the format it stores
the start of each column, and every prefix byte it reads is in the row. -/
theorem getColOffset_laid (cols : List LaidColumn) (hcols : ∀ c ∈ cols, c.Valid) :
    getColOffset (cols.map (·.bytes)).flatten (cols.map (·.code)) (cols.map (·.len)) =
      some ((starts 0 (cols.map (·.bytes))).map (fun n : Nat => (n : Int))) := by
  have := getColOffset_go_laid _ cols hcols [] 0 0 rfl rfl
  simpa [getColOffset] using this

/-! ## Fields and their encoding -/

theorem bytesAt_middle {row bytes : List UInt8} (before after : List UInt8)
    {off len : Int} (h : row = before ++ (bytes ++ after)) (hoff : off = before.length)
    (hlen : len = bytes.length) : bytesAt row off len = some bytes := by
  unfold bytesAt
  rw [if_pos (by subst h; simp only [List.length_append]; push_cast; omega)]
  simp [h, hoff, hlen]

/-- The column types of the row format, with declared lengths. -/
inductive FieldType where
  | byte | int16 | int32 | int64 | date | timestamp
  | string (len : Nat)
  | varString (len : Nat)
  deriving DecidableEq

/-- A field of a row. -/
inductive Field where
  | int (n : Int)
  | str (bytes : List UInt8)
  deriving DecidableEq

/-- The value a table should hold for a field. -/
def Field.toValue : Field → Value
  | .int n => .int n
  | .str bytes => .string (bytesToString bytes)

namespace FieldType

def mysql : FieldType → MySQLDataType
  | .byte => .byte
  | .int16 => .int16
  | .int32 => .int32
  | .int64 => .int64
  | .date => .date
  | .timestamp => .timestamp
  | .string _ => .string
  | .varString _ => .varString

/-- The length the schema declares for the column. -/
def declared : FieldType → Nat
  | .byte => 1
  | .int16 => 2
  | .int32 => 4
  | .int64 => 8
  | .date => 3
  | .timestamp => 4
  | .string len | .varString len => len

/-- A VARSTRING is declared with a length a two-byte prefix can hold. -/
def Declarable : FieldType → Prop
  | .varString len => 1 ≤ len ∧ len ≤ 65535
  | _ => True

/-- The fields a column of this type can hold. -/
def Holds : FieldType → Field → Prop
  | .byte, .int n => -2 ^ 7 ≤ n ∧ n < 2 ^ 7
  | .int16, .int n => -2 ^ 15 ≤ n ∧ n < 2 ^ 15
  | .int32, .int n | .timestamp, .int n => -2 ^ 31 ≤ n ∧ n < 2 ^ 31
  | .int64, .int n => -2 ^ 63 ≤ n ∧ n < 2 ^ 63
  | .date, .int n => 0 ≤ n ∧ n < 2 ^ 24
  | .string len, .str bytes => bytes.length = len ∧ (0 : UInt8) ∉ bytes
  | .varString len, .str bytes => bytes.length ≤ len ∧ (0 : UInt8) ∉ bytes
  | _, _ => False

/-- The bytes of a field. -/
def encode : FieldType → Field → List UInt8
  | .date, .int n => ofNat 3 n.toNat
  | .varString len, .str bytes =>
      if len < 256 then UInt8.ofNat bytes.length :: bytes
      else ofNat 2 bytes.length ++ bytes
  | _, .str bytes => bytes
  | t, .int n => ofInt t.declared n

/-- A string of 1 to 255 bytes in a VARSTRING column whose prefix has two
bytes: the encoded column is shorter than 258 bytes all the same. -/
def ShortInWide : FieldType → Field → Prop
  | .varString len, .str bytes => 256 ≤ len ∧ 0 < bytes.length ∧ bytes.length < 256
  | _, _ => False

instance (t : FieldType) (f : Field) : Decidable (t.ShortInWide f) := by
  cases t <;> cases f <;> unfold ShortInWide <;> infer_instance

/-- The value the decoder reads for a field. -/
def seen (t : FieldType) (f : Field) : Value :=
  if t.ShortInWide f then .string "" else f.toValue

theorem seen_of_short {t : FieldType} {f : Field} (h : t.ShortInWide f) :
    t.seen f = .string "" := if_pos h

theorem seen_of_not_short {t : FieldType} {f : Field} (h : ¬ t.ShortInWide f) :
    t.seen f = f.toValue := if_neg h

theorem encode_valid {t : FieldType} {f : Field} (ht : t.Declarable) (hf : t.Holds f) :
    LaidColumn.Valid ⟨t.mysql.code, t.declared, t.encode f⟩ := by
  cases t <;> cases f <;> simp only [Holds] at hf
  case varString.str len bytes =>
    obtain ⟨hle, -⟩ := hf
    obtain ⟨-, hmax⟩ := ht
    simp only [mysql, declared, encode]
    split
    · exact .narrow (by omega) (by simp; omega)
    · refine .wide (by omega) ?_
      exact (toNat_ofNat (n := 2) (by norm_num; omega)).symm
  case string.str len bytes =>
    exact .fixed (by simp [mysql, MySQLDataType.code]) (by simpa [encode, declared] using hf.1)
  all_goals exact .fixed (by decide) (by simp [encode, declared])

theorem encode_length_pos {t : FieldType} {f : Field} (hf : t.Holds f)
    (ht : t ≠ .string 0) : 0 < (t.encode f).length := by
  cases t <;> cases f <;> simp only [Holds] at hf
  case varString.str len bytes =>
    simp only [encode]
    split <;> simp
  case string.str len bytes =>
    have : len ≠ 0 := fun h => ht (by rw [h])
    simp only [encode]
    omega
  all_goals simp [encode, declared]

private theorem intAt_ofInt {n : Nat} {v : Int} (hlo : -(256 ^ n : Nat) ≤ v * 2)
    (hhi : v * 2 < (256 ^ n : Nat)) : intAt (ofInt n v) n = some v := by
  have htake : (ofInt n v).take n = ofInt n v := by
    rw [List.take_of_length_le (by simp)]
  simp [intAt, htake, toInt_ofInt hlo hhi]

private theorem intAt_encode {t : FieldType} {n : Int} (hf : t.Holds (.int n))
    (hdate : t ≠ .date) : intAt (t.encode (.int n)) t.declared = some n := by
  cases t <;> simp only [Holds] at hf
  case date => exact absurd rfl hdate
  all_goals exact intAt_ofInt (by norm_num [declared]; omega) (by norm_num [declared]; omega)

section VarString

variable {len : Nat} {bytes row before after : List UInt8}
  (hrow : row = before ++ (encode (.varString len) (.str bytes) ++ after))

include hrow

/-- One prefix byte: the encoded column has at most 256 bytes. -/
private theorem decodeColumn_narrow (hnarrow : len < 256) (hle : bytes.length ≤ len)
    (hnul : (0 : UInt8) ∉ bytes) :
    decodeColumn row (mysql (.varString len)).code before.length
      (encode (.varString len) (.str bytes)).length =
      some (some (.string (bytesToString bytes))) := by
  have henc : encode (.varString len) (.str bytes) =
      UInt8.ofNat bytes.length :: bytes := by simp [encode, hnarrow]
  rw [henc] at hrow ⊢
  have hread : bytesAt row (before.length + 1) ((bytes.length + 1 : Nat) - 1) = some bytes :=
    bytesAt_middle (before ++ [UInt8.ofNat bytes.length]) after
      (by simp [hrow]) (by simp) (by push_cast; omega)
  have hwidth : ((bytes.length + 1 : Nat) : Int) < 258 := by omega
  simp only [decodeColumn, mysql, MySQLDataType.ofCode?_code, List.length_cons]
  rw [if_pos hwidth, hread]
  simp [cString_of_no_nul hnul]

/-- Two prefix bytes and a short string: the second prefix byte is read as
the first character, and it is NUL. -/
private theorem decodeColumn_wide_short (hwide : ¬ len < 256) (hshort : bytes.length < 256) :
    decodeColumn row (mysql (.varString len)).code before.length
      (encode (.varString len) (.str bytes)).length = some (some (.string "")) := by
  have henc : encode (.varString len) (.str bytes) =
      UInt8.ofNat bytes.length :: 0 :: bytes := by
    have hzero : UInt8.ofNat (bytes.length / 256) = 0 := by
      rw [Nat.div_eq_of_lt hshort]
      rfl
    simp [encode, hwide, ofNat, hzero]
  rw [henc] at hrow ⊢
  have hread : bytesAt row (before.length + 1) ((bytes.length + 1 + 1 : Nat) - 1) =
      some (0 :: bytes) :=
    bytesAt_middle (before ++ [UInt8.ofNat bytes.length]) after
      (by simp [hrow]) (by simp) (by simp)
  have hempty : cString (0 :: bytes) = "" := by simp [cString, bytesToString]
  have hwidth : ((bytes.length + 1 + 1 : Nat) : Int) < 258 := by omega
  simp only [decodeColumn, mysql, MySQLDataType.ofCode?_code, List.length_cons]
  rw [if_pos hwidth, hread]
  simp [hempty]

private theorem decodeColumn_wide_long (hwide : ¬ len < 256) (hlong : ¬ bytes.length < 256)
    (hnul : (0 : UInt8) ∉ bytes) :
    decodeColumn row (mysql (.varString len)).code before.length
      (encode (.varString len) (.str bytes)).length =
      some (some (.string (bytesToString bytes))) := by
  have henc : encode (.varString len) (.str bytes) =
      UInt8.ofNat bytes.length :: UInt8.ofNat (bytes.length / 256) :: bytes := by
    simp [encode, hwide, ofNat]
  rw [henc] at hrow ⊢
  have hread : bytesAt row (before.length + 2) ((bytes.length + 1 + 1 : Nat) - 2) =
      some bytes :=
    bytesAt_middle
      (before ++ [UInt8.ofNat bytes.length, UInt8.ofNat (bytes.length / 256)]) after
      (by simp [hrow]) (by simp) (by push_cast; omega)
  have hwidth : ¬ ((bytes.length + 1 + 1 : Nat) : Int) < 258 := by omega
  simp only [decodeColumn, mysql, MySQLDataType.ofCode?_code, List.length_cons]
  rw [if_neg hwidth, hread]
  simp [cString_of_no_nul hnul]

end VarString

/-- **What the decoder reads for a field**: the field itself, and the empty
string for a short string in a wide VARSTRING column. -/
theorem decodeColumn_encode {t : FieldType} {f : Field} (ht : t.Declarable)
    (hf : t.Holds f) {row before after : List UInt8}
    (hrow : row = before ++ (t.encode f ++ after)) :
    decodeColumn row t.mysql.code before.length (t.encode f).length =
      some (some (t.seen f)) := by
  have hcopy : bytesAt row before.length (t.encode f).length = some (t.encode f) :=
    bytesAt_middle before after hrow rfl rfl
  have hholds := hf
  cases t <;> cases f <;> simp only [Holds] at hf
  case varString.str len bytes =>
    obtain ⟨hle, hnul⟩ := hf
    by_cases hnarrow : len < 256
    · have hnot : ¬ ShortInWide (.varString len) (.str bytes) := fun h => by
        have := h.1
        omega
      rw [decodeColumn_narrow hrow hnarrow hle hnul, seen_of_not_short hnot]
      rfl
    · by_cases hshort : bytes.length < 256
      · rw [decodeColumn_wide_short hrow hnarrow hshort]
        by_cases hpos : 0 < bytes.length
        · have hbad : ShortInWide (.varString len) (.str bytes) := ⟨by omega, hpos, hshort⟩
          rw [seen_of_short hbad]
        · have hnil : bytes = [] := List.eq_nil_of_length_eq_zero (by omega)
          rw [seen_of_not_short (by simp [ShortInWide, hnil]), hnil]
          rfl
      · rw [decodeColumn_wide_long hrow hnarrow hshort hnul,
          seen_of_not_short (by simp [ShortInWide, hshort])]
        rfl
  all_goals simp only [decodeColumn, mysql, MySQLDataType.ofCode?_code]
  case byte.int n | int16.int n | int32.int n | int64.int n | timestamp.int n =>
    have hread := intAt_encode hholds (by simp)
    simp only [declared] at hread
    rw [hcopy, Option.bind_eq_bind, Option.bind_some, hread,
      seen_of_not_short (by simp [ShortInWide])]
    rfl
  case date.int n =>
    have hn : toNat (ofNat 3 n.toNat) = n.toNat := toNat_ofNat (by norm_num; omega)
    have htake : (ofNat 3 n.toNat).take 3 = ofNat 3 n.toNat := by
      rw [List.take_of_length_le (by simp)]
    rw [hcopy]
    simp only [encode, Option.bind_eq_bind, Option.bind_some, ofNat_length, Nat.le_refl,
      if_true, htake, toInt_append_zero, hn]
    rw [Int.toNat_of_nonneg hf.1, seen_of_not_short (by simp [ShortInWide])]
    rfl
  case string.str len bytes =>
    rw [hcopy]
    simp [encode, seen, ShortInWide, Field.toValue, cString_of_no_nul hf.2]

end FieldType

end KetiEngine.Merging
