import KetiEngine.Merging.Block

/-!
# DecimalSign — negative decimals

A negative decimal is stored as the complement of its bytes. The decoder takes
the complement of seven of them back, which is all of them only where the
fraction is a single byte.
-/

namespace KetiEngine.Merging

open KetiEngine

/-! ## The two branches -/

/-- The integer part, from six bytes of which the first has its top bit set. -/
def decimalInteger (integer : List UInt8) : ℚ :=
  LittleEndian.toInt ((integer.modify 0 (· ^^^ 0x80)).reverse ++ [0, 0])

/-- The decoder after the complement of seven bytes was taken back. -/
def decimalMagnitude (tempbuf : List UInt8) : Option ℚ := do
  let tempbuf := tempbuf.modify 0 (· ^^^ 0x80)
  let ivalue ← intAt ((tempbuf.take 6).reverse ++ [0, 0]) 8
  let rvalue ← decimalFraction (tempbuf.drop 6)
  pure (ivalue + rvalue)

theorem decodeDecimal_positive {b : UInt8} (hb : 128 ≤ b.toNat) (bytes : List UInt8) :
    decodeDecimal (b :: bytes) = (decimalMagnitude (b :: bytes)).map Double.fin := by
  have hneg : ¬ b.toNat < 128 := by omega
  simp only [decodeDecimal, decimalMagnitude, List.head?_cons, Option.bind_eq_bind,
    Option.bind_some, hneg, if_false, Option.pure_def]
  cases intAt _ 8 with
  | none => rfl
  | some i => cases decimalFraction _ <;> rfl

theorem decodeDecimal_negative {b : UInt8} (hb : b.toNat < 128) (bytes : List UInt8) :
    decodeDecimal (b :: bytes) =
      ((complementSeven (b :: bytes)).bind decimalMagnitude).map fun x => .fin (-x) := by
  simp only [decodeDecimal, List.head?_cons, Option.bind_eq_bind, Option.bind_some, hb,
    if_true, Option.pure_def]
  cases complementSeven (b :: bytes) with
  | none => rfl
  | some t =>
    simp only [Option.bind_some, decimalMagnitude, Option.bind_eq_bind, Option.pure_def]
    cases intAt _ 8 with
    | none => rfl
    | some i => cases decimalFraction _ <;> rfl

/-- Six integer bytes and the fraction are read on their own. -/
theorem decimalMagnitude_append {integer : List UInt8} (h : integer.length = 6)
    (real : List UInt8) :
    decimalMagnitude (integer ++ real) =
      (decimalFraction real).map (decimalInteger integer + ·) := by
  have hmodify : (integer ++ real).modify 0 (· ^^^ 0x80) =
      integer.modify 0 (· ^^^ 0x80) ++ real := by
    cases integer with
    | nil => simp at h
    | cons b rest => rfl
  have hlen : (integer.modify 0 (· ^^^ 0x80)).length = 6 := by
    rw [List.length_modify, h]
  have hint : intAt ((integer.modify 0 (· ^^^ 0x80)).reverse ++ [0, 0]) 8 =
      some (LittleEndian.toInt ((integer.modify 0 (· ^^^ 0x80)).reverse ++ [0, 0])) := by
    have hlen8 : ((integer.modify 0 (· ^^^ 0x80)).reverse ++ [0, 0]).length = 8 := by
      simp [h]
    rw [intAt, if_pos (le_of_eq hlen8.symm), List.take_of_length_le (le_of_eq hlen8)]
  simp only [decimalMagnitude, hmodify, List.take_left' hlen, List.drop_left' hlen, hint,
    Option.bind_eq_bind, Option.bind_some, decimalInteger]
  cases decimalFraction real <;> rfl

/-! ## Complements -/

theorem map_complement_eq_self_iff (bytes : List UInt8) :
    bytes.map (~~~·) = bytes ↔ bytes = [] := by
  cases bytes with
  | nil => simp
  | cons b bytes => simp

/-- What the decoder makes of the complement of some bytes: the bytes after
the seventh stay as they are. -/
theorem complementSeven_complement {integer real : List UInt8} (h : integer.length = 6)
    (hreal : real ≠ []) :
    complementSeven ((integer ++ real).map (~~~·)) =
      some (integer ++ (real.take 1 ++ (real.drop 1).map (~~~·))) := by
  obtain ⟨r, rest, rfl⟩ := List.exists_cons_of_ne_nil hreal
  have htwice : ∀ bytes : List UInt8, (bytes.map (~~~·)).map (~~~·) = bytes := by
    intro bytes
    rw [List.map_map]
    exact (List.map_congr_left fun b _ => UInt8.not_not).trans (List.map_id bytes)
  have hseven : ((integer ++ r :: rest).map (~~~·)).take 7 = (integer ++ [r]).map (~~~·) := by
    simp [List.take_append, h]
  have hrest : ((integer ++ r :: rest).map (~~~·)).drop 7 = rest.map (~~~·) := by
    simp [List.drop_append, h]
  rw [complementSeven, if_pos (by simp [h]; omega), hseven, hrest, htwice]
  simp

/-- Fractions of one width are told apart by their values. -/
theorem decimalFraction_inj {real real' : List UInt8} (hlen : real.length = real'.length)
    (hwidth : real.length = 1 ∨ real.length = 2 ∨ real.length = 3) :
    decimalFraction real = decimalFraction real' ↔ real = real' := by
  refine ⟨fun h => ?_, fun h => h ▸ rfl⟩
  match real, real', hlen, hwidth, h with
  | [r₀], [s₀], _, _, h =>
    simp only [decimalFraction, Option.some.injEq] at h
    have hint : LittleEndian.toInt [r₀] = LittleEndian.toInt [s₀] := by
      field_simp at h
      exact_mod_cast h
    exact (LittleEndian.toInt_inj (by simp)).mp hint
  | [r₀, r₁], [s₀, s₁], _, _, h =>
    simp only [decimalFraction, Option.some.injEq] at h
    have hint : LittleEndian.toInt [r₀, r₁] = LittleEndian.toInt [s₀, s₁] := by
      field_simp at h
      exact_mod_cast h
    exact (LittleEndian.toInt_inj (by simp)).mp hint
  | [r₀, r₁, r₂], [s₀, s₁, s₂], _, _, h =>
    simp only [decimalFraction, Option.some.injEq] at h
    have hint : LittleEndian.toInt [r₀, r₁, r₂, 0] = LittleEndian.toInt [s₀, s₁, s₂, 0] := by
      field_simp at h
      exact_mod_cast h
    have hbytes := (LittleEndian.toInt_inj (by simp)).mp hint
    simpa using hbytes

theorem decimalFraction_isSome {real : List UInt8}
    (hwidth : real.length = 1 ∨ real.length = 2 ∨ real.length = 3) :
    ∃ q, decimalFraction real = some q := by
  match real, hwidth with
  | [_], _ => exact ⟨_, rfl⟩
  | [_, _], _ => exact ⟨_, rfl⟩
  | [_, _, _], _ => exact ⟨_, rfl⟩

/-! ## The law of signs -/

section
variable {integer real : List UInt8} {b : UInt8} (hinteger : integer.length = 6)
  (hhead : (integer ++ real).head? = some b) (htop : 128 ≤ b.toNat)
include hinteger hhead htop

/-- A positive decimal is its integer part and its fraction. -/
theorem decodeDecimal_append :
    decodeDecimal (integer ++ real) =
      (decimalFraction real).map fun q => .fin (decimalInteger integer + q) := by
  obtain ⟨rest, hcons⟩ := List.head?_eq_some_iff.mp hhead
  rw [hcons, decodeDecimal_positive htop, ← hcons, decimalMagnitude_append hinteger,
    Option.map_map]
  rfl

/-- Of the complement of a positive decimal only one byte of the fraction is
read as it was. -/
theorem decodeDecimal_complement (hreal : real ≠ []) :
    decodeDecimal ((integer ++ real).map (~~~·)) =
      (decimalFraction (real.take 1 ++ (real.drop 1).map (~~~·))).map fun q =>
        .fin (-(decimalInteger integer + q)) := by
  obtain ⟨rest, hcons⟩ := List.head?_eq_some_iff.mp hhead
  have hclear : (~~~b).toNat < 128 := by
    rw [UInt8.toNat_not, UInt8.size]
    omega
  have hbytes := complementSeven_complement hinteger hreal
  rw [hcons, List.map_cons] at hbytes ⊢
  rw [decodeDecimal_negative hclear, hbytes, Option.bind_some,
    decimalMagnitude_append hinteger, Option.map_map]
  rfl

end

/-- The complement of some bytes is decoded to the negation of what the bytes
are decoded to. -/
def SignSymmetric (tempbuf : List UInt8) : Prop :=
  ∃ x : ℚ, decodeDecimal tempbuf = some (.fin x) ∧
    decodeDecimal (tempbuf.map (~~~·)) = some (.fin (-x))

/-- **The law of signs** holds for a positive decimal exactly when its fraction
is a single byte. -/
theorem signSymmetric_iff {tempbuf : List UInt8}
    (hwidth : tempbuf.length = 7 ∨ tempbuf.length = 8 ∨ tempbuf.length = 9)
    (htop : ∃ b ∈ tempbuf.head?, 128 ≤ b.toNat) :
    SignSymmetric tempbuf ↔ tempbuf.length = 7 := by
  obtain ⟨b, hb, htop⟩ := htop
  obtain ⟨integer, real, rfl, hinteger⟩ :
      ∃ integer real, tempbuf = integer ++ real ∧ integer.length = 6 :=
    ⟨_, _, (List.take_append_drop 6 tempbuf).symm, by rw [List.length_take]; omega⟩
  simp only [List.length_append, hinteger] at hwidth ⊢
  have hreal : real.length = 1 ∨ real.length = 2 ∨ real.length = 3 := by omega
  have hne : real ≠ [] := by
    rintro rfl
    simp at hreal
  -- both fractions are read, and tell their bytes apart
  have hlen : real.length = (real.take 1 ++ (real.drop 1).map (~~~·)).length := by
    rw [List.length_append, List.length_map, ← List.length_append, List.take_append_drop]
  obtain ⟨q, hq⟩ := decimalFraction_isSome hreal
  obtain ⟨q', hq'⟩ := decimalFraction_isSome (hlen ▸ hreal)
  have hsame : SignSymmetric (integer ++ real) ↔ q = q' := by
    unfold SignSymmetric
    rw [decodeDecimal_append hinteger hb htop, decodeDecimal_complement hinteger hb htop hne,
      hq, hq']
    simp [eq_comm]
  have hfraction : q = q' ↔ real = real.take 1 ++ (real.drop 1).map (~~~·) := by
    rw [← decimalFraction_inj hlen hreal, hq, hq', Option.some.injEq]
  rw [hsame, hfraction]
  calc real = real.take 1 ++ (real.drop 1).map (~~~·)
      ↔ (real.drop 1).map (~~~·) = real.drop 1 := by
        nth_rewrite 1 [← List.take_append_drop 1 real]
        rw [List.append_cancel_left_eq, eq_comm]
    _ ↔ real.drop 1 = [] := map_complement_eq_self_iff _
    _ ↔ 6 + real.length = 7 := by
        rw [List.drop_eq_nil_iff]
        omega

/-- 1.01 and −1.01. -/
theorem signSymmetric_seven : SignSymmetric [0x80, 0, 0, 0, 0, 1, 1] :=
  (signSymmetric_iff (by decide) ⟨0x80, by decide, by decide⟩).mpr (by decide)

/-- 1.0001 has the complement of 1 − 0.0255. -/
theorem not_signSymmetric_eight :
    decodeDecimal [0x80, 0, 0, 0, 0, 1, 1, 0] = some (.fin (1.0001)) ∧
    decodeDecimal ([0x80, 0, 0, 0, 0, 1, 1, 0].map (~~~·)) = some (.fin (-0.9745)) ∧
    ¬ SignSymmetric [0x80, 0, 0, 0, 0, 1, 1, 0] := by
  have hpositive : decodeDecimal [0x80, 0, 0, 0, 0, 1, 1, 0] = some (.fin (1.0001)) := by
    decide +kernel
  have hnegative : decodeDecimal ([0x80, 0, 0, 0, 0, 1, 1, 0].map (~~~·)) =
      some (.fin (-0.9745)) := by
    decide +kernel
  refine ⟨hpositive, hnegative, ?_⟩
  rintro ⟨x, hx, hnot⟩
  rw [hpositive, Option.some.injEq, Double.fin.injEq] at hx
  rw [hnegative, Option.some.injEq, Double.fin.injEq, ← hx] at hnot
  norm_num at hnot

end KetiEngine.Merging
