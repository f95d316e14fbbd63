import KetiEngine.Lib.Base64
import KetiEngine.Offloading.Tmax

/-!
# FilterEncoding — `Base64Encode` of a pushed-down filter

`Base64Encode` takes three bytes as a block of 24 bits and writes its four
groups of six. That is base64 over the standard alphabet.
-/

namespace KetiEngine.Offloading

open KetiEngine

/-! ## The bit fields -/

/-- The block of a round, as the source puts it together. -/
def blockBits (a b c : UInt8) : UInt32 := a.toUInt32 <<< 16 ||| b.toUInt32 <<< 8 ||| c.toUInt32

theorem toNat_blockBits (a b c : UInt8) :
    (blockBits a b c).toNat = a.toNat * 2 ^ 16 + b.toNat * 2 ^ 8 + c.toNat := by
  have ha := a.toNat_lt
  have hb := b.toNat_lt
  have hc := c.toNat_lt
  have hhigh : (a.toUInt32 <<< 16).toNat = a.toNat <<< 16 := by
    simp only [UInt32.toNat_shiftLeft, UInt8.toNat_toUInt32, Nat.shiftLeft_eq]
    exact Nat.mod_eq_of_lt (by simp; omega)
  have hmiddle : (b.toUInt32 <<< 8).toNat = b.toNat <<< 8 := by
    simp only [UInt32.toNat_shiftLeft, UInt8.toNat_toUInt32, Nat.shiftLeft_eq]
    exact Nat.mod_eq_of_lt (by simp; omega)
  -- the three fields have no bit in common
  have hlow : a.toNat <<< 16 ||| b.toNat <<< 8 = (a.toNat * 2 ^ 8 + b.toNat) <<< 8 := by
    rw [← Nat.shiftLeft_add_eq_or_of_lt (by rw [Nat.shiftLeft_eq]; omega)]
    simp only [Nat.shiftLeft_eq]
    omega
  rw [blockBits, UInt32.toNat_or, UInt32.toNat_or, hhigh, hmiddle, hlow, UInt8.toNat_toUInt32,
    ← Nat.shiftLeft_add_eq_or_of_lt hc, Nat.shiftLeft_eq]
  omega

/-- `encode_table[(block >> k) & 0x3F]`. -/
theorem encodeSextet_shift (block : UInt32) {k : UInt32} (hk : k.toNat < 32) :
    encodeSextet (block.toNat / 2 ^ k.toNat) =
      encodeTable.getD (block >>> k &&& 0x3F).toNat '=' := by
  have hmask : (0x3F : UInt32).toNat = 2 ^ 6 - 1 := rfl
  rw [encodeSextet, UInt32.toNat_and, hmask, Nat.and_two_pow_sub_one_eq_mod,
    UInt32.toNat_shiftRight, Nat.shiftRight_eq_div_pow, Nat.mod_eq_of_lt hk]

/-- **A round of `Base64Encode`** with the source's shifts and masks. -/
theorem base64Block_bits (a : UInt8) (b c : Option UInt8) :
    base64Block a b c =
      let block := blockBits a (b.getD 0) (c.getD 0)
      [encodeTable.getD (block >>> 18 &&& 0x3F).toNat '=',
        encodeTable.getD (block >>> 12 &&& 0x3F).toNat '=',
        if b.isSome then encodeTable.getD (block >>> 6 &&& 0x3F).toNat '=' else '=',
        if c.isSome then encodeTable.getD (block &&& 0x3F).toNat '=' else '='] := by
  have hlast := encodeSextet_shift (blockBits a (b.getD 0) (c.getD 0)) (k := 0) (by decide)
  rw [UInt32.shiftRight_zero, UInt32.toNat_zero, Nat.pow_zero, Nat.div_one] at hlast
  unfold base64Block
  simp only [← toNat_blockBits]
  rw [← encodeSextet_shift _ (by decide), ← encodeSextet_shift _ (by decide),
    ← encodeSextet_shift _ (by decide), ← hlast]
  rfl

/-! ## The standard encoding -/

/-- The table is the standard alphabet. -/
theorem standardValue?_encodeSextet :
    ∀ n < 64, Base64.standardValue? (encodeSextet n) = some n := by
  decide +kernel

theorem encodeSextet_congr {m n : Nat} (h : m % 64 = n % 64) : encodeSextet m = encodeSextet n := by
  rw [encodeSextet, encodeSextet, h]

/-- The four groups of bits of a block, from its bytes. -/
theorem base64Block_eq (a : UInt8) (b c : Option UInt8) :
    base64Block a b c =
      [encodeSextet (a.toNat / 4),
        encodeSextet (a.toNat % 4 * 16 + (b.getD 0).toNat / 16),
        if b.isSome then encodeSextet ((b.getD 0).toNat % 16 * 4 + (c.getD 0).toNat / 64) else '=',
        if c.isSome then encodeSextet ((c.getD 0).toNat % 64) else '='] := by
  have ha := a.toNat_lt
  have hb := (b.getD 0).toNat_lt
  have hc := (c.getD 0).toNat_lt
  unfold base64Block
  refine congrArg₂ _ (encodeSextet_congr (by omega)) (congrArg₂ _ (encodeSextet_congr (by omega))
    (congrArg₂ _ ?_ (congrArg₂ _ ?_ rfl)))
  · rw [encodeSextet_congr]
    omega
  · rw [encodeSextet_congr]
    omega

/-- `Base64Encode` is the encoding of three bytes as four digits. -/
theorem base64Chars_eq (input : List UInt8) :
    base64Chars input = Base64.encode encodeSextet '=' input := by
  induction input using base64Chars.induct with
  | case1 => rfl
  | case2 a => simp [base64Chars, base64Block_eq, Base64.encode]
  | case3 a b => simp [base64Chars, base64Block_eq, Base64.encode]
  | case4 a b c rest ih => simp [base64Chars, base64Block_eq, Base64.encode, ih]

/-- The text is the standard base64 encoding of the bytes: as long as it
should be, characters of the alphabet and then the padding, and decoded to the
bytes. -/
structure StandardBase64 (input : List UInt8) (output : String) : Prop where
  length : output.length = 4 * (input.length ⌈/⌉ 3)
  padded : ∃ digits, output.toList = digits ++ List.replicate ((3 - input.length % 3) % 3) '=' ∧
    ∀ c ∈ digits, (Base64.standardValue? c).isSome
  decodes : Base64.decode Base64.standardValue? '=' output.toList = some input

/-- **`Base64Encode` is standard base64**, and so no two filters have the same
encoding. -/
theorem base64Encode_standard :
    (∀ input, StandardBase64 input (base64Encode input)) ∧ Function.Injective base64Encode := by
  constructor
  · intro input
    have htext : (base64Encode input).toList = Base64.encode encodeSextet '=' input := by
      rw [base64Encode, String.toList_ofList, base64Chars_eq]
    constructor
    case length => rw [← String.length_toList, htext, Base64.length_encode]
    case padded =>
      obtain ⟨digits, hdigits, hall⟩ := Base64.encode_eq_append encodeSextet '=' input
      refine ⟨digits, htext.trans hdigits, fun c hc => ?_⟩
      obtain ⟨n, hn, rfl⟩ := hall c hc
      rw [standardValue?_encodeSextet n hn]
      rfl
    case decodes =>
      rw [htext]
      exact Base64.decode_encode standardValue?_encodeSextet rfl input
  · intro input input' h
    have hpad : Base64.standardValue? '=' = none := rfl
    refine Base64.encode_injective standardValue?_encodeSextet hpad ?_
    rw [← base64Chars_eq, ← base64Chars_eq]
    exact String.ofList_injective h

end KetiEngine.Offloading
