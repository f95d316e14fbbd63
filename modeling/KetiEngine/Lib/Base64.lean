import Mathlib.Algebra.Order.Floor.Div

/-!
# Base64 — bytes as digits of six bits

Three bytes are four digits, over any alphabet of 64 characters; the last
group of one or two bytes is filled up with a padding character. The decoder
reads such groups back, a padded one in the last place only, and rejects a
last digit whose unused bits are not zero.
-/

namespace Base64

variable {χ : Type*}

/-! ## Encoding -/

section Encode
variable (digit : Nat → χ) (pad : χ)

def encode : List UInt8 → List χ
  | [] => []
  | [a] => [digit (a.toNat / 4), digit (a.toNat % 4 * 16), pad, pad]
  | [a, b] =>
      [digit (a.toNat / 4), digit (a.toNat % 4 * 16 + b.toNat / 16),
        digit (b.toNat % 16 * 4), pad]
  | a :: b :: c :: rest =>
      digit (a.toNat / 4) :: digit (a.toNat % 4 * 16 + b.toNat / 16) ::
        digit (b.toNat % 16 * 4 + c.toNat / 64) :: digit (c.toNat % 64) :: encode rest

/-- How many characters fill up the last group. -/
def padding (n : Nat) : Nat := (3 - n % 3) % 3

theorem length_encode (bytes : List UInt8) :
    (encode digit pad bytes).length = 4 * (bytes.length ⌈/⌉ 3) := by
  rw [Nat.ceilDiv_eq_add_pred_div]
  induction bytes using encode.induct with
  | case1 | case2 | case3 => simp [encode]
  | case4 a b c rest ih =>
    simp only [encode, List.length_cons, ih]
    omega

/-- The encoding is digits, and then the padding. -/
theorem encode_eq_append (bytes : List UInt8) :
    ∃ digits, encode digit pad bytes = digits ++ List.replicate (padding bytes.length) pad ∧
      ∀ c ∈ digits, ∃ n < 64, c = digit n := by
  have hbyte : ∀ a : UInt8, a.toNat < 256 := UInt8.toNat_lt
  induction bytes using encode.induct with
  | case1 => exact ⟨[], rfl, by simp⟩
  | case2 a =>
    refine ⟨[_, _], rfl, ?_⟩
    simp only [List.forall_mem_cons, List.not_mem_nil, false_imp_iff, implies_true, and_true]
    exact ⟨⟨_, by have := hbyte a; omega, rfl⟩, _, by omega, rfl⟩
  | case3 a b =>
    refine ⟨[_, _, _], rfl, ?_⟩
    simp only [List.forall_mem_cons, List.not_mem_nil, false_imp_iff, implies_true, and_true]
    exact ⟨⟨_, by have := hbyte a; omega, rfl⟩, ⟨_, by have := hbyte b; omega, rfl⟩, _,
      by omega, rfl⟩
  | case4 a b c rest ih =>
    obtain ⟨digits, hencode, hdigits⟩ := ih
    have hpadding : padding (a :: b :: c :: rest).length = padding rest.length := by
      simp only [padding, List.length_cons]
      omega
    refine ⟨_ :: _ :: _ :: _ :: digits, by rw [hpadding, encode, hencode]; rfl, ?_⟩
    simp only [List.forall_mem_cons]
    exact ⟨⟨_, by have := hbyte a; omega, rfl⟩, ⟨_, by have := hbyte b; omega, rfl⟩,
      ⟨_, by have := hbyte c; omega, rfl⟩, ⟨_, by omega, rfl⟩, hdigits⟩

end Encode

/-! ## Decoding -/

section Decode
variable [DecidableEq χ] (value? : χ → Option Nat) (pad : χ)

/-- The bytes of one group of four characters. -/
def decodeGroup (c₀ c₁ c₂ c₃ : χ) : Option (List UInt8) := do
  let w ← value? c₀
  let x ← value? c₁
  if c₂ = pad ∧ c₃ = pad then
    if x % 16 = 0 then pure [UInt8.ofNat (w * 4 + x / 16)] else none
  else do
    let y ← value? c₂
    if c₃ = pad then
      if y % 4 = 0 then
        pure [UInt8.ofNat (w * 4 + x / 16), UInt8.ofNat (x % 16 * 16 + y / 4)]
      else none
    else do
      let z ← value? c₃
      pure [UInt8.ofNat (w * 4 + x / 16), UInt8.ofNat (x % 16 * 16 + y / 4),
        UInt8.ofNat (y % 4 * 64 + z)]

def decode : List χ → Option (List UInt8)
  | [] => some []
  | c₀ :: c₁ :: c₂ :: c₃ :: rest => do
      let bytes ← decodeGroup value? pad c₀ c₁ c₂ c₃
      if bytes.length = 3 ∨ rest = [] then (decode rest).map (bytes ++ ·) else none
  | _ => none

end Decode

/-! ## The round trip -/

section RoundTrip
variable {digit : Nat → χ} {value? : χ → Option Nat} {pad : χ}
  (hdigit : ∀ n < 64, value? (digit n) = some n) (hpad : value? pad = none)
include hdigit hpad

theorem digit_ne_pad {n : Nat} (hn : n < 64) : digit n ≠ pad := by
  intro h
  have hvalue := hdigit n hn
  rw [h, hpad] at hvalue
  cases hvalue

variable [DecidableEq χ]

theorem decodeGroup_four {w x y z : Nat} (hw : w < 64) (hx : x < 64) (hy : y < 64) (hz : z < 64) :
    decodeGroup value? pad (digit w) (digit x) (digit y) (digit z) =
      some [UInt8.ofNat (w * 4 + x / 16), UInt8.ofNat (x % 16 * 16 + y / 4),
        UInt8.ofNat (y % 4 * 64 + z)] := by
  have hne := digit_ne_pad hdigit hpad hz
  simp [decodeGroup, hdigit w hw, hdigit x hx, hdigit y hy, hdigit z hz, hne]

theorem decodeGroup_three {w x y : Nat} (hw : w < 64) (hx : x < 64) (hy : y < 64)
    (hzero : y % 4 = 0) :
    decodeGroup value? pad (digit w) (digit x) (digit y) pad =
      some [UInt8.ofNat (w * 4 + x / 16), UInt8.ofNat (x % 16 * 16 + y / 4)] := by
  have hne := digit_ne_pad hdigit hpad hy
  simp [decodeGroup, hdigit w hw, hdigit x hx, hdigit y hy, hne, hzero]

variable (pad) in
omit hpad in
theorem decodeGroup_two {w x : Nat} (hw : w < 64) (hx : x < 64) (hzero : x % 16 = 0) :
    decodeGroup value? pad (digit w) (digit x) pad pad =
      some [UInt8.ofNat (w * 4 + x / 16)] := by
  simp [decodeGroup, hdigit w hw, hdigit x hx, hzero]

/-- **The round trip** over an alphabet whose digits have their values. -/
theorem decode_encode (bytes : List UInt8) :
    decode value? pad (encode digit pad bytes) = some bytes := by
  have hbyte : ∀ a : UInt8, a.toNat < 256 := UInt8.toNat_lt
  have hofNat : ∀ (a : UInt8) (n : Nat), n = a.toNat → UInt8.ofNat n = a := by
    rintro a n rfl
    exact UInt8.ofNat_toNat
  induction bytes using encode.induct with
  | case1 => rfl
  | case2 a =>
    have ha := hbyte a
    have hgroup := decodeGroup_two pad hdigit (w := a.toNat / 4) (x := a.toNat % 4 * 16)
      (by omega) (by omega) (by omega)
    rw [hofNat a _ (by omega)] at hgroup
    simp [encode, decode, hgroup]
  | case3 a b =>
    have ha := hbyte a
    have hb := hbyte b
    have hgroup := decodeGroup_three hdigit hpad (w := a.toNat / 4)
      (x := a.toNat % 4 * 16 + b.toNat / 16) (y := b.toNat % 16 * 4)
      (by omega) (by omega) (by omega) (by omega)
    rw [hofNat a _ (by omega), hofNat b _ (by omega)] at hgroup
    simp [encode, decode, hgroup]
  | case4 a b c rest ih =>
    have ha := hbyte a
    have hb := hbyte b
    have hc := hbyte c
    have hgroup := decodeGroup_four hdigit hpad (w := a.toNat / 4)
      (x := a.toNat % 4 * 16 + b.toNat / 16) (y := b.toNat % 16 * 4 + c.toNat / 64)
      (z := c.toNat % 64) (by omega) (by omega) (by omega) (by omega)
    rw [hofNat a _ (by omega), hofNat b _ (by omega), hofNat c _ (by omega)] at hgroup
    simp [encode, decode, hgroup, ih]

theorem encode_injective : Function.Injective (encode digit pad) := by
  intro a b h
  have hdecode := decode_encode hdigit hpad a
  rw [h, decode_encode hdigit hpad b] at hdecode
  exact (Option.some.inj hdecode).symm

end RoundTrip

/-! ## The standard alphabet -/

/-- The value of a character of the standard alphabet. -/
def standardValue? (c : Char) : Option Nat :=
  if 'A' ≤ c ∧ c ≤ 'Z' then some (c.toNat - 'A'.toNat)
  else if 'a' ≤ c ∧ c ≤ 'z' then some (c.toNat - 'a'.toNat + 26)
  else if '0' ≤ c ∧ c ≤ '9' then some (c.toNat - '0'.toNat + 52)
  else if c = '+' then some 62
  else if c = '/' then some 63
  else none

end Base64
