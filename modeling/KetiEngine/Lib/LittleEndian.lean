import Mathlib.Data.Nat.Notation
import Mathlib.Tactic.Ring

/-!
# Little-endian integers

Unsigned and two's-complement integers as byte lists, least significant
byte first. The width of a number is the length of its byte list.
-/

namespace LittleEndian

/-- The unsigned value of a byte list. -/
def toNat : List UInt8 → Nat
  | [] => 0
  | b :: bs => b.toNat + 256 * toNat bs

/-- The `n` low bytes of `v`. -/
def ofNat : Nat → Nat → List UInt8
  | 0, _ => []
  | n + 1, v => UInt8.ofNat v :: ofNat n (v / 256)

/-- The two's-complement value of a byte list. -/
def toInt (bs : List UInt8) : Int := (toNat bs : Int).bmod (256 ^ bs.length)

/-- The two's-complement representation of `v` in `n` bytes. -/
def ofInt (n : Nat) (v : Int) : List UInt8 := ofNat n (v % (256 ^ n : Nat)).toNat

@[simp] theorem ofNat_length (n v : Nat) : (ofNat n v).length = n := by
  induction n generalizing v with
  | zero => rfl
  | succ n ih => simp [ofNat, ih]

@[simp] theorem ofInt_length (n : Nat) (v : Int) : (ofInt n v).length = n :=
  ofNat_length ..

theorem toNat_lt (bs : List UInt8) : toNat bs < 256 ^ bs.length := by
  induction bs with
  | nil => simp [toNat]
  | cons b bs ih =>
    have hb : b.toNat < 256 := b.toNat_lt
    simp only [toNat, List.length_cons, Nat.pow_succ]
    omega

theorem toNat_ofNat {n v : Nat} (h : v < 256 ^ n) : toNat (ofNat n v) = v := by
  induction n generalizing v with
  | zero =>
    have : v = 0 := by simpa using h
    simp [ofNat, toNat, this]
  | succ n ih =>
    have hdiv : v / 256 < 256 ^ n := by
      rw [Nat.pow_succ] at h
      omega
    have hlow : (UInt8.ofNat v).toNat = v % 256 := by simp
    simp only [ofNat, toNat, ih hdiv, hlow]
    omega

/-- Reading back a two's-complement number that fits its width. -/
theorem toInt_ofInt {n : Nat} {v : Int} (hlo : -(256 ^ n : Nat) ≤ v * 2)
    (hhi : v * 2 < (256 ^ n : Nat)) : toInt (ofInt n v) = v := by
  have hpos : (0 : Int) < (256 ^ n : Nat) :=
    Int.natCast_pos.mpr (Nat.pow_pos (by decide))
  have hnonneg : 0 ≤ v % (256 ^ n : Nat) := Int.emod_nonneg _ (by omega)
  have hlt : v % (256 ^ n : Nat) < (256 ^ n : Nat) := Int.emod_lt_of_pos _ hpos
  have hback : toNat (ofInt n v) = (v % (256 ^ n : Nat)).toNat :=
    toNat_ofNat (by omega)
  rw [toInt, ofInt_length, hback, Int.toNat_of_nonneg hnonneg, Int.emod_bmod]
  exact Int.bmod_eq_of_le_mul_two hlo hhi

/-- Zero bytes above the top of an unsigned number do not change it. -/
theorem toNat_append_zero (bs : List UInt8) : toNat (bs ++ [0]) = toNat bs := by
  induction bs with
  | nil => rfl
  | cons b bs ih => simp [toNat, ih]

/-- A number whose top byte is zero is its unsigned value. -/
theorem toInt_append_zero (bs : List UInt8) :
    toInt (bs ++ [0]) = (toNat bs : Int) := by
  have hlt := toNat_lt bs
  rw [toInt, toNat_append_zero]
  apply Int.bmod_eq_of_le_mul_two
  · have : (0 : Int) ≤ (256 ^ (bs ++ [0]).length : Nat) := Int.natCast_nonneg _
    omega
  · have hpow : 256 ^ (bs ++ [0]).length = 256 ^ bs.length * 256 := by
      simp [pow_succ]
    rw [hpow]
    generalize 256 ^ bs.length = m at hlt ⊢
    push_cast
    omega

/-- Byte lists of one length are told apart by their values. -/
theorem toNat_inj {bs bs' : List UInt8} (hlen : bs.length = bs'.length) :
    toNat bs = toNat bs' ↔ bs = bs' := by
  refine ⟨fun h => ?_, fun h => h ▸ rfl⟩
  induction bs generalizing bs' with
  | nil => exact (List.eq_nil_of_length_eq_zero hlen.symm).symm
  | cons b bs ih =>
    cases bs' with
    | nil => simp at hlen
    | cons b' bs' =>
      have hb : b.toNat < 256 := b.toNat_lt
      have hb' : b'.toNat < 256 := b'.toNat_lt
      simp only [toNat] at h
      rw [ih (by simpa using hlen) (by omega), UInt8.toNat_inj.mp (by omega : b.toNat = b'.toNat)]

theorem toInt_emod (bs : List UInt8) : toInt bs % (256 ^ bs.length : Nat) = toNat bs := by
  have hlt := toNat_lt bs
  rw [toInt, Int.bmod_emod]
  exact Int.emod_eq_of_lt (by omega) (by omega)

theorem toInt_inj {bs bs' : List UInt8} (hlen : bs.length = bs'.length) :
    toInt bs = toInt bs' ↔ bs = bs' := by
  refine ⟨fun h => (toNat_inj hlen).mp ?_, fun h => h ▸ rfl⟩
  have hmod := toInt_emod bs
  rw [h, hlen, toInt_emod] at hmod
  omega

end LittleEndian
