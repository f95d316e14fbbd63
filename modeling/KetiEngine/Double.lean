import Mathlib.Algebra.Order.Ring.Rat
import Mathlib.Algebra.Field.Rat
import Mathlib.Algebra.BigOperators.Group.List.Basic
import Mathlib.Data.Int.Log
import Mathlib.Data.Rat.Floor

/-!
# Double — the `double` cells of a FLOAT column

A finite `double` is taken as the exact rational it denotes, so arithmetic
is exact and does not round; NaN and the infinities are kept apart, because
the comparisons and the C++ conversions treat them differently. The two
zeros are one value.
-/

namespace KetiEngine

inductive Double where
  | nan
  | inf (negative : Bool)
  | fin (q : ℚ)
  deriving DecidableEq

namespace Double

instance : Inhabited Double := ⟨.fin 0⟩

/-- An integer as an operand of `double` arithmetic, which is exact. -/
def ofInt (n : Int) : Double := .fin n

def neg : Double → Double
  | .nan => .nan
  | .inf s => .inf !s
  | .fin q => .fin (-q)

def add : Double → Double → Double
  | .nan, _ => .nan
  | _, .nan => .nan
  | .inf s, .inf t => if s = t then .inf s else .nan
  | .inf s, .fin _ => .inf s
  | .fin _, .inf t => .inf t
  | .fin p, .fin q => .fin (p + q)

def sub (a b : Double) : Double := add a (neg b)

/-- The sign of an infinite product or quotient, `none` at a zero factor. -/
def signOf (q : ℚ) : Option Bool :=
  if q < 0 then some true else if 0 < q then some false else none

/-- An infinity of sign `s` times a factor whose sign is `t`. -/
def infTimes (s : Bool) : Option Bool → Double
  | some t => .inf (s != t)
  | none => .nan

def mul : Double → Double → Double
  | .nan, _ => .nan
  | _, .nan => .nan
  | .inf s, .inf t => .inf (s != t)
  | .inf s, .fin q => infTimes s (signOf q)
  | .fin p, .inf t => infTimes t (signOf p)
  | .fin p, .fin q => .fin (p * q)

def div : Double → Double → Double
  | .nan, _ => .nan
  | _, .nan => .nan
  | .inf _, .inf _ => .nan
  | .inf s, .fin q => infTimes s (some ((signOf q).getD false))
  | .fin _, .inf _ => .fin 0
  | .fin p, .fin q => if q = 0 then infTimes false (signOf p) else .fin (p / q)

/-- `<` of two doubles: false as soon as one side is NaN. -/
def blt : Double → Double → Bool
  | .nan, _ => false
  | _, .nan => false
  | .inf s, .inf t => s && !t
  | .inf s, .fin _ => s
  | .fin _, .inf t => !t
  | .fin p, .fin q => p < q

/-- `==` of two doubles: NaN differs from everything. -/
def beq : Double → Double → Bool
  | .nan, _ => false
  | a, b => a = b

theorem beq_comm (a b : Double) : a.beq b = b.beq a := by
  cases a <;> cases b <;> simp [beq, eq_comm]

/-- `<=` of two doubles. -/
def ble (a b : Double) : Bool := blt a b || beq a b

/-- Conversion to `int64_t`: truncation towards zero. Outside the range the
conversion is undefined in C++; the value is the one x86-64 leaves. -/
def toInt64 : Double → Int
  | .fin q =>
      let t := Int.tdiv q.num q.den
      if -2 ^ 63 ≤ t ∧ t < 2 ^ 63 then t else -2 ^ 63
  | _ => -2 ^ 63

/-- `q` as an integer, halves rounded to the even neighbour. -/
def roundEven (q : ℚ) : Int :=
  let rest : ℚ := q - q.floor
  if rest < 1 / 2 then q.floor
  else if 1 / 2 < rest then q.floor + 1
  else if q.floor % 2 = 0 then q.floor else q.floor + 1

/-- The nearest number with `fraction` bits after the leading one, the last
worth at least `2 ^ least`. -/
def nearest (fraction least : Int) (q : ℚ) : ℚ :=
  let expo : Int := max (Int.log 2 |q| - fraction) least
  roundEven (q / 2 ^ expo) * 2 ^ expo

/-- `static_cast<double>` of an `int64_t`: 53 significant bits. -/
def ofInt64 (n : Int) : Double := .fin (nearest 52 (-1074) n)

/-- Conversion to `float`: 24 significant bits, the last worth at least
`2⁻¹⁴⁹`. -/
def toFloat : Double → Double
  | .fin q =>
      let rounded := nearest 23 (-149) q
      if 2 ^ 128 ≤ |rounded| then .inf (q < 0) else .fin rounded
  | x => x

/-- An IEEE 754 bit pattern with `e` exponent and `m` fraction bits. -/
def ofBits (e m : Nat) (bits : Nat) : Double :=
  let frac := bits % 2 ^ m
  let expo := bits / 2 ^ m % 2 ^ e
  let negative : Bool := bits / 2 ^ (m + e) % 2 = 1
  let bias := 2 ^ (e - 1) - 1
  if expo = 2 ^ e - 1 then
    if frac = 0 then .inf negative else .nan
  else
    let magnitude : ℚ :=
      if expo = 0 then (frac : ℚ) * 2 / 2 ^ (bias + m)
      else (2 ^ m + frac : ℚ) * 2 ^ expo / 2 ^ (bias + m)
    .fin (if negative then -magnitude else magnitude)

@[simp] theorem add_fin (p q : ℚ) : add (.fin p) (.fin q) = .fin (p + q) := rfl

theorem add_comm (a b : Double) : add a b = add b a := by
  cases a with
  | nan => cases b <;> rfl
  | inf s =>
    cases b with
    | inf t => cases s <;> cases t <;> rfl
    | nan => rfl
    | fin q => rfl
  | fin p =>
    cases b with
    | fin q => simp [Rat.add_comm]
    | nan => rfl
    | inf t => rfl

theorem add_assoc (a b c : Double) : add (add a b) c = add a (add b c) := by
  cases a with
  | nan => cases b <;> cases c <;> rfl
  | inf s =>
    cases b with
    | nan => cases c <;> rfl
    | inf t =>
      cases c with
      | nan => cases s <;> cases t <;> rfl
      | inf u => cases s <;> cases t <;> cases u <;> rfl
      | fin q => cases s <;> cases t <;> rfl
    | fin p =>
      cases c with
      | nan => rfl
      | inf u => cases s <;> cases u <;> rfl
      | fin q => rfl
  | fin p =>
    cases b with
    | nan => cases c <;> rfl
    | inf t =>
      cases c with
      | nan => rfl
      | inf u => cases t <;> cases u <;> rfl
      | fin q => rfl
    | fin q =>
      cases c with
      | nan => rfl
      | inf u => rfl
      | fin r => simp [Rat.add_assoc]

theorem zero_add (a : Double) : add (.fin 0) a = a := by
  cases a with
  | nan => rfl
  | inf s => rfl
  | fin q => simp

instance : Zero Double := ⟨.fin 0⟩

instance : Add Double := ⟨add⟩

/-- Addition of doubles, infinities and NaN included, is commutative and
associative: a sum does not depend on the order of its summands. -/
instance : AddCommMonoid Double where
  add_assoc := add_assoc
  zero_add := zero_add
  add_zero a := (add_comm a _).trans (zero_add a)
  add_comm := add_comm
  nsmul := nsmulRec

theorem add_def (a b : Double) : a + b = add a b := rfl

end Double

end KetiEngine
