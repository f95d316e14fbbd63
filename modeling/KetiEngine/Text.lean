import KetiEngine.Double
import Mathlib.Data.List.DropRight
import Mathlib.Data.List.Infix

/-!
# Text — the `std::string` operations the engine uses

A `std::string` is a byte string; byte `b` is the character with code `b`,
so the order of two strings is the order of their bytes. A position or a
count that C++ takes as `size_t` is an `Int` here, and a negative one is
the huge `size_t` it converts to.
-/

namespace KetiEngine

/-- The character standing for a byte of a `std::string`. -/
def byteChar (b : UInt8) : Char := Char.ofNat b.toNat

/-- The `std::string` holding exactly these bytes. -/
def bytesToString (bs : List UInt8) : String := String.ofList (bs.map byteChar)

/-- `string(const char*)`: the bytes before the first NUL. -/
def cString (bs : List UInt8) : String :=
  bytesToString (bs.takeWhile (· ≠ 0))

/-- The characters `" \t\n\r\f\v"` that `trim` strips. -/
def isBlank (c : Char) : Bool :=
  c = ' ' || c = '\t' || c = '\n' || c = '\r' || c = '\x0c' || c = '\x0b'

def rtrim (s : String) : String := String.ofList (s.toList.rdropWhile isBlank)

def ltrim (s : String) : String := String.ofList (s.toList.dropWhile isBlank)

def trim (s : String) : String := ltrim (rtrim s)

/-- `s.substr(pos, n)`; it throws when `pos` is past the end. -/
def substr (s : String) (pos n : Int) : Option String :=
  if pos < 0 ∨ (s.length : Int) < pos then none
  else
    let tail := s.toList.drop pos.toNat
    some (String.ofList (if n < 0 then tail else tail.take n.toNat))

/-- `s.find(t) != string::npos`. -/
def contains (s t : String) : Bool := t.toList <:+: s.toList

/-! ## Numbers in text -/

def digitsVal (ds : List Char) : Nat :=
  ds.foldl (fun n c => 10 * n + (c.toNat - '0'.toNat)) 0

/-- An optional sign: whether it is a minus, and what follows. -/
def splitSign : List Char → Bool × List Char
  | '-' :: rest => (true, rest)
  | '+' :: rest => (false, rest)
  | cs => (false, cs)

/-- `stoi`: blanks, a sign and the longest run of digits; it throws when
there is no digit and when the number is no `int`. -/
def stoi (s : String) : Option Int :=
  let (negative, cs) := splitSign (s.toList.dropWhile isBlank)
  let ds := cs.takeWhile Char.isDigit
  if ds = [] then none
  else
    let n : Int := if negative then -(digitsVal ds : Int) else digitsVal ds
    if -2 ^ 31 ≤ n ∧ n < 2 ^ 31 then some n else none

/-- The exponent part `e[sign]digits`; without digits it is no exponent. -/
def stodExponent : List Char → Int
  | c :: cs =>
      if c = 'e' ∨ c = 'E' then
        let (negative, rest) := splitSign cs
        let ds := rest.takeWhile Char.isDigit
        if negative then -(digitsVal ds : Int) else digitsVal ds
      else 0
  | [] => 0

/-- `stod` on decimal notation; it throws when the number is too large for a
`double`, and when it is too small to be one exactly. Hexadecimal notation and
the spellings of NaN and infinity, which no numeric literal of a query has,
are left out. -/
def stod (s : String) : Option Double :=
  let (negative, cs) := splitSign (s.toList.dropWhile isBlank)
  let whole := cs.takeWhile Char.isDigit
  let rest := cs.dropWhile Char.isDigit
  let frac := match rest with
    | '.' :: ds => ds.takeWhile Char.isDigit
    | _ => []
  let rest := match rest with
    | '.' :: ds => ds.dropWhile Char.isDigit
    | _ => rest
  if whole = [] ∧ frac = [] then none
  else if rest.head? = some 'x' ∨ rest.head? = some 'X' then none
  else
    let mantissa : ℚ := (digitsVal (whole ++ frac) : ℚ) / 10 ^ frac.length
    let e := stodExponent rest
    let q : ℚ := if e < 0 then mantissa / 10 ^ e.natAbs else mantissa * 10 ^ e.natAbs
    let rounded := Double.nearest 52 (-1074) q
    if 2 ^ 1024 ≤ rounded ∨ q < 2 ^ (-1022 : Int) ∧ rounded ≠ q then none
    else some (.fin (if negative then -q else q))

/-- `stof`: `stod` rounded to a `float`. It throws when the number is too
large for one, and when it is too small to be one exactly. -/
def stof (s : String) : Option Double :=
  match stod s with
  | some (.fin q) =>
      match Double.toFloat (.fin q) with
      | .fin x => if |q| < 2 ^ (-126 : Int) ∧ x ≠ q then none else some (.fin x)
      | _ => none
  | _ => none

/-- `countDecimalPlaces`: the characters after the first dot. -/
def countDecimalPlaces (number : String) : Int :=
  match number.toList.dropWhile (· ≠ '.') with
  | [] => 0
  | _ :: places => places.length

/-! ## `to_string` -/

/-- `q` in units of `10⁻⁶`, halves rounded to the even neighbour. -/
def roundMicro (q : ℚ) : Nat :=
  let scaled : ℚ := q * 10 ^ 6
  let n : Nat := scaled.floor.toNat
  let rest : ℚ := scaled - n
  if rest < 1 / 2 then n
  else if 1 / 2 < rest then n + 1
  else if n % 2 = 0 then n else n + 1

/-- `to_string(double)`, the `"%f"` format. -/
def Double.toText : Double → String
  | .nan => "nan"
  | .inf s => if s then "-inf" else "inf"
  | .fin q =>
      let n := roundMicro (if q < 0 then -q else q)
      let frac := toString (n % 10 ^ 6)
      (if q < 0 then "-" else "") ++ toString (n / 10 ^ 6) ++ "."
        ++ String.ofList (List.replicate (6 - frac.length) '0') ++ frac

example : trim " ab c\n" = "ab c" := by decide

example : stoi " -12x" = some (-12) ∧ stoi "2147483648" = none := by decide

/-! ## Facts -/

theorem byteChar_injective : Function.Injective byteChar := by
  intro a b h
  have hv : ∀ x : UInt8, (byteChar x).toNat = x.toNat := by
    intro x
    have hx : x.toNat < 256 := x.toNat_lt
    have hvalid : x.toNat.isValidChar := by left; omega
    have hchar : byteChar x = Char.ofNatAux x.toNat hvalid := dif_pos hvalid
    rw [hchar]
    rfl
  exact UInt8.toNat_inj.mp (by rw [← hv a, ← hv b, h])

theorem bytesToString_injective : Function.Injective bytesToString := by
  intro a b h
  have h' : a.map byteChar = b.map byteChar := by
    simpa [bytesToString] using congrArg String.toList h
  exact List.map_injective_iff.mpr byteChar_injective h'

theorem cString_of_no_nul {bs : List UInt8} (h : (0 : UInt8) ∉ bs) :
    cString bs = bytesToString bs := by
  unfold cString
  congr 1
  rw [List.takeWhile_eq_self_iff]
  intro b hb
  simp only [ne_eq, decide_not, Bool.not_eq_eq_eq_not, Bool.not_true,
    decide_eq_false_iff_not]
  exact fun h0 => h (h0 ▸ hb)

/-- A trimmed string begins and ends with no blank. -/
theorem trim_trim (s : String) : trim (trim s) = trim s := by
  have hmid : ∀ l : List Char,
      ((l.rdropWhile isBlank).dropWhile isBlank).rdropWhile isBlank =
        (l.rdropWhile isBlank).dropWhile isBlank := by
    intro l
    rw [List.rdropWhile_eq_self_iff]
    intro hne
    have hsuffix := List.dropWhile_suffix (l := l.rdropWhile isBlank) isBlank
    have hne' : l.rdropWhile isBlank ≠ [] := fun h => hne (by simp [h])
    rw [hsuffix.getLast hne]
    exact List.rdropWhile_last_not isBlank l hne'
  unfold trim ltrim rtrim
  simp only [String.toList_ofList]
  rw [hmid, List.dropWhile_idempotent]

theorem toList_natText (n : Nat) : (toString n).toList = Nat.toDigits 10 n :=
  Nat.toList_repr

theorem intText_neg (n : Nat) : toString (Int.negSucc n) = "-" ++ toString (n + 1) := rfl

/-- `to_string(int)` writes a sign and digits only. -/
theorem mem_intText {n : Int} {c : Char} (h : c ∈ (toString n).toList) :
    c = '-' ∨ c.isDigit := by
  cases n with
  | ofNat n =>
    have h' : c ∈ (toString n).toList := h
    rw [toList_natText] at h'
    exact .inr (Nat.isDigit_of_mem_toDigits (by decide) (by decide) h')
  | negSucc n =>
    rw [intText_neg, String.toList_append, toList_natText, List.mem_append] at h
    rcases h with h | h
    · exact .inl (by simpa using h)
    · exact .inr (Nat.isDigit_of_mem_toDigits (by decide) (by decide) h)

theorem natText_injective {m n : Nat} (h : (toString m).toList = (toString n).toList) : m = n := by
  rw [toList_natText, toList_natText] at h
  rw [← Nat.ofDigitChars_ten_toDigits (n := m), h, Nat.ofDigitChars_ten_toDigits]

theorem intText_injective {m n : Int} (h : toString m = toString n) : m = n := by
  have hsign : ∀ k l : Nat, (toString k).toList ≠ '-' :: (toString l).toList := by
    intro k l he
    have hmem : '-' ∈ (toString k).toList := by rw [he]; simp
    rw [toList_natText] at hmem
    exact absurd (Nat.isDigit_of_mem_toDigits (by decide) (by decide) hmem) (by decide)
  have hlist := congrArg String.toList h
  cases m with
  | ofNat m =>
    cases n with
    | ofNat n => exact congrArg Int.ofNat (natText_injective hlist)
    | negSucc n =>
      rw [intText_neg, String.toList_append] at hlist
      exact absurd hlist (hsign m (n + 1))
  | negSucc m =>
    cases n with
    | ofNat n =>
      rw [intText_neg, String.toList_append] at hlist
      exact absurd hlist.symm (hsign n (m + 1))
    | negSucc n =>
      rw [intText_neg, intText_neg, String.toList_append, String.toList_append] at hlist
      have := natText_injective (List.append_cancel_left hlist)
      omega

end KetiEngine
