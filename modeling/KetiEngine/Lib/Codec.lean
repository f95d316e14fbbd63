import KetiEngine.Lib.LittleEndian

/-!
# Codec — readers of binary formats

A reader takes a value off the front of a text. `Reads r ok write` says all it
does: the values it takes off are those with `ok`, each from the text `write`
gives it and from no other. Sequences of readers and counted repetitions keep
that, so a format and its parser are put together by the same steps.
-/

namespace Codec

variable {α β γ : Type}

abbrev Reader (β α : Type) := StateT (List β) Option α

def Reads (r : Reader β α) (ok : α → Prop) (write : α → List β) : Prop :=
  ∀ input a rest, r.run input = some (a, rest) ↔ ok a ∧ input = write a ++ rest

section Rules

variable {r : Reader β α} {ok : α → Prop} {write : α → List β}

/-- A value is read back in front of every text. -/
theorem Reads.read_write (h : Reads r ok write) {a : α} (ha : ok a) (rest : List β) :
    r.run (write a ++ rest) = some (a, rest) :=
  (h _ a rest).mpr ⟨ha, rfl⟩

/-- No text begins with the encodings of two values. -/
theorem Reads.unambiguous (h : Reads r ok write) {a a' : α} (ha : ok a) (ha' : ok a')
    {rest rest' : List β} (heq : write a ++ rest = write a' ++ rest') : a = a' ∧ rest = rest' := by
  have hread := h.read_write ha rest
  rw [heq, h.read_write ha' rest'] at hread
  cases hread
  exact ⟨rfl, rfl⟩

/-- **Sequencing**: what follows a reader reads what is left of the text. -/
theorem Reads.bind_eq_some_iff (h : Reads r ok write) {k : α → Reader β γ} {input rest : List β}
    {c : γ} : (r >>= k).run input = some (c, rest) ↔
      ∃ a, ok a ∧ ∃ left, input = write a ++ left ∧ (k a).run left = some (c, rest) := by
  rw [StateT.run_bind, Option.bind_eq_bind, Option.bind_eq_some_iff]
  constructor
  · rintro ⟨⟨a, left⟩, hr, hk⟩
    obtain ⟨ha, hinput⟩ := (h _ _ _).mp hr
    exact ⟨a, ha, left, hinput, hk⟩
  · rintro ⟨a, ha, left, hinput, hk⟩
    exact ⟨(a, left), (h _ _ _).mpr ⟨ha, hinput⟩, hk⟩

theorem pure_eq_some_iff {a c : α} {input rest : List β} :
    (pure a : Reader β α).run input = some (c, rest) ↔ a = c ∧ input = rest := by
  rw [StateT.run_pure, Option.pure_def, Option.some.injEq, Prod.mk.injEq]

end Rules

/-- The next `n` items of the text. -/
def take (n : Nat) : Reader β (List β) := fun input =>
  if n ≤ input.length then some (input.take n, input.drop n) else none

theorem reads_take (n : Nat) : Reads (take n : Reader β (List β)) (·.length = n) id := by
  intro input a rest
  simp only [take, StateT.run, id_eq]
  constructor
  · intro h
    split at h
    · cases h
      exact ⟨List.length_take_of_le ‹_›, (List.take_append_drop n input).symm⟩
    · cases h
  · rintro ⟨rfl, rfl⟩
    simp

/-- `n` values, one after the other. -/
def many (r : Reader β α) : Nat → Reader β (List α)
  | 0 => pure []
  | n + 1 => do
    let a ← r
    let as ← many r n
    pure (a :: as)

theorem Reads.many {r : Reader β α} {ok : α → Prop} {write : α → List β} (h : Reads r ok write)
    (n : Nat) : Reads (many r n) (fun as => as.length = n ∧ ∀ a ∈ as, ok a) (·.flatMap write) := by
  induction n with
  | zero =>
    intro input as rest
    rw [Codec.many, pure_eq_some_iff]
    constructor
    · rintro ⟨rfl, rfl⟩
      simp
    · rintro ⟨⟨hlen, -⟩, rfl⟩
      simp [List.eq_nil_of_length_eq_zero hlen]
  | succ n ih =>
    intro input as rest
    rw [Codec.many, h.bind_eq_some_iff]
    simp only [Reads.bind_eq_some_iff ih, pure_eq_some_iff]
    constructor
    · rintro ⟨a, ha, left, rfl, as, ⟨hlen, has⟩, left', rfl, rfl, rfl⟩
      exact ⟨⟨by simp [hlen], List.forall_mem_cons.mpr ⟨ha, has⟩⟩, by simp⟩
    · rintro ⟨⟨hlen, hok⟩, rfl⟩
      obtain _ | ⟨a, as⟩ := as
      · cases hlen
      · simp only [List.mem_cons, forall_eq_or_imp] at hok
        exact ⟨a, hok.1, as.flatMap write ++ rest, by simp, as, ⟨by simpa using hlen, hok.2⟩,
          rest, rfl, rfl, rfl⟩

/-! ## Little-endian integers -/

/-- A two's-complement integer of `n` bytes. -/
def int (n : Nat) : Reader UInt8 Int := LittleEndian.toInt <$> take n

/-- The integers of `n` bytes. -/
def FitsInt (n : Nat) (v : Int) : Prop := -(256 ^ n : Nat) ≤ v * 2 ∧ v * 2 < (256 ^ n : Nat)

instance (n : Nat) (v : Int) : Decidable (FitsInt n v) := inferInstanceAs (Decidable (_ ∧ _))

theorem fitsInt_toInt (bs : List UInt8) : FitsInt bs.length (LittleEndian.toInt bs) := by
  have hpos : 0 < 256 ^ bs.length := Nat.pow_pos (by decide)
  refine ⟨?_, ?_⟩
  · have := Int.le_bmod (x := (LittleEndian.toNat bs : Int)) hpos
    rw [LittleEndian.toInt]
    omega
  · have := Int.bmod_lt (x := (LittleEndian.toNat bs : Int)) hpos
    rw [LittleEndian.toInt]
    omega

theorem ofInt_toInt (bs : List UInt8) :
    LittleEndian.ofInt bs.length (LittleEndian.toInt bs) = bs := by
  obtain ⟨hlo, hhi⟩ := fitsInt_toInt bs
  rw [← LittleEndian.toInt_inj (LittleEndian.ofInt_length ..), LittleEndian.toInt_ofInt hlo hhi]

theorem reads_int (n : Nat) : Reads (int n) (FitsInt n) (LittleEndian.ofInt n) := by
  intro input v rest
  rw [int, map_eq_pure_bind, (reads_take n).bind_eq_some_iff]
  simp only [pure_eq_some_iff, id_eq]
  constructor
  · rintro ⟨bs, rfl, left, rfl, rfl, rfl⟩
    exact ⟨fitsInt_toInt bs, by rw [ofInt_toInt]⟩
  · rintro ⟨⟨hlo, hhi⟩, rfl⟩
    exact ⟨LittleEndian.ofInt n v, LittleEndian.ofInt_length .., rest, rfl,
      LittleEndian.toInt_ofInt hlo hhi, rfl⟩

end Codec
