import KetiEngine.Lib.Padded
import KetiEngine.TmaxLib.FilterInfo

/-!
# Conditions — `exp_eval_condition`

A condition compares the data of two columns. Data are compared byte by byte,
and data of a char type without regard to the blanks at their ends.
-/

namespace KetiEngine.TmaxLib

open KetiEngine

inductive ExpOpType where
  | none
  | or
  | and
  | not
  | equal
  | ne
  | gt
  | lt
  | ge
  | le
  | max
deriving DecidableEq

/-- The enumerator with the value, if there is one. -/
def ExpOpType.ofCode? : Int → Option ExpOpType
  | 0 => some .none
  | 1 => some .or
  | 2 => some .and
  | 3 => some .not
  | 4 => some .equal
  | 5 => some .ne
  | 6 => some .gt
  | 7 => some .lt
  | 8 => some .ge
  | 9 => some .le
  | 10 => some .max
  | _ => Option.none

/-- The difference of the first bytes that differ. -/
def firstDifference : List UInt8 → List UInt8 → Int
  | a :: l, b :: r => if a = b then firstDifference l r else a.toNat - b.toNat
  | _, _ => 0

def memcmp (l r : Pointer) (n : Nat) : Option Int :=
  if n ≤ l.length ∧ n ≤ r.length then some (firstDifference (l.take n) (r.take n)) else none

/-- The loops of `exp_eval_condition` over the `n` bytes the longer data has
more; they end at the first one that is no blank. -/
def onlyBlanks : Pointer → Nat → Option Bool
  | _, 0 => some true
  | [], _ + 1 => none
  | b :: str, n + 1 => if b ≠ ' '.toUInt8 then some false else onlyBlanks str n

/-- `cmp` for a char type, from the comparison of the common lengths. -/
def charCmp (prefixCmp : Int) (lSize rSize : Nat) (dataL dataR : Pointer) : Option Int :=
  if prefixCmp = 0 then
    if lSize < rSize then
      (onlyBlanks (dataR.drop lSize) (rSize - lSize)).map fun blank => if blank then 0 else -1
    else if lSize > rSize then
      (onlyBlanks (dataL.drop rSize) (lSize - rSize)).map fun blank => if blank then 0 else 1
    else some 0
  else some prefixCmp

/-- The switch over the operators. -/
def ExpOpType.holds : Option ExpOpType → Int → Bool
  | some .equal, cmp => cmp = 0
  | some .ne, cmp => cmp ≠ 0
  | some .gt, cmp => cmp > 0
  | some .lt, cmp => cmp < 0
  | some .ge, cmp => ¬ cmp < 0
  | some .le, cmp => ¬ cmp > 0
  | _, _ => false

/-- `cmp`. -/
def compareData (lSize rSize : Nat) (dataL dataR : Pointer) (isCharType : Bool) : Option Int := do
  let prefixCmp ← memcmp dataL dataR (if lSize ≤ rSize then lSize else rSize)
  if !isCharType then
    some (if prefixCmp ≠ 0 then prefixCmp else (lSize : Int) - rSize)
  else charCmp prefixCmp lSize rSize dataL dataR

def expEvalCondition (valsL valsR : Pointer) (opType : Option ExpOpType) (isCharType : Bool) :
    Option Bool := do
  let lSize ← rpcolGetSize valsL
  let rSize ← rpcolGetSize valsR
  -- null satisfies no condition
  if (if lSize ≤ rSize then lSize else rSize) = 0 then
    some false
  else do
    let dataL ← rpcolGetData valsL
    let dataR ← rpcolGetData valsR
    let cmp ← compareData lSize rSize dataL dataR isCharType
    some (ExpOpType.holds opType cmp)

/-! ## What a condition says -/

/-- The relation an operator stands for. -/
def ExpOpType.Means {α : Type*} [LT α] [LE α] : ExpOpType → α → α → Prop
  | .equal, a, b => a = b
  | .ne, a, b => a ≠ b
  | .gt, a, b => b < a
  | .lt, a, b => a < b
  | .ge, a, b => b ≤ a
  | .le, a, b => a ≤ b
  | _, _, _ => False

/-- The bytes of the data, as numbers. -/
def Column.codes (c : Column) : List Nat := c.value.map (·.toNat)

/-- The condition can be evaluated, and is true when `p` is. -/
def Answers (result : Option Bool) (p : Prop) : Prop := ∃ b, result = some b ∧ (b = true ↔ p)

theorem ExpOpType.holds_iff {α : Type*} [LinearOrder α] {a b : α} {cmp : Int}
    (hlt : cmp < 0 ↔ a < b) (heq : cmp = 0 ↔ a = b) (op : ExpOpType) :
    ExpOpType.holds (some op) cmp = true ↔ op.Means a b := by
  have hgt : 0 < cmp ↔ b < a := by
    rcases lt_trichotomy a b with h | h | h
    · exact iff_of_false (by have := hlt.mpr h; omega) h.not_gt
    · exact iff_of_false (by have := heq.mpr h; omega) (fun hba => hba.ne h.symm)
    · refine iff_of_true ?_ h
      have h1 := mt hlt.mp h.not_gt
      have h2 := mt heq.mp h.ne'
      omega
  cases op <;> simp [holds, Means, hlt, heq, hgt]

/-! ## The comparison of bytes -/

theorem firstDifference_take (l r : List UInt8) :
    firstDifference (l.take (min l.length r.length)) (r.take (min l.length r.length)) =
      firstDifference l r := by
  induction l generalizing r with
  | nil => cases r <;> rfl
  | cons a l ih =>
    cases r with
    | nil => rfl
    | cons b r =>
      rw [List.length_cons, List.length_cons, Nat.succ_min_succ, List.take_succ_cons,
        List.take_succ_cons, firstDifference, firstDifference, ih]

theorem memcmp_append (l r restL restR : List UInt8) :
    memcmp (l ++ restL) (r ++ restR) (if l.length ≤ r.length then l.length else r.length) =
      some (firstDifference l r) := by
  have hmin : (if l.length ≤ r.length then l.length else r.length) = min l.length r.length := rfl
  rw [hmin, memcmp, if_pos (by simp), List.take_append_of_le_length (by omega),
    List.take_append_of_le_length (by omega), firstDifference_take]

theorem onlyBlanks_append (s rest : List UInt8) :
    onlyBlanks (s ++ rest) s.length = some (!Padded.goesOn 32 (s.map (·.toNat))) := by
  induction s with
  | nil => rw [List.length_nil, onlyBlanks]; rfl
  | cons b s ih =>
    have hb : b = ' '.toUInt8 ↔ b.toNat = 32 := by rw [← UInt8.toNat_inj]; rfl
    rw [List.cons_append, List.length_cons, onlyBlanks, List.map_cons, Padded.goesOn_cons]
    by_cases h : b = ' '.toUInt8
    · rw [if_neg (not_not_intro h), ih, decide_eq_false (not_not_intro (hb.mp h)), Bool.false_or]
    · rw [if_pos h, decide_eq_true (mt hb.mpr h), Bool.true_or, Bool.not_true]

/-- Either a first difference decides, or one text is the beginning of the
other. -/
theorem firstDifference_cases (l r : List UInt8) :
    (firstDifference l r ≠ 0 ∧ ∀ blank : Nat,
      Padded.scan blank (l.map (·.toNat)) (r.map (·.toNat)) =
        if firstDifference l r < 0 then .lt else .gt) ∨
    (firstDifference l r = 0 ∧ ∃ s, r = l ++ s ∨ l = r ++ s) := by
  induction l generalizing r with
  | nil => exact .inr ⟨by cases r <;> rfl, r, .inl rfl⟩
  | cons a l ih =>
    cases r with
    | nil => exact .inr ⟨rfl, a :: l, .inr rfl⟩
    | cons b r =>
      by_cases h : a = b
      · obtain rfl := h
        rw [firstDifference, if_pos rfl]
        rcases ih r with ⟨hne, hscan⟩ | ⟨heq, s, hs⟩
        · exact .inl ⟨hne, fun blank => by
            rw [List.map_cons, List.map_cons, Padded.scan_cons_cons, if_pos rfl, hscan]⟩
        · exact .inr ⟨heq, s, hs.imp (congrArg _) (congrArg _)⟩
      · have hne : a.toNat ≠ b.toNat := fun he => h (UInt8.toNat_inj.mp he)
        refine .inl ⟨by rw [firstDifference, if_neg h]; omega, fun blank => ?_⟩
        rw [firstDifference, if_neg h, List.map_cons, List.map_cons, Padded.scan_cons_cons,
          if_neg hne]
        by_cases hlt : a.toNat < b.toNat
        · rw [if_pos hlt, if_pos (by omega)]
        · rw [if_neg hlt, if_neg (by omega)]

/-- The order of texts of bytes, the shorter one first where they agree. -/
theorem binary_order (l r : List UInt8) :
    let cmp := if firstDifference l r ≠ 0 then firstDifference l r
      else (l.length : Int) - r.length
    (cmp < 0 ↔ l.map (·.toNat) < r.map (·.toNat)) ∧
      (cmp = 0 ↔ l.map (·.toNat) = r.map (·.toNat)) := by
  induction l generalizing r with
  | nil =>
    cases r with
    | nil => simp [firstDifference]
    | cons b r =>
      simp only [firstDifference, List.map_nil, List.map_cons, List.length_nil, List.length_cons,
        List.nil_lt_cons]
      constructor <;> constructor <;> intro h <;> simp at h ⊢ <;> omega
  | cons a l ih =>
    cases r with
    | nil =>
      simp only [firstDifference, List.map_nil, List.map_cons, List.length_nil, List.length_cons]
      constructor <;> constructor <;> intro h <;> simp at h ⊢ <;> omega
    | cons b r =>
      simp only [List.map_cons, List.cons_lt_cons_iff, List.cons.injEq, List.length_cons]
      by_cases h : a = b
      · obtain rfl := h
        have := ih r
        simp only [firstDifference, if_true, lt_irrefl, false_or, true_and]
        simpa [Int.add_sub_add_right] using this
      · have hne : a.toNat ≠ b.toNat := fun he => h (UInt8.toNat_inj.mp he)
        rw [firstDifference, if_neg h, if_pos (by omega)]
        simp only [hne, false_and, or_false, iff_false]
        omega

theorem compareData_binary (l r restL restR : List UInt8) :
    ∃ cmp, compareData l.length r.length (l ++ restL) (r ++ restR) false = some cmp ∧
      (cmp < 0 ↔ l.map (·.toNat) < r.map (·.toNat)) ∧
      (cmp = 0 ↔ l.map (·.toNat) = r.map (·.toNat)) :=
  ⟨_, by rw [compareData, memcmp_append]; rfl, binary_order l r⟩

theorem compareData_char (l r restL restR : List UInt8) :
    ∃ cmp, compareData l.length r.length (l ++ restL) (r ++ restR) true = some cmp ∧
      (cmp < 0 ↔ Padded.scan 32 (l.map (·.toNat)) (r.map (·.toNat)) = .lt) ∧
      (cmp = 0 ↔ Padded.scan 32 (l.map (·.toNat)) (r.map (·.toNat)) = .eq) := by
  have hdata : compareData l.length r.length (l ++ restL) (r ++ restR) true =
      charCmp (firstDifference l r) l.length r.length (l ++ restL) (r ++ restR) := by
    rw [compareData, memcmp_append]
    rfl
  rw [hdata]
  rcases firstDifference_cases l r with ⟨hne, hscan⟩ | ⟨heq, s, rfl | rfl⟩
  · refine ⟨_, by rw [charCmp, if_neg hne], ?_⟩
    rw [hscan]
    by_cases h : firstDifference l r < 0
    · simp [h, hne]
    · simp [h, hne]
  · -- the right text goes on with `s`
    rw [heq, charCmp, if_pos rfl, List.map_append, Padded.scan_append, Padded.scan_nil_left,
      List.length_append, List.append_assoc, List.drop_left, Nat.add_sub_cancel_left,
      onlyBlanks_append]
    cases s with
    | nil => exact ⟨0, by simp, by simp [Padded.goesOn], by simp [Padded.goesOn]⟩
    | cons b s =>
      rw [if_pos (by simp)]
      cases Padded.goesOn 32 ((b :: s).map (·.toNat))
      · exact ⟨0, rfl, by simp, by simp⟩
      · exact ⟨-1, rfl, by simp, by simp⟩
  · -- the left text goes on with `s`
    rw [heq, charCmp, if_pos rfl, List.map_append, Padded.scan_swap, Padded.scan_append,
      Padded.scan_nil_left, List.length_append, List.append_assoc, List.drop_left,
      Nat.add_sub_cancel_left, onlyBlanks_append, if_neg (by omega)]
    cases s with
    | nil => exact ⟨0, by simp, by simp [Padded.goesOn], by simp [Padded.goesOn]⟩
    | cons b s =>
      rw [if_pos (by simp)]
      cases Padded.goesOn 32 ((b :: s).map (·.toNat))
      · exact ⟨0, rfl, by simp, by simp⟩
      · exact ⟨1, rfl, by simp, by simp⟩

/-! ## The conditions -/

section Evaluation

variable {l r : Column} (hl : l.Plain) (hr : r.Plain) (restL restR : Pointer)

/-- A condition on a null column is false, whatever it is. -/
theorem expEvalCondition_null {l r : Column} (h : l.value = [] ∨ r.value = [])
    (restL restR : Pointer) (op : Option ExpOpType) (isCharType : Bool) :
    expEvalCondition (l.bytes ++ restL) (r.bytes ++ restR) op isCharType = some false := by
  rw [expEvalCondition, Column.rpcolGetSize, Column.rpcolGetSize]
  refine if_pos ?_
  rcases h with h | h <;> simp [h]

include hl hr in
theorem expEvalCondition_value (hnonnull : l.value ≠ [] ∧ r.value ≠ []) (op : Option ExpOpType)
    (isCharType : Bool) :
    expEvalCondition (l.bytes ++ restL) (r.bytes ++ restR) op isCharType =
      (compareData l.value.length r.value.length (l.value ++ restL) (r.value ++ restR)
        isCharType).map (ExpOpType.holds op) := by
  have hlpos := List.length_pos_iff.mpr hnonnull.1
  have hrpos := List.length_pos_iff.mpr hnonnull.2
  rw [expEvalCondition, Column.rpcolGetSize, Column.rpcolGetSize, Column.rpcolGetData hl,
    Column.rpcolGetData hr]
  simp only [Option.bind_eq_bind, Option.bind_some]
  rw [if_neg (by split <;> omega)]
  cases compareData l.value.length r.value.length (l.value ++ restL) (r.value ++ restR)
    isCharType <;> rfl

include hl hr in
/-- Conditions on columns that are not of a char type compare the data as
texts of bytes. -/
theorem expEvalCondition_binary (hnonnull : l.value ≠ [] ∧ r.value ≠ []) (op : ExpOpType) :
    Answers (expEvalCondition (l.bytes ++ restL) (r.bytes ++ restR) (some op) false)
      (op.Means l.codes r.codes) := by
  obtain ⟨cmp, hcmp, hlt, heq⟩ := compareData_binary l.value r.value restL restR
  exact ⟨_, by rw [expEvalCondition_value hl hr restL restR hnonnull, hcmp]; rfl,
    op.holds_iff hlt heq⟩

include hl hr in
/-- **Char types**: conditions compare the data as if blanks followed them,
exactly when neither of the two goes on below the blank behind the other. -/
theorem expEvalCondition_char_iff (hnonnull : l.value ≠ [] ∧ r.value ≠ []) :
    (∀ op : ExpOpType,
      Answers (expEvalCondition (l.bytes ++ restL) (r.bytes ++ restR) (some op) true)
        (op.Means (Padded.padded 32 l.codes) (Padded.padded 32 r.codes))) ↔
      ¬ Padded.Misordered 32 l.codes r.codes := by
  obtain ⟨cmp, hcmp, hlt, heq⟩ := compareData_char l.value r.value restL restR
  rw [Padded.scan_lt_iff] at hlt
  rw [Padded.scan_eq_iff] at heq
  have hvalue : ∀ op : ExpOpType,
      expEvalCondition (l.bytes ++ restL) (r.bytes ++ restR) (some op) true =
        some (ExpOpType.holds (some op) cmp) := by
    intro op
    rw [expEvalCondition_value hl hr restL restR hnonnull, hcmp]
    rfl
  constructor
  · intro h hmis
    obtain ⟨b, hb, hmeans⟩ := h .lt
    rw [hvalue, Option.some.injEq] at hb
    subst hb
    have hlt' : cmp < 0 ↔ Padded.padded 32 l.codes < Padded.padded 32 r.codes := by
      simpa [ExpOpType.holds, ExpOpType.Means] using hmeans
    rcases lt_trichotomy (Padded.padded 32 l.codes) (Padded.padded 32 r.codes) with h | h | h
    · rcases hlt.mp (hlt'.mpr h) with ⟨hnot, -⟩ | ⟨-, h'⟩
      · exact hnot hmis
      · exact lt_asymm h h'
    · exact hmis.ne 32 h
    · exact lt_asymm h (hlt'.mp (hlt.mpr (.inr ⟨hmis, h⟩)))
  · intro hmis op
    refine ⟨_, hvalue op, op.holds_iff ?_ heq⟩
    rw [hlt]
    exact ⟨fun h => by rcases h with h | h; exacts [h.2, absurd h.1 hmis], fun h => .inl ⟨hmis, h⟩⟩

end Evaluation

/-- A value of a char type, and the same one with blanks behind it. -/
def shortName : Column := ⟨[3, 75, 73, 77], rfl⟩

def blankName : Column := ⟨[5, 75, 73, 77, 32, 32], rfl⟩

theorem shortName_blankName :
    (∀ op : ExpOpType,
      Answers (expEvalCondition (shortName.bytes ++ []) (blankName.bytes ++ []) (some op) true)
        (op.Means (Padded.padded 32 shortName.codes) (Padded.padded 32 blankName.codes))) ↔
      ¬ Padded.Misordered 32 shortName.codes blankName.codes :=
  expEvalCondition_char_iff (by decide) (by decide) [] [] (by decide)

end KetiEngine.TmaxLib
