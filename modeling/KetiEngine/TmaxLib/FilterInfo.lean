import KetiEngine.Lib.Codec
import KetiEngine.TmaxLib.RowColumns

/-!
# FilterInfo — `deserialize_filter_info`

The filter of a request comes as one text: counts and numbers as little-endian
integers, flags as bytes, and the constants as columns.
-/

namespace KetiEngine.TmaxLib

open KetiEngine Codec

structure FilterInfo where
  expCnt : Int
  colCnt : Int
  useCols : List UInt8
  useColCnt : Int
  allMaxColno : Int
  whereMaxColno : Int
  isCharType : List UInt8
  opTypes : List Int
  expLNos : List Int
  expRNos : List Int
  constValsCnt : Int
  constVals : List Column
deriving DecidableEq

theorem rpcolGetLen_take {p : Pointer} {n : Nat} (h : rpcolGetLen p = some n)
    (hn : n ≤ p.length) : rpcolGetLen (p.take n) = some (p.take n).length := by
  rw [List.length_take_of_le hn]
  obtain _ | ⟨b, p⟩ := p
  · cases h
  · by_cases hb : b.toNat ≤ 250
    · have : n = b.toNat + 1 := by simpa [rpcolGetLen, hb, eq_comm] using h
      subst this
      simp [rpcolGetLen, hb]
    · obtain _ | ⟨hi, _ | ⟨lo, p⟩⟩ := p
      · simp [rpcolGetLen, hb] at h
      · simp [rpcolGetLen, hb] at h
      · have : n = (hi.toNat <<< 8) + lo.toNat + 3 := by simpa [rpcolGetLen, hb, eq_comm] using h
        subst this
        simp [rpcolGetLen, hb]

/-- A constant, as many bytes as its header says. -/
def readColumn : Reader UInt8 Column := fun pos =>
  match h : rpcolGetLen pos with
  | none => none
  | some rpLen =>
    if hlen : rpLen ≤ pos.length then
      some (⟨pos.take rpLen, rpcolGetLen_take h hlen⟩, pos.drop rpLen)
    else none

/-- `memcpy` of `n` items; the size of a negative number of them has no
meaning. -/
def copyItems {α : Type} (item : Reader UInt8 α) (n : Int) : Reader UInt8 (List α) :=
  if n < 0 then failure else many item n.toNat

def readByte : Reader UInt8 UInt8
  | [] => none
  | b :: rest => some (b, rest)

def deserializeFilterInfo : Reader UInt8 FilterInfo := do
  let expCnt ← int 4
  let colCnt ← int 4
  let useCols ← copyItems readByte colCnt
  let useColCnt ← int 4
  let allMaxColno ← int 4
  let whereMaxColno ← int 4
  let isCharType ← copyItems readByte expCnt
  let opTypes ← copyItems (int 4) expCnt
  let expLNos ← copyItems (int 2) expCnt
  let expRNos ← copyItems (int 2) expCnt
  let constValsCnt ← int 4
  -- a negative number of constants reads none
  let constVals ← many readColumn constValsCnt.toNat
  pure
    { expCnt, colCnt, useCols, useColCnt, allMaxColno, whereMaxColno, isCharType, opTypes,
      expLNos, expRNos, constValsCnt, constVals }

/-! ## The format -/

/-- The numbers fit their fields and the arrays have the lengths the counts
say. -/
structure FilterInfo.WellFormed (f : FilterInfo) : Prop where
  expCnt : FitsInt 4 f.expCnt
  colCnt : FitsInt 4 f.colCnt
  useCols : f.useCols.length = f.colCnt
  useColCnt : FitsInt 4 f.useColCnt
  allMaxColno : FitsInt 4 f.allMaxColno
  whereMaxColno : FitsInt 4 f.whereMaxColno
  isCharType : f.isCharType.length = f.expCnt
  opTypes : f.opTypes.length = f.expCnt ∧ ∀ op ∈ f.opTypes, FitsInt 4 op
  expLNos : f.expLNos.length = f.expCnt ∧ ∀ no ∈ f.expLNos, FitsInt 2 no
  expRNos : f.expRNos.length = f.expCnt ∧ ∀ no ∈ f.expRNos, FitsInt 2 no
  constValsCnt : FitsInt 4 f.constValsCnt
  constVals : f.constVals.length = f.constValsCnt.toNat

/-- The text of a filter. -/
def FilterInfo.encode (f : FilterInfo) : List UInt8 :=
  LittleEndian.ofInt 4 f.expCnt ++ LittleEndian.ofInt 4 f.colCnt ++ f.useCols ++
    LittleEndian.ofInt 4 f.useColCnt ++ LittleEndian.ofInt 4 f.allMaxColno ++
    LittleEndian.ofInt 4 f.whereMaxColno ++ f.isCharType ++
    f.opTypes.flatMap (LittleEndian.ofInt 4) ++ f.expLNos.flatMap (LittleEndian.ofInt 2) ++
    f.expRNos.flatMap (LittleEndian.ofInt 2) ++ LittleEndian.ofInt 4 f.constValsCnt ++
    f.constVals.flatMap (·.bytes)

theorem reads_column : Reads readColumn (fun _ => True) (·.bytes) := by
  intro pos c rest
  simp only [readColumn, StateT.run, true_and]
  constructor
  · intro h
    split at h
    · cases h
    · split at h
      · cases h
        exact (List.take_append_drop _ pos).symm
      · cases h
  · rintro rfl
    have hlen := c.rpcolGetLen rest
    split
    · simp_all
    · rename_i n hn
      obtain rfl : n = c.bytes.length := by simpa [hlen, eq_comm] using hn
      simp

theorem reads_byte : Reads readByte (fun _ => True) ([·]) := by
  intro pos b rest
  cases pos <;> simp [readByte, StateT.run, eq_comm]

theorem reads_copyItems {α : Type} {item : Reader UInt8 α} {ok : α → Prop}
    {write : α → List UInt8} (h : Reads item ok write) (n : Int) :
    Reads (copyItems item n) (fun as => (as.length : Int) = n ∧ ∀ a ∈ as, ok a)
      (·.flatMap write) := by
  intro input as rest
  unfold copyItems
  split
  · simp only [StateT.run_failure, Option.failure_eq_none, reduceCtorEq, false_iff]
    rintro ⟨⟨hlen, -⟩, -⟩
    omega
  · rw [h.many n.toNat]
    have hlen : as.length = n.toNat ↔ (as.length : Int) = n := by omega
    exact and_congr_left' (and_congr_left' hlen)

/-- `deserialize_filter_info` reads exactly the well-formed filters. -/
theorem reads_deserializeFilterInfo :
    Reads deserializeFilterInfo FilterInfo.WellFormed FilterInfo.encode := by
  intro input f rest
  simp only [deserializeFilterInfo, (reads_int _).bind_eq_some_iff,
    (reads_copyItems reads_byte _).bind_eq_some_iff,
    (reads_copyItems (reads_int _) _).bind_eq_some_iff,
    (reads_column.many _).bind_eq_some_iff, pure_eq_some_iff]
  constructor
  · rintro ⟨expCnt, h1, _, rfl, colCnt, h2, _, rfl, useCols, h3, _, rfl, useColCnt, h4, _, rfl,
      allMaxColno, h5, _, rfl, whereMaxColno, h6, _, rfl, isCharType, h7, _, rfl,
      opTypes, h8, _, rfl, expLNos, h9, _, rfl, expRNos, h10, _, rfl,
      constValsCnt, h11, _, rfl, constVals, h12, _, rfl, rfl, rfl⟩
    exact ⟨⟨h1, h2, h3.1, h4, h5, h6, h7.1, h8, h9, h10, h11, h12.1⟩, by
      simp [FilterInfo.encode, List.flatMap_singleton']⟩
  · rintro ⟨h, rfl⟩
    refine ⟨f.expCnt, h.expCnt, _, ?_, f.colCnt, h.colCnt, _, rfl, f.useCols,
      ⟨h.useCols, by simp⟩, _, rfl, f.useColCnt, h.useColCnt, _, rfl, f.allMaxColno,
      h.allMaxColno, _, rfl, f.whereMaxColno, h.whereMaxColno, _, rfl, f.isCharType,
      ⟨h.isCharType, by simp⟩, _, rfl, f.opTypes, h.opTypes, _, rfl, f.expLNos, h.expLNos, _, rfl,
      f.expRNos, h.expRNos, _, rfl, f.constValsCnt, h.constValsCnt, _, rfl, f.constVals,
      ⟨h.constVals, by simp⟩, _, rfl, rfl, rfl⟩
    simp [FilterInfo.encode, List.flatMap_singleton']

/-- **`deserialize_filter_info`** reads a filter exactly where the text begins
with the filter's encoding, and takes no more than that. No text begins with
the encodings of two filters. -/
theorem deserializeFilterInfo_iff :
    (∀ input f rest, deserializeFilterInfo.run input = some (f, rest) ↔
      f.WellFormed ∧ input = f.encode ++ rest) ∧
    ∀ f f' : FilterInfo, f.WellFormed → f'.WellFormed → ∀ rest rest',
      f.encode ++ rest = f'.encode ++ rest' → f = f' ∧ rest = rest' :=
  ⟨reads_deserializeFilterInfo,
    fun _ _ hf hf' _ _ h => reads_deserializeFilterInfo.unambiguous hf hf' h⟩

/-- The filter in `csd_info.dump`. -/
def csdInfo : FilterInfo where
  expCnt := 3
  colCnt := 4
  useCols := [1, 0, 1, 1]
  useColCnt := 3
  allMaxColno := 3
  whereMaxColno := 3
  isCharType := [0, 1, 0]
  opTypes := [6, 9, 8]
  expLNos := [0, 3, 2]
  expRNos := [-1, -1, -1]
  constValsCnt := 3
  constVals :=
    [⟨[16, 84, 69, 83, 84, 95, 86, 65, 82, 67, 72, 65, 82, 95, 55, 57, 53], rfl⟩,
      ⟨[13, 84, 69, 83, 84, 95, 67, 72, 65, 82, 95, 57, 49, 50], rfl⟩,
      ⟨[8, 120, 126, 6, 6, 0, 0, 0, 0], rfl⟩]

/-- The text in `csd_info.dump`, up to its padding. -/
def csdInfoDump : List UInt8 :=
  [3, 0, 0, 0, 4, 0, 0, 0, 1, 0, 1, 1, 3, 0, 0, 0, 3, 0, 0, 0,
    3, 0, 0, 0, 0, 1, 0, 6, 0, 0, 0, 9, 0, 0, 0, 8, 0, 0, 0, 0,
    0, 3, 0, 2, 0, 255, 255, 255, 255, 255, 255, 3, 0, 0, 0, 16, 84, 69, 83, 84,
    95, 86, 65, 82, 67, 72, 65, 82, 95, 55, 57, 53, 13, 84, 69, 83, 84, 95, 67, 72,
    65, 82, 95, 57, 49, 50, 8, 120, 126, 6, 6, 0, 0, 0, 0]

example : (deserializeFilterInfo.run csdInfoDump).map Prod.fst = some csdInfo := by
  decide +kernel

end KetiEngine.TmaxLib
