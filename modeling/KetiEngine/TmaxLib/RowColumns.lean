import KetiEngine.Lib.Loops
import Mathlib.Algebra.Order.Ring.Nat

/-!
# RowColumns — the columns of a row piece

A row piece is its columns one after the other, each behind its own size: one
byte up to 250, and otherwise a byte above that and two more. `build_data`
points into the piece, and `set_col_out` puts the null column where a column
is not asked for.
-/

namespace KetiEngine.TmaxLib

open KetiEngine

/-! ## The column format -/

/-- What a pointer addresses: the bytes from it to the end of its object. -/
abbrev Pointer := List UInt8

def rpcolGetSize : Pointer → Option Nat
  | [] => none
  | b :: rest =>
    if b.toNat ≤ 250 then some b.toNat
    else
      match rest with
      | hi :: lo :: _ => some ((hi.toNat <<< 8) + lo.toNat)
      | _ => none

def rpcolGetLen : Pointer → Option Nat
  | [] => none
  | b :: rest =>
    if b.toNat ≤ 250 then some (b.toNat + 1)
    else
      match rest with
      | hi :: lo :: _ => some ((hi.toNat <<< 8) + lo.toNat + 3)
      | _ => none

/-- The bound here is 252, two above the one of the sizes. -/
def rpcolGetData : Pointer → Option Pointer
  | [] => none
  | b :: rest => some (if b.toNat ≤ 252 then rest else rest.drop 2)

/-- A column: as many bytes as its header says. -/
structure Column where
  bytes : List UInt8
  length_eq : rpcolGetLen bytes = some bytes.length
deriving DecidableEq

/-- The data behind the header. -/
def Column.value (c : Column) : List UInt8 :=
  match c.bytes with
  | [] => []
  | b :: rest => if b.toNat ≤ 250 then rest else rest.drop 2

/-- The column's first byte is not one of the two on which the macros
disagree. -/
def Column.Plain (c : Column) : Prop := c.bytes.head? ≠ some 251 ∧ c.bytes.head? ≠ some 252

instance (c : Column) : Decidable c.Plain := inferInstanceAs (Decidable (_ ∧ _))

theorem rpcolGetLen_append {p : Pointer} {n : Nat} (h : rpcolGetLen p = some n) (rest : Pointer) :
    rpcolGetLen (p ++ rest) = some n := by
  obtain _ | ⟨b, p⟩ := p
  · cases h
  · by_cases hb : b.toNat ≤ 250
    · simpa [rpcolGetLen, hb] using h
    · obtain _ | ⟨hi, _ | ⟨lo, p⟩⟩ := p
      · simp [rpcolGetLen, hb] at h
      · simp [rpcolGetLen, hb] at h
      · simpa [rpcolGetLen, hb] using h

theorem rpcolGetSize_append {p : Pointer} {n : Nat} (h : rpcolGetSize p = some n)
    (rest : Pointer) : rpcolGetSize (p ++ rest) = some n := by
  obtain _ | ⟨b, p⟩ := p
  · cases h
  · by_cases hb : b.toNat ≤ 250
    · simpa [rpcolGetSize, hb] using h
    · obtain _ | ⟨hi, _ | ⟨lo, p⟩⟩ := p
      · simp [rpcolGetSize, hb] at h
      · simp [rpcolGetSize, hb] at h
      · simpa [rpcolGetSize, hb] using h

/-- What stands behind the header of a column, by the form of the header. -/
theorem Column.cases_bytes (c : Column) :
    (∃ b, b.toNat ≤ 250 ∧ c.bytes = b :: c.value ∧ c.value.length = b.toNat) ∨
    ∃ b hi lo, 250 < b.toNat ∧ c.bytes = b :: hi :: lo :: c.value ∧
      c.value.length = (hi.toNat <<< 8) + lo.toNat := by
  obtain ⟨_ | ⟨b, rest⟩, h⟩ := c
  · cases h
  · by_cases hb : b.toNat ≤ 250
    · refine .inl ⟨b, hb, by simp [value, hb], ?_⟩
      simpa [rpcolGetLen, value, hb, eq_comm] using h
    · obtain _ | ⟨hi, _ | ⟨lo, rest⟩⟩ := rest
      · simp [rpcolGetLen, hb] at h
      · simp [rpcolGetLen, hb] at h
      · refine .inr ⟨b, hi, lo, by omega, by simp [value, hb], ?_⟩
        simp only [rpcolGetLen, if_neg hb, List.length_cons, Option.some.injEq] at h
        simp only [value, if_neg hb, List.drop_succ_cons, List.drop_zero]
        omega

theorem Column.rpcolGetSize (c : Column) (rest : Pointer) :
    rpcolGetSize (c.bytes ++ rest) = some c.value.length := by
  apply rpcolGetSize_append
  obtain ⟨b, hb, hbytes, hlen⟩ | ⟨b, hi, lo, hb, hbytes, hlen⟩ := c.cases_bytes
  · rw [hbytes, hlen]
    simp [TmaxLib.rpcolGetSize, hb]
  · rw [hbytes, hlen]
    simp [TmaxLib.rpcolGetSize, Nat.not_le.mpr hb]

theorem Column.rpcolGetLen (c : Column) (rest : Pointer) :
    rpcolGetLen (c.bytes ++ rest) = some c.bytes.length :=
  rpcolGetLen_append c.length_eq rest

theorem Column.rpcolGetData {c : Column} (h : c.Plain) (rest : Pointer) :
    rpcolGetData (c.bytes ++ rest) = some (c.value ++ rest) := by
  obtain ⟨b, hb, hbytes, -⟩ | ⟨b, hi, lo, hb, hbytes, -⟩ := c.cases_bytes
  · rw [hbytes, List.cons_append, TmaxLib.rpcolGetData, if_pos (by omega)]
  · obtain ⟨h1, h2⟩ := h
    rw [hbytes] at h1 h2
    have hne1 : b.toNat ≠ 251 := fun he => h1 (congrArg some (UInt8.toNat_inj.mp he))
    have hne2 : b.toNat ≠ 252 := fun he => h2 (congrArg some (UInt8.toNat_inj.mp he))
    rw [hbytes, List.cons_append, TmaxLib.rpcolGetData, if_neg (by omega)]
    rfl

/-! ## The columns of an evaluation -/

/-- `column_vals` and `column_val_lens`. A pointer is `none` while it is null
or has not been set, and there is nothing to be read from it. -/
structure ExpCtx where
  columnVals : List (Option Pointer)
  columnValLens : List (Option UInt16)
deriving DecidableEq

def expCtxInit (colCnt : Int) : ExpCtx where
  columnVals := List.replicate colCnt.toNat none
  columnValLens := List.replicate colCnt.toNat none

namespace ExpCtx

/-- Reading `*column_vals[i]`. -/
def val (ctx : ExpCtx) (i : Nat) : Option Pointer := (ctx.columnVals[i]?).join

/-- Setting both arrays at `i`, the length as a `uint16_t`. -/
def assign (ctx : ExpCtx) (i : Nat) (val : Option Pointer) (len : Nat) : Option ExpCtx :=
  if i < ctx.columnVals.length ∧ i < ctx.columnValLens.length then
    some
      { columnVals := ctx.columnVals.set i val
        columnValLens := ctx.columnValLens.set i (some (UInt16.ofNat len)) }
  else none

end ExpCtx

/-- A round of the first loop of `build_data`, where every column is used. -/
def buildColumn (st : ExpCtx × Pointer) (i : Nat) : Option (ExpCtx × Pointer) := do
  let len ← rpcolGetLen st.2
  let ctx ← st.1.assign i (some st.2) len
  some (ctx, st.2.drop len)

/-- `column_vals[i] = rp_data`, where the column is used. -/
def ExpCtx.point (ctx : ExpCtx) (i : Nat) (rpData : Pointer) (used : UInt8) : Option ExpCtx :=
  if used ≠ 0 then (rpcolGetLen rpData).bind (ctx.assign i (some rpData)) else some ctx

/-- The step to the next column. The pointer stays on the last one. -/
def nextColumn (rpColCnt : Int) (i : Nat) (rpData : Pointer) : Option Pointer :=
  if (i : Int) < rpColCnt - 1 then (rpcolGetLen rpData).map rpData.drop else some rpData

/-- The loop of `build_data` over the next `n` columns, from the `i`-th on,
where only some of the columns are used. -/
def buildSelected (usecols : List UInt8) (rpColCnt : Int) :
    Nat → Nat → ExpCtx → Pointer → Int → Option ExpCtx
  | 0, _, ctx, _, _ => some ctx
  | n + 1, i, ctx, rpData, remainedColCnt => do
    let used ← usecols[i]?
    let ctx ← ctx.point i rpData used
    let remainedColCnt := if used ≠ 0 then remainedColCnt - 1 else remainedColCnt
    if remainedColCnt ≤ 0 then
      some ctx
    else do
      let rpData ← nextColumn rpColCnt i rpData
      buildSelected usecols rpColCnt n (i + 1) ctx rpData remainedColCnt

def buildData (expCtx : ExpCtx) (rpData : Pointer) (colCnt rpColCnt : Int)
    (usecols : Option (List UInt8)) (usecolCnt : Int) : Option ExpCtx :=
  match usecols with
  | none => do
    let minColCnt := (if colCnt > rpColCnt then rpColCnt else colCnt).toNat
    let (expCtx, _) ← (List.range minColCnt).foldlM buildColumn (expCtx, rpData)
    (List.range' minColCnt (colCnt.toNat - minColCnt)).foldlM (·.assign · none 1) expCtx
  | some usecols => buildSelected usecols rpColCnt colCnt.toNat 0 expCtx rpData usecolCnt

def nullColumn : Pointer := [0, 0, 0, 0]

/-- Whether `set_col_out` keeps column `i`. -/
def keepsColumn (usecols : Option (List UInt8)) (usecolCnt : Int) (i : Nat) : Option Bool :=
  match usecols with
  | none => some (usecolCnt ≠ 0)
  | some usecols => (usecols[i]?).map (· ≠ 0)

/-- The pointer and the length of column `i` in the output. -/
def outVal (ctx : ExpCtx) (i : Nat) (keeps : Bool) : Option (Pointer × Nat) :=
  if keeps then (ctx.val i).bind fun val => (rpcolGetLen val).map (val, ·)
  else some (nullColumn, 1)

/-- A round of `set_col_out`. -/
def outColumn (usecols : Option (List UInt8)) (usecolCnt : Int) (st : ExpCtx × Nat) (i : Nat) :
    Option (ExpCtx × Nat) := do
  let keeps ← keepsColumn usecols usecolCnt i
  let (val, len) ← outVal st.1 i keeps
  let ctx ← st.1.assign i (some val) len
  some (ctx, st.2 + (UInt16.ofNat len).toNat)

def setColOut (expCtx : ExpCtx) (colCnt : Int) (usecols : Option (List UInt8))
    (usecolCnt : Int) : Option (ExpCtx × Nat) :=
  (List.range colCnt.toNat).foldlM (outColumn usecols usecolCnt) (expCtx, 0)

/-! ## Pointers into a piece -/

/-- The columns of a row piece, at least one. -/
structure Row where
  columns : List Column
  ne_nil : columns ≠ []

namespace Row

variable (r : Row)

theorem length_pos : 0 < r.columns.length := List.length_pos_iff.mpr r.ne_nil

/-- Column `i` as `build_data` finds it. Where the piece has no column `i`, the
last one stands in for it. -/
def found (i : Nat) : Column :=
  r.columns.get ⟨min i (r.columns.length - 1), by have := r.length_pos; omega⟩

theorem found_eq {i : Nat} {c : Column} (h : r.columns[i]? = some c) : r.found i = c := by
  obtain ⟨hi, rfl⟩ := List.getElem?_eq_some_iff.mp h
  have hmin : min i (r.columns.length - 1) = i := by omega
  simp [found, hmin]

/-- The pointer to column `i`, in a piece with `rest` behind it. -/
def pointer (rest : Pointer) (i : Nat) : Pointer :=
  (r.columns.drop (min i (r.columns.length - 1))).flatMap (·.bytes) ++ rest

theorem pointer_eq (rest : Pointer) (i : Nat) :
    r.pointer rest i = (r.found i).bytes ++
      ((r.columns.drop (min i (r.columns.length - 1) + 1)).flatMap (·.bytes) ++ rest) := by
  have hlt : min i (r.columns.length - 1) < r.columns.length := by
    have := r.length_pos
    omega
  rw [pointer, List.drop_eq_getElem_cons hlt, List.flatMap_cons, List.append_assoc]
  rfl

/-- The pointer to a column the piece has. -/
theorem pointer_of_column {i : Nat} {c : Column} (h : r.columns[i]? = some c) (rest : Pointer) :
    ∃ behind, r.pointer rest i = c.bytes ++ behind :=
  ⟨_, by rw [pointer_eq, r.found_eq h]⟩

theorem rpcolGetLen_pointer (rest : Pointer) (i : Nat) :
    rpcolGetLen (r.pointer rest i) = some (r.found i).bytes.length := by
  rw [pointer_eq, Column.rpcolGetLen]

/-- The step of the loop from a column to the next. -/
theorem nextColumn_pointer (rest : Pointer) (i : Nat) :
    nextColumn r.columns.length i (r.pointer rest i) = some (r.pointer rest (i + 1)) := by
  unfold nextColumn
  split
  · have hi : min i (r.columns.length - 1) + 1 = min (i + 1) (r.columns.length - 1) := by omega
    rw [rpcolGetLen_pointer, Option.map_some, pointer_eq, List.drop_left, pointer, hi]
  · have hi : min i (r.columns.length - 1) = min (i + 1) (r.columns.length - 1) := by omega
    rw [pointer, pointer, hi]

end Row

/-! ## What the two functions leave -/

namespace ExpCtx

/-- The arrays have places for `n` columns. -/
def Holds (ctx : ExpCtx) (n : Nat) : Prop :=
  n ≤ ctx.columnVals.length ∧ n ≤ ctx.columnValLens.length

theorem assign_of_holds {ctx : ExpCtx} {n i : Nat} (h : ctx.Holds n) (hi : i < n)
    (val : Option Pointer) (len : Nat) :
    ∃ ctx', ctx.assign i val len = some ctx' ∧ ctx'.Holds n ∧ ctx'.val i = val ∧
      ctx'.columnValLens[i]? = some (some (UInt16.ofNat len)) ∧
      ∀ j ≠ i, ctx'.val j = ctx.val j ∧ ctx'.columnValLens[j]? = ctx.columnValLens[j]? := by
  obtain ⟨hvals, hlens⟩ := h
  refine ⟨_, if_pos ⟨by omega, by omega⟩, ?_, ?_, ?_, fun j hj => ⟨?_, ?_⟩⟩
  · simpa [Holds] using ⟨hvals, hlens⟩
  · simp [ExpCtx.val, show i < ctx.columnVals.length by omega]
  · simp [show i < ctx.columnValLens.length by omega]
  · simp [ExpCtx.val, hj.symm]
  · simp [hj.symm]

end ExpCtx

/-- Column `i` is used. -/
def Uses (usecols : List UInt8) (i : Nat) : Prop := usecols.getD i 0 ≠ 0

instance (usecols : List UInt8) (i : Nat) : Decidable (Uses usecols i) :=
  inferInstanceAs (Decidable (_ ≠ _))

/-- The loop of `build_data` finds every used column from the `i`-th on, when
it has at least as many columns left to find. -/
theorem buildSelected_row (r : Row) (rest : Pointer) {usecols : List UInt8} {n i slots : Nat}
    {ctx : ExpCtx} {remained : Int} (hflags : i + n ≤ usecols.length) (hctx : ctx.Holds slots)
    (hslots : i + n ≤ slots)
    (hremained : ((List.range' i n).countP (Uses usecols ·) : Int) ≤ remained) :
    ∃ ctx', buildSelected usecols r.columns.length n i ctx (r.pointer rest i) remained = some ctx' ∧
      ctx'.Holds slots ∧
      (∀ j, i ≤ j → j < i + n → Uses usecols j → ctx'.val j = some (r.pointer rest j)) ∧
      ∀ j < i, ctx'.val j = ctx.val j := by
  induction n generalizing i ctx remained with
  | zero => exact ⟨ctx, rfl, hctx, fun j h1 h2 => absurd h2 (by omega), fun j _ => rfl⟩
  | succ n ih =>
    have hi : i < usecols.length := by omega
    have hget : usecols[i]? = some (usecols.getD i 0) := by simp [hi]
    obtain ⟨ctx₁, hset, hctx₁, hval, hframe⟩ : ∃ ctx₁,
        ctx.point i (r.pointer rest i) (usecols.getD i 0) = some ctx₁ ∧
        ctx₁.Holds slots ∧ (Uses usecols i → ctx₁.val i = some (r.pointer rest i)) ∧
        ∀ j < i, ctx₁.val j = ctx.val j := by
      by_cases hused : usecols.getD i 0 ≠ 0
      · obtain ⟨ctx₁, h₁, hholds, hval, -, hframe⟩ := ctx.assign_of_holds hctx (show i < _ by omega)
          (some (r.pointer rest i)) (r.found i).bytes.length
        refine ⟨ctx₁, ?_, hholds, fun _ => hval, fun j hj => (hframe j (by omega)).1⟩
        rw [ExpCtx.point, if_pos hused, Row.rpcolGetLen_pointer, Option.bind_some, h₁]
      · exact ⟨ctx, if_neg hused, hctx, fun h => absurd h hused, fun j _ => rfl⟩
    obtain ⟨left, hleft⟩ : ∃ left, left = if usecols.getD i 0 ≠ 0 then remained - 1 else remained :=
      ⟨_, rfl⟩
    have hcount : ((List.range' (i + 1) n).countP (Uses usecols ·) : Int) ≤ left := by
      rw [List.range'_succ, List.countP_cons] at hremained
      by_cases hused : Uses usecols i
      · rw [hleft.trans (if_pos hused)]
        simp only [hused, decide_true, if_true] at hremained
        omega
      · rw [hleft.trans (if_neg hused)]
        simpa [hused] using hremained
    simp only [buildSelected, hget, Option.bind_eq_bind, Option.bind_some, hset, ← hleft]
    by_cases hdone : left ≤ 0
    · -- no column is left to be found, and none of the following is used
      refine ⟨ctx₁, if_pos hdone, hctx₁, fun j h1 h2 hj => ?_, hframe⟩
      rcases Nat.eq_or_lt_of_le h1 with rfl | hlt
      · exact hval hj
      · have hpos : 0 < (List.range' (i + 1) n).countP (Uses usecols ·) :=
          List.countP_pos_iff.mpr ⟨j, List.mem_range'_1.mpr ⟨hlt, by omega⟩, by simpa using hj⟩
        omega
    · rw [if_neg hdone, Row.nextColumn_pointer, Option.bind_some]
      rw [show i + (n + 1) = i + 1 + n by omega] at hflags hslots ⊢
      obtain ⟨ctx', hrun, hholds, hfound, hkept⟩ := ih hflags hctx₁ hslots hcount
      refine ⟨ctx', hrun, hholds, fun j h1 h2 hj => ?_,
        fun j hj => (hkept j (by omega)).trans (hframe j hj)⟩
      rcases Nat.eq_or_lt_of_le h1 with rfl | hlt
      · rw [hkept i (by omega), hval hj]
      · exact hfound j hlt (by omega) hj

/-- **`build_data`** finds every used column of a row piece, the last one where
the piece is too short, when the flags are counted in full. -/
theorem buildData_row (r : Row) (rest : Pointer) {usecols : List UInt8} {colCnt usecolCnt : Int}
    {slots : Nat} {ctx : ExpCtx} (hflags : colCnt.toNat ≤ usecols.length) (hctx : ctx.Holds slots)
    (hslots : colCnt.toNat ≤ slots)
    (hcount : ((List.range colCnt.toNat).countP (Uses usecols ·) : Int) ≤ usecolCnt) :
    ∃ ctx', buildData ctx (r.pointer rest 0) colCnt r.columns.length (some usecols) usecolCnt =
        some ctx' ∧ ctx'.Holds slots ∧
      ∀ j < colCnt.toNat, Uses usecols j → ctx'.val j = some (r.pointer rest j) := by
  rw [List.range_eq_range'] at hcount
  obtain ⟨ctx', hrun, hholds, hfound, -⟩ := buildSelected_row r rest (i := 0) (by omega) hctx
    (by omega) hcount
  exact ⟨ctx', hrun, hholds, fun j hj hused => hfound j (Nat.zero_le j) (by omega) hused⟩

/-- What a round of `set_col_out` reads and puts into the output. -/
theorem outColumn_spec {ctx : ExpCtx} {usecols : List UInt8} (usecolCnt : Int) (total : Nat)
    {slots i len : Nat} {out : Pointer} (hi : i < slots) (hflag : i < usecols.length)
    (hctx : ctx.Holds slots)
    (hout : if Uses usecols i then ctx.val i = some out ∧ rpcolGetLen out = some len
      else out = nullColumn ∧ len = 1) :
    ∃ ctx', outColumn (some usecols) usecolCnt (ctx, total) i =
        some (ctx', total + (UInt16.ofNat len).toNat) ∧
      ctx'.Holds slots ∧ ctx'.val i = some out ∧
      ctx'.columnValLens[i]? = some (some (UInt16.ofNat len)) ∧
      ∀ j ≠ i, ctx'.val j = ctx.val j ∧ ctx'.columnValLens[j]? = ctx.columnValLens[j]? := by
  obtain ⟨ctx', hassign, hrest⟩ := ctx.assign_of_holds hctx hi (some out) len
  refine ⟨ctx', ?_, hrest⟩
  have hkeeps : keepsColumn (some usecols) usecolCnt i = some (decide (Uses usecols i)) := by
    simp [keepsColumn, Uses, hflag]
  have hval : outVal ctx i (decide (Uses usecols i)) = some (out, len) := by
    by_cases hused : Uses usecols i
    · obtain ⟨hval, hlen⟩ := (if_pos hused).mp hout
      simp [outVal, hused, hval, hlen]
    · obtain ⟨rfl, rfl⟩ := (if_neg hused).mp hout
      simp [outVal, hused]
  simp only [outColumn, hkeeps, hval, hassign, Option.bind_eq_bind, Option.bind_some]

/-- **`set_col_out`** keeps the columns asked for and gives the others as
null. -/
theorem setColOut_spec {ctx : ExpCtx} {colCnt : Int} {usecols : List UInt8} (usecolCnt : Int)
    {slots : Nat} (out : Nat → Pointer) (len : Nat → Nat) (hflags : colCnt.toNat ≤ usecols.length)
    (hctx : ctx.Holds slots) (hslots : colCnt.toNat ≤ slots)
    (hout : ∀ i < colCnt.toNat, if Uses usecols i then
        ctx.val i = some (out i) ∧ rpcolGetLen (out i) = some (len i)
      else out i = nullColumn ∧ len i = 1) :
    ∃ ctx', setColOut ctx colCnt (some usecols) usecolCnt = some (ctx',
        ((List.range colCnt.toNat).map fun i => (UInt16.ofNat (len i)).toNat).sum) ∧
      ctx'.Holds slots ∧ ∀ i < colCnt.toNat, ctx'.val i = some (out i) ∧
        ctx'.columnValLens[i]? = some (some (UInt16.ofNat (len i))) := by
  -- the columns already passed are set, the others are as they were
  obtain ⟨⟨ctx', total⟩, hrun, hset, rfl⟩ : ∃ st', (List.range colCnt.toNat).foldlM
        (outColumn (some usecols) usecolCnt) (ctx, 0) = some st' ∧
      (st'.1.Holds slots ∧ (∀ i ∈ List.range colCnt.toNat, st'.1.val i = some (out i) ∧
          st'.1.columnValLens[i]? = some (some (UInt16.ofNat (len i)))) ∧
        ∀ i ∉ List.range colCnt.toNat, st'.1.val i = ctx.val i) ∧
      st'.2 = ((List.range colCnt.toNat).map fun i => (UInt16.ofNat (len i)).toNat).sum := by
    apply Loops.foldlM_total
      (P := fun done (st : ExpCtx × Nat) => (st.1.Holds slots ∧
        (∀ i ∈ done, st.1.val i = some (out i) ∧
          st.1.columnValLens[i]? = some (some (UInt16.ofNat (len i)))) ∧
        ∀ i ∉ done, st.1.val i = ctx.val i) ∧
        st.2 = (done.map fun i => (UInt16.ofNat (len i)).toNat).sum)
    · exact ⟨⟨hctx, by simp, fun i _ => rfl⟩, rfl⟩
    · rintro done i rest ⟨ctx₀, total⟩ hsplit ⟨⟨hholds, hdone, hkept⟩, rfl⟩
      obtain ⟨rfl, hi⟩ := Loops.range_eq_append_cons hsplit
      have hi' := hout i hi
      rw [← hkept i (by simp)] at hi'
      obtain ⟨ctx', hround, hholds', hval, hlen, hframe⟩ :=
        outColumn_spec usecolCnt _ (by omega) (by omega) hholds hi'
      refine ⟨_, hround, ⟨hholds', fun j hj => ?_, fun j hj => ?_⟩, by simp⟩
      · rcases List.mem_append.mp hj with hj | hj
        · have hne : j ≠ i := by simp at hj; omega
          rw [(hframe j hne).1, (hframe j hne).2]
          exact hdone j hj
        · obtain rfl := List.mem_singleton.mp hj
          exact ⟨hval, hlen⟩
      · simp only [List.mem_append, List.mem_singleton, not_or] at hj
        rw [(hframe j hj.2).1, hkept j hj.1]
  exact ⟨ctx', hrun, hset.1, fun i hi => hset.2.1 i (List.mem_range.mpr hi)⟩

end KetiEngine.TmaxLib
