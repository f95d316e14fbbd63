import KetiEngine.TmaxLib.Conditions

/-!
# Filter — `exp_eval_and_check_true`

A filter is the conjunction of its conditions. The operands of a condition are
columns or constants, and the constants are taken in the order of the operands
that ask for one.
-/

namespace KetiEngine.TmaxLib

open KetiEngine

/-- An operand, and the constant that comes next. -/
def operand (filterInfo : FilterInfo) (expCtx : ExpCtx) (expNos : Int) (constIdx : Nat) :
    Option (Pointer × Nat) :=
  if expNos = -1 then
    (filterInfo.constVals[constIdx]?).map fun c => (c.bytes, constIdx + 1)
  else if expNos < 0 then none
  else (expCtx.val expNos.toNat).map (·, constIdx)

/-- The tests of a round, once the operands are found. -/
def checkOperands (filterInfo : FilterInfo) (i : Nat) (valsL valsR : Pointer) : Option Bool := do
  let lSize ← rpcolGetSize valsL
  let rSize ← rpcolGetSize valsR
  if lSize = 0 ∨ rSize = 0 then
    some false
  else do
    let opType ← filterInfo.opTypes[i]?
    let isCharType ← filterInfo.isCharType[i]?
    expEvalCondition valsL valsR (ExpOpType.ofCode? opType) (isCharType ≠ 0)

/-- The next `n` rounds of the loop, from the `i`-th on. -/
def checkFrom (filterInfo : FilterInfo) (expCtx : ExpCtx) : Nat → Nat → Nat → Option Bool
  | 0, _, _ => some true
  | n + 1, i, constIdx => do
    let expNos ← filterInfo.expLNos[i]?
    let (valsL, constIdx) ← operand filterInfo expCtx expNos constIdx
    let expNos ← filterInfo.expRNos[i]?
    let (valsR, constIdx) ← operand filterInfo expCtx expNos constIdx
    let holds ← checkOperands filterInfo i valsL valsR
    if !holds then some false else checkFrom filterInfo expCtx n (i + 1) constIdx

def expEvalAndCheckTrue (filterInfo : FilterInfo) (expCtx : ExpCtx) : Option Bool :=
  checkFrom filterInfo expCtx filterInfo.expCnt.toNat 0 0

/-! ## The conjunction -/

/-- The operands of the conditions before the `i`-th, in the order they are
looked up. -/
def FilterInfo.operandsBefore (f : FilterInfo) (i : Nat) : List Int :=
  (List.range i).flatMap fun j => [f.expLNos.getD j 0, f.expRNos.getD j 0]

/-- The constants that the conditions before the `i`-th take. -/
def FilterInfo.constantsBefore (f : FilterInfo) (i : Nat) : Nat :=
  (f.operandsBefore i).count (-1)

/-- The value of condition `i` by itself. -/
def conditionAt (f : FilterInfo) (ctx : ExpCtx) (i : Nat) : Option Bool := do
  let left := f.expLNos.getD i 0
  let right := f.expRNos.getD i 0
  let (valsL, _) ← operand f ctx left (f.constantsBefore i)
  let (valsR, _) ← operand f ctx right (f.constantsBefore i + [left].count (-1))
  checkOperands f i valsL valsR

theorem operand_constIdx {f : FilterInfo} {ctx : ExpCtx} {expNos : Int} {constIdx next : Nat}
    {val : Pointer} (h : operand f ctx expNos constIdx = some (val, next)) :
    next = constIdx + [expNos].count (-1) := by
  unfold operand at h
  split at h
  · obtain ⟨c, -, hc⟩ := Option.map_eq_some_iff.mp h
    cases hc
    simp [*]
  · split at h
    · cases h
    · obtain ⟨p, -, hp⟩ := Option.map_eq_some_iff.mp h
      cases hp
      simp [*]

theorem constantsBefore_succ (f : FilterInfo) (i : Nat) :
    f.constantsBefore (i + 1) =
      f.constantsBefore i + [f.expLNos.getD i 0].count (-1) + [f.expRNos.getD i 0].count (-1) := by
  have hnext : f.operandsBefore (i + 1) =
      f.operandsBefore i ++ [f.expLNos.getD i 0] ++ [f.expRNos.getD i 0] := by
    simp [FilterInfo.operandsBefore, List.range_succ]
  rw [FilterInfo.constantsBefore, hnext, List.count_append, List.count_append]
  rfl

theorem checkFrom_eq {f : FilterInfo} {ctx : ExpCtx} {n i : Nat} (hl : i + n ≤ f.expLNos.length)
    (hr : i + n ≤ f.expRNos.length) :
    checkFrom f ctx n i (f.constantsBefore i) = (List.range' i n).allM (conditionAt f ctx) := by
  induction n generalizing i with
  | zero => rfl
  | succ n ih =>
    have hgetl : f.expLNos[i]? = some (f.expLNos.getD i 0) := by
      simp [show i < f.expLNos.length by omega]
    have hgetr : f.expRNos[i]? = some (f.expRNos.getD i 0) := by
      simp [show i < f.expRNos.length by omega]
    rw [List.range'_succ, checkFrom, List.allM, conditionAt, hgetl, hgetr]
    simp only [Option.bind_eq_bind, Option.bind_some]
    cases hvl : operand f ctx (f.expLNos.getD i 0) (f.constantsBefore i) with
    | none => rfl
    | some vl =>
      obtain ⟨vl, next⟩ := vl
      obtain rfl := operand_constIdx hvl
      simp only [Option.bind_some]
      cases hvr : operand f ctx (f.expRNos.getD i 0)
          (f.constantsBefore i + [f.expLNos.getD i 0].count (-1)) with
      | none => rfl
      | some vr =>
        obtain ⟨vr, next⟩ := vr
        obtain rfl := operand_constIdx hvr
        simp only [Option.bind_some]
        cases checkOperands f i vl vr with
        | none => rfl
        | some b =>
          cases b with
          | false => rfl
          | true =>
            rw [← constantsBefore_succ]
            exact ih (by omega) (by omega)

/-- **`exp_eval_and_check_true`** is the conjunction of the conditions, each
with the constants behind those of the conditions before it. It ends at the
first one that is false. -/
theorem expEvalAndCheckTrue_eq {f : FilterInfo} (hf : f.WellFormed) (ctx : ExpCtx) :
    expEvalAndCheckTrue f ctx = (List.range f.expCnt.toNat).allM (conditionAt f ctx) := by
  have hl := hf.expLNos.1
  have hr := hf.expRNos.1
  have h : checkFrom f ctx f.expCnt.toNat 0 (f.constantsBefore 0) =
      (List.range' 0 f.expCnt.toNat).allM (conditionAt f ctx) :=
    checkFrom_eq (by omega) (by omega)
  rwa [← List.range_eq_range'] at h

/-- The loop ends at the first condition that is not true. -/
theorem allM_eq_some_iff {α : Type} {p : α → Option Bool} {l : List α} :
    (l.allM p = some true ↔ ∀ a ∈ l, p a = some true) ∧
      (l.allM p = some false ↔ ∃ done a rest, l = done ++ a :: rest ∧
        (∀ b ∈ done, p b = some true) ∧ p a = some false) := by
  induction l with
  | nil => simp [List.allM]
  | cons a l ih =>
    rw [List.allM]
    constructor
    · rw [List.forall_mem_cons, ← ih.1]
      cases p a with
      | none => simp
      | some b => cases b <;> simp
    · constructor
      · intro h
        cases ha : p a with
        | none => simp [ha] at h
        | some b =>
          cases b with
          | false => exact ⟨[], a, l, rfl, by simp, ha⟩
          | true =>
            obtain ⟨done, c, rest, rfl, hdone, hc⟩ := ih.2.mp (by simpa [ha] using h)
            exact ⟨a :: done, c, rest, rfl, List.forall_mem_cons.mpr ⟨ha, hdone⟩, hc⟩
      · rintro ⟨done, c, rest, hsplit, hdone, hc⟩
        obtain _ | ⟨d, done⟩ := done
        · obtain ⟨rfl, rfl⟩ := List.cons.inj hsplit
          simp [hc]
        · obtain ⟨rfl, rfl⟩ := List.cons.inj hsplit
          rw [hdone a (by simp)]
          exact ih.2.mpr ⟨done, c, rest, rfl, fun b hb => hdone b (by simp [hb]), hc⟩

/-- **The answers of a filter**: it is true when every condition is, and false
when a condition is after conditions that are true. The constants a condition
takes are those behind the ones of the conditions before it. -/
theorem expEvalAndCheckTrue_iff {f : FilterInfo} (hf : f.WellFormed) (ctx : ExpCtx) :
    (expEvalAndCheckTrue f ctx = some true ↔
      ∀ i < f.expCnt.toNat, conditionAt f ctx i = some true) ∧
    (expEvalAndCheckTrue f ctx = some false ↔
      ∃ i < f.expCnt.toNat, (∀ j < i, conditionAt f ctx j = some true) ∧
        conditionAt f ctx i = some false) := by
  rw [expEvalAndCheckTrue_eq hf]
  refine ⟨allM_eq_some_iff.1.trans (by simp), allM_eq_some_iff.2.trans ?_⟩
  constructor
  · rintro ⟨done, i, rest, hsplit, hdone, hi⟩
    obtain ⟨rfl, hlt⟩ := Loops.range_eq_append_cons hsplit
    exact ⟨i, hlt, fun j hj => hdone j (List.mem_range.mpr hj), hi⟩
  · rintro ⟨i, hlt, hdone, hi⟩
    obtain ⟨done, rest, hsplit⟩ := List.append_of_mem (List.mem_range.mpr hlt)
    obtain ⟨rfl, -⟩ := Loops.range_eq_append_cons hsplit
    exact ⟨_, i, rest, hsplit, fun j hj => hdone j (List.mem_range.mp hj), hi⟩

theorem csdInfo_wellFormed : csdInfo.WellFormed := by
  constructor <;> decide

/-- A row that the filter of `csd_info.dump` selects. -/
def charRow : Row where
  columns :=
    [⟨[16, 84, 69, 83, 84, 95, 86, 65, 82, 67, 72, 65, 82, 95, 56, 48, 48], rfl⟩,
      ⟨[1, 65], rfl⟩, ⟨[8, 120, 126, 6, 6, 0, 0, 0, 1], rfl⟩,
      ⟨[13, 84, 69, 83, 84, 95, 67, 72, 65, 82, 95, 49, 48, 48], rfl⟩]
  ne_nil := by decide

/-- The three conditions hold of the row. -/
theorem expEvalAndCheckTrue_charRow :
    ∃ ctx, buildData (expCtxInit 4) (charRow.pointer [] 0) csdInfo.colCnt charRow.columns.length
        (some csdInfo.useCols) csdInfo.useColCnt = some ctx ∧
      ((expEvalAndCheckTrue csdInfo ctx = some true ↔
        ∀ i < csdInfo.expCnt.toNat, conditionAt csdInfo ctx i = some true) ∧
      (expEvalAndCheckTrue csdInfo ctx = some false ↔
        ∃ i < csdInfo.expCnt.toNat, (∀ j < i, conditionAt csdInfo ctx j = some true) ∧
          conditionAt csdInfo ctx i = some false)) ∧
      expEvalAndCheckTrue csdInfo ctx = some true :=
  ⟨_, rfl, expEvalAndCheckTrue_iff csdInfo_wellFormed _, by decide +kernel⟩

/-! ## The rows a filter selects -/

def ExpOpType.answers : ExpOpType → Ordering → Bool
  | .equal, o => o.isEq
  | .ne, o => o.isNe
  | .gt, o => o.isGT
  | .lt, o => o.isLT
  | .ge, o => o.isGE
  | .le, o => o.isLE
  | _, _ => false

/-- The condition holds of the data of two columns. -/
def satisfies (l r : Column) (opType : Option ExpOpType) (isCharType : Bool) : Bool :=
  !l.value.isEmpty && !r.value.isEmpty && opType.any fun op =>
    op.answers (if isCharType then Padded.scan 32 l.codes r.codes
      else compareOfLessAndEq l.codes r.codes)

theorem ExpOpType.holds_eq_answers {cmp : Int} {o : Ordering} (hlt : cmp < 0 ↔ o = .lt)
    (heq : cmp = 0 ↔ o = .eq) (op : Option ExpOpType) :
    ExpOpType.holds op cmp = op.any (·.answers o) := by
  have hgt : 0 < cmp ↔ o = .gt := by
    cases o <;> simp at hlt heq <;> simp <;> omega
  cases op with
  | none => rfl
  | some op => cases op <;> cases o <;> simp_all [holds, answers]

theorem expEvalCondition_eq {l r : Column} (hl : l.Plain) (hr : r.Plain) (restL restR : Pointer)
    (op : Option ExpOpType) (isCharType : Bool) :
    expEvalCondition (l.bytes ++ restL) (r.bytes ++ restR) op isCharType =
      some (satisfies l r op isCharType) := by
  by_cases hnull : l.value = [] ∨ r.value = []
  · rw [expEvalCondition_null hnull, satisfies]
    rcases hnull with h | h <;> simp [h]
  · rw [not_or] at hnull
    have hempty : (!l.value.isEmpty && !r.value.isEmpty) = true := by simp [hnull]
    rw [expEvalCondition_value hl hr restL restR hnull, satisfies, hempty, Bool.true_and]
    cases isCharType with
    | false =>
      obtain ⟨c, hc, hlt, heq⟩ := compareData_binary l.value r.value restL restR
      have heq' : c = 0 ↔ compareOfLessAndEq l.codes r.codes = .eq :=
        heq.trans (compareOfLessAndEq_eq_eq le_refl not_le).symm
      rw [hc, Option.map_some,
        ExpOpType.holds_eq_answers (hlt.trans compareOfLessAndEq_eq_lt.symm) heq']
      rfl
    | true =>
      obtain ⟨c, hc, hlt, heq⟩ := compareData_char l.value r.value restL restR
      rw [hc, Option.map_some, ExpOpType.holds_eq_answers hlt heq]
      rfl

/-- The operand of a condition in a row. -/
def FilterInfo.operandColumn? (f : FilterInfo) (row : Row) (no : Int) (constIdx : Nat) :
    Option Column :=
  if no = -1 then f.constVals[constIdx]?
  else if no < 0 then none
  else row.columns[no.toNat]?

/-- Condition `i` holds of the row. -/
def FilterInfo.conditionHolds (f : FilterInfo) (row : Row) (i : Nat) : Bool :=
  let left := f.expLNos.getD i 0
  let right := f.expRNos.getD i 0
  ((f.operandColumn? row left (f.constantsBefore i)).bind fun l =>
    (f.operandColumn? row right (f.constantsBefore i + [left].count (-1))).map fun r =>
      satisfies l r (ExpOpType.ofCode? (f.opTypes.getD i 0)) (f.isCharType.getD i 0 ≠ 0)).getD false

/-- The filter selects the row. -/
def FilterInfo.selects (f : FilterInfo) (row : Row) : Bool :=
  (List.range f.expCnt.toNat).all (f.conditionHolds row)

/-- The operand is a constant of the filter or a column that is used. -/
def FilterInfo.Finds (f : FilterInfo) (no : Int) (constIdx : Nat) : Prop :=
  if no = -1 then constIdx < f.constVals.length
  else 0 ≤ no ∧ no < f.colCnt ∧ Uses f.useCols no.toNat

instance (f : FilterInfo) (no : Int) (constIdx : Nat) : Decidable (f.Finds no constIdx) :=
  inferInstanceAs (Decidable (if no = -1 then constIdx < f.constVals.length
    else 0 ≤ no ∧ no < f.colCnt ∧ Uses f.useCols no.toNat))

/-- A filter as it is meant: its used columns are counted in full, and its
conditions are on them and on its constants. -/
structure FilterInfo.Sound (f : FilterInfo) : Prop where
  wellFormed : f.WellFormed
  counted : ((List.range f.colCnt.toNat).countP (Uses f.useCols ·) : Int) ≤ f.useColCnt
  finds : ∀ i < f.expCnt.toNat, f.Finds (f.expLNos.getD i 0) (f.constantsBefore i) ∧
    f.Finds (f.expRNos.getD i 0) (f.constantsBefore i + [f.expLNos.getD i 0].count (-1))
  plain : ∀ c ∈ f.constVals, c.Plain

theorem csdInfo_sound : csdInfo.Sound where
  wellFormed := csdInfo_wellFormed
  counted := by decide
  finds := by decide
  plain := by decide

/-- The columns of the evaluation are those of the row, as far as it goes. -/
def ExpCtx.Shows (ctx : ExpCtx) (f : FilterInfo) (row : Row) (rest : Pointer) : Prop :=
  ∀ j < f.colCnt.toNat, j < row.columns.length → Uses f.useCols j →
    ctx.val j = some (row.pointer rest j)

theorem operand_of_finds {f : FilterInfo} {ctx : ExpCtx} {row : Row} {rest : Pointer}
    (hctx : ctx.Shows f row rest) (hrow : ∀ c ∈ row.columns, c.Plain)
    (hconst : ∀ c ∈ f.constVals, c.Plain) {no : Int} {constIdx : Nat} (h : f.Finds no constIdx)
    (hno : no < row.columns.length) :
    ∃ c restC next, operand f ctx no constIdx = some (c.bytes ++ restC, next) ∧
      f.operandColumn? row no constIdx = some c ∧ c.Plain := by
  unfold FilterInfo.Finds at h
  unfold operand FilterInfo.operandColumn?
  by_cases hconstant : no = -1
  · rw [if_pos hconstant] at h ⊢
    have hget : f.constVals[constIdx]? = some f.constVals[constIdx] := List.getElem?_eq_getElem h
    refine ⟨f.constVals[constIdx], [], constIdx + 1, ?_, ?_, hconst _ (List.getElem_mem h)⟩
    · simp [hget]
    · rw [if_pos hconstant, hget]
  · rw [if_neg hconstant] at h ⊢
    obtain ⟨hpos, hlt, hused⟩ := h
    have hin : no.toNat < row.columns.length := by omega
    have hget : row.columns[no.toNat]? = some row.columns[no.toNat] := List.getElem?_eq_getElem hin
    obtain ⟨restC, hrest⟩ := row.pointer_of_column hget rest
    refine ⟨row.columns[no.toNat], restC, constIdx, ?_, ?_, hrow _ (List.getElem_mem hin)⟩
    · rw [if_neg (by omega), hctx no.toNat (by omega) hin hused, hrest]
      rfl
    · rw [if_neg hconstant, if_neg (by omega), hget]

/-- The columns the conditions ask for are in the row. -/
def FilterInfo.OperandsIn (f : FilterInfo) (row : Row) : Prop :=
  ∀ i < f.expCnt.toNat, f.expLNos.getD i 0 < row.columns.length ∧
    f.expRNos.getD i 0 < row.columns.length

/-- **The filter of a row**: a sound filter is true of the columns of a row
exactly when it selects the row. -/
theorem expEvalAndCheckTrue_row {f : FilterInfo} (hf : f.Sound) {ctx : ExpCtx} {row : Row}
    {rest : Pointer} (hctx : ctx.Shows f row rest) (hrow : ∀ c ∈ row.columns, c.Plain)
    (hoperands : f.OperandsIn row) :
    expEvalAndCheckTrue f ctx = some (f.selects row) := by
  have hall : ∀ i < f.expCnt.toNat, conditionAt f ctx i = some (f.conditionHolds row i) := by
    intro i hi
    obtain ⟨hleft, hright⟩ := hf.finds i hi
    obtain ⟨hlin, hrin⟩ := hoperands i hi
    obtain ⟨l, restL, _, hl, hl', hlplain⟩ := operand_of_finds hctx hrow hf.plain hleft hlin
    obtain ⟨r, restR, _, hr, hr', hrplain⟩ := operand_of_finds hctx hrow hf.plain hright hrin
    have hop : f.opTypes[i]? = some (f.opTypes.getD i 0) := by
      simp [show i < f.opTypes.length by have := hf.wellFormed.opTypes.1; omega]
    have hchar : f.isCharType[i]? = some (f.isCharType.getD i 0) := by
      simp [show i < f.isCharType.length by have := hf.wellFormed.isCharType; omega]
    have hcheck : checkOperands f i (l.bytes ++ restL) (r.bytes ++ restR) =
        some (satisfies l r (ExpOpType.ofCode? (f.opTypes.getD i 0))
          (f.isCharType.getD i 0 ≠ 0)) := by
      rw [checkOperands, Column.rpcolGetSize, Column.rpcolGetSize, hop, hchar]
      simp only [Option.bind_eq_bind, Option.bind_some]
      split
      · rename_i hnull
        rw [satisfies]
        rcases hnull with h | h <;> simp [List.eq_nil_of_length_eq_zero h]
      · exact expEvalCondition_eq hlplain hrplain restL restR _ _
    simp only [conditionAt, FilterInfo.conditionHolds, hl, hr, hl', hr', Option.bind_eq_bind,
      Option.bind_some, Option.map_some, hcheck, Option.getD_some]
  rw [expEvalAndCheckTrue_eq hf.wellFormed, FilterInfo.selects]
  have hrun : ∀ is : List Nat, (∀ i ∈ is, i < f.expCnt.toNat) →
      is.allM (conditionAt f ctx) = some (is.all (f.conditionHolds row)) := by
    intro is his
    induction is with
    | nil => rfl
    | cons i is ih =>
      rw [List.allM, hall i (his i (by simp)), List.all_cons]
      cases f.conditionHolds row i with
      | false => rfl
      | true => exact ih fun j hj => his j (by simp [hj])
  exact hrun _ fun i hi => List.mem_range.mp hi

end KetiEngine.TmaxLib
