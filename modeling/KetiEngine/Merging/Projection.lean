import KetiEngine.MachineInt
import KetiEngine.Snippet
import KetiEngine.Table

/-!
# Projection — the value of a projection on one row

`Projection` and `Postfix`: a postfix expression, `CASE`, `SUBSTRING` and
`EXTRACT` over one row of a table. Integers are `int64_t` and wrap around;
`double` arithmetic is exact. A branch of the source that only logs an error
pushes nothing; `none` is undefined behaviour or an uncaught exception.
-/

namespace KetiEngine.Merging

open KetiEngine

/-- `struct T`: a value with its type tag. -/
structure T where
  varString : String := ""
  varInt : Int := 0
  varFloat : Double := .fin 0
  isnull : Bool := false
  boolean : Bool := false
  type : VectorType := .empty
  realSize : Int := 0
  deriving DecidableEq

/-- What a projection can read of one row of a table. -/
structure RowEnv where
  type : String → VectorType
  realSize : String → Int
  strvec : String → Option String
  intvec : String → Option Int
  floatvec : String → Option Double

def rowEnv (t : ColMap) (rowIndex : Nat) : RowEnv where
  type name := (t.get name).type
  realSize name := (t.get name).realSize
  strvec name := (t.get name).strvec[rowIndex]?
  intvec name := (t.get name).intvec[rowIndex]?
  floatvec name := (t.get name).floatvec[rowIndex]?

/-! ## `Postfix` -/

/-- A column's value in the row. -/
def columnOperand (env : RowEnv) (name : String) : Option T :=
  match env.type name with
  | .string => (env.strvec name).map fun s => { varString := s, type := .string }
  | .int => (env.intvec name).map fun n => { varInt := n, type := .int }
  | .date => (env.intvec name).map fun n => { varInt := n, type := .date }
  | .float => (env.floatvec name).map fun x =>
      { varFloat := x, realSize := env.realSize name, type := .float }
  | .empty => some { type := .empty }
  | .boolean => some { type := .boolean }

/-- The operator `+`. It looks at the type of the first operand only. -/
def plus (oper1 oper2 : T) : Option (List T) :=
  match oper1.type with
  | .int => some [{ varInt := toInt64 (oper1.varInt + oper2.varInt), type := .int }]
  | .float => some [{
      varFloat := oper1.varFloat.add oper2.varFloat
      type := .float
      realSize := oper1.realSize }]
  | _ => some []

/-- The operators that look at the types of both operands. A FLOAT with an
INT operand stores its value in `varInt` under the tag FLOAT. -/
def arithmetic (onInt : Int → Int → Option Int) (onFloat : Double → Double → Double)
    (size : Int → Int → Int) (oper1 oper2 : T) : Option (List T) :=
  match oper1.type, oper2.type with
  | .int, .int => (onInt oper1.varInt oper2.varInt).map fun n => [{ varInt := n, type := .int }]
  | .int, .float => some [{
      varFloat := onFloat (.ofInt oper1.varInt) oper2.varFloat
      type := .float
      realSize := oper2.realSize }]
  | .float, .int => some [{
      varInt := (onFloat oper1.varFloat (.ofInt oper2.varInt)).toInt64
      type := .float
      realSize := oper1.realSize }]
  | .float, .float => some [{
      varFloat := onFloat oper1.varFloat oper2.varFloat
      type := .float
      realSize := size oper1.realSize oper2.realSize }]
  | _, _ => some []

def minus : T → T → Option (List T) :=
  arithmetic (fun m n => some (toInt64 (m - n))) Double.sub fun size1 _ => size1

def times : T → T → Option (List T) :=
  arithmetic (fun m n => some (toInt64 (m * n))) Double.mul fun size1 size2 => size1 + size2

/-- The quotient of two `int64_t`; a division by zero traps, and so does one
whose quotient is too large. -/
def quotient (m n : Int) : Option Int :=
  if n = 0 ∨ m = -2 ^ 63 ∧ n = -1 then none else some (m.tdiv n)

def divided : T → T → Option (List T) :=
  arithmetic quotient Double.div fun size1 size2 => size1 + size2

/-- The operator `=`; it compares the types of two strings. -/
def equals (oper1 oper2 : T) : Option (List T) :=
  some [{ boolean := oper1.type = .string && oper2.type = .string && oper1.type = oper2.type }]

/-- The operator `<>`, likewise. -/
def notEquals (oper1 oper2 : T) : Option (List T) :=
  some [{ boolean := oper1.type = .string && oper2.type = .string && oper1.type ≠ oper2.type }]

/-- `'%str%'`, `'%str'`, `'str%'` and `'str'`. -/
def likeMatches (col str : String) : Option Bool := do
  let last : Int := (str.length : Int) - 1
  if (← substr str 0 1) = "%" ∧ substr str last (-1) = some "%" then
    let findStr ← substr str 1 ((str.length : Int) - 2)
    pure (contains col findStr)
  else if (← substr str 0 1) = "%" then
    let findStr ← substr str 1 (-1)
    let comp ← substr col ((col.length : Int) - findStr.length) (-1)
    pure (findStr = comp)
  else if (← substr str last (-1)) = "%" then
    let findStr ← substr str 0 last
    let comp ← substr col 0 findStr.length
    pure (findStr = comp)
  else pure (col = str)

/-- The operator `LIKE`. -/
def like (oper1 oper2 : T) : Option (List T) :=
  if oper1.type = .string ∧ oper2.type = .string then do
    let matched ← likeMatches (trim oper1.varString) (trim oper2.varString)
    pure [{ boolean := matched }]
  else some []

/-- The operators by their text. -/
def operator? (value : String) : Option (T → T → Option (List T)) :=
  if value = "+" then some plus
  else if value = "-" then some minus
  else if value = "*" then some times
  else if value = "/" then some divided
  else if value = "=" then some equals
  else if value = "<>" then some notEquals
  else if value = "LIKE" then some like
  else none

/-- One token of `Postfix`. -/
def postfixStep (env : RowEnv) (operStack : List T) (value : String) (valueType : ValueType) :
    Option (List T) :=
  match valueType with
  | .column => (columnOperand env value).map (· :: operStack)
  | .operator =>
      match operator? value with
      | none => some operStack
      | some oper =>
          match operStack with
          | oper2 :: oper1 :: rest => (oper oper1 oper2).map (· ++ rest)
          | _ => none
  | .float32 | .double => (stod value).map fun x =>
      { varFloat := x, type := .float, realSize := countDecimalPlaces value } :: operStack
  | .decimal => (stod value).map fun x =>
      { varFloat := x, type := .float, realSize := 2 } :: operStack
  | .int16 | .int32 | .int64 => (stoi value).map fun n =>
      { varInt := n, type := .int } :: operStack
  | .string => some ({ varString := value, type := .string } :: operStack)
  | .int8 | .date | .timestamp | .boolean => some operStack

/-- `Postfix` on the tokens from `start` to before `stop`. -/
def postfixValue (env : RowEnv) (p : Projection) (start stop : Nat) : Option T := do
  let operStack ← (List.range' start (stop - start)).foldlM (fun operStack i => do
    let valueType ← p.valueType[i]?
    let value ← p.value[i]?
    postfixStep env operStack value valueType) []
  operStack.head?

/-- The loop of `Postfix` over these tokens, from any stack. -/
def postfixLoop (env : RowEnv) (p : Projection) (start stop : Nat) (operStack : List T) :
    Option (List T) :=
  (List.range' start (stop - start)).foldlM (fun operStack i => do
    let valueType ← p.valueType[i]?
    let value ← p.value[i]?
    postfixStep env operStack value valueType) operStack

theorem postfixValue_eq (env : RowEnv) (p : Projection) (start stop : Nat) :
    postfixValue env p start stop = (postfixLoop env p start stop []).bind List.head? := rfl

/-! ## `CASE` -/

/-- The first loop of `CASE`: the offsets of the last `WHEN`, of all pairs of
`WHEN` and `THEN`, and of `ELSE`. An offset not found is uninitialised. -/
structure CaseOffsets where
  whenOffset : Option Nat := none
  whenThenOffset : List (Option Nat × Nat) := []
  elseOffset : Option Nat := none

def caseOffsets (value : List String) : CaseOffsets :=
  (value.zipIdx.drop 1).foldl (fun st e =>
    if e.1 = "WHEN" then { st with whenOffset := some e.2 }
    else if e.1 = "THEN" then
      { st with whenThenOffset := st.whenThenOffset ++ [(st.whenOffset, e.2)] }
    else if e.1 = "ELSE" then { st with elseOffset := some e.2 }
    else st) {}

/-- The loop over one `WHEN`: `passed` at its end. -/
def casePassed (env : RowEnv) (p : Projection) : Nat → List Nat → Option Bool
  | _, [] => some false
  | start, offset :: rest => do
      let value ← p.value[offset]?
      if value = "AND" then do
        let t ← postfixValue env p start offset
        if t.boolean then casePassed env p (offset + 1) rest else pure false
      else if value = "OR" then do
        let t ← postfixValue env p start offset
        if t.boolean then pure true else casePassed env p (offset + 1) rest
      else if value = "THEN" then do
        let t ← postfixValue env p start offset
        if t.boolean then pure true else casePassed env p start rest
      else casePassed env p start rest

/-- The value of a branch, by its type. -/
def branchResult (t : T) : T :=
  match t.type with
  | .int => { varInt := t.varInt, type := .int }
  | .string => { varString := t.varString, type := .string }
  | .float => { varFloat := t.varFloat, realSize := t.realSize, type := .float }
  | .empty => { type := .empty }
  | .boolean => { type := .boolean }
  | .date => { type := .date }

/-- The branch after the `THEN` at `thenOffset`. -/
def thenBranch (env : RowEnv) (p : Projection) (thenOffset : Nat) : Option T := do
  let length ← (p.value.drop (thenOffset + 1)).findIdx? fun value =>
    value = "WHEN" || value = "ELSE" || value = "END"
  let t ← postfixValue env p (thenOffset + 1) (thenOffset + 1 + length)
  pure (branchResult t)

/-- The loop over the pairs: the branch of the first that passes. -/
def caseWhenThen (env : RowEnv) (p : Projection) :
    List (Option Nat × Nat) → Option (Option T)
  | [] => some none
  | (whenOffset, thenOffset) :: rest => do
      let whenOffset ← whenOffset
      let passed ← casePassed env p (whenOffset + 1)
        (List.range' (whenOffset + 1) (thenOffset - whenOffset))
      if passed then (thenBranch env p thenOffset).map some else caseWhenThen env p rest

def caseValue (env : RowEnv) (p : Projection) : Option T := do
  let offsets := caseOffsets p.value
  match ← caseWhenThen env p offsets.whenThenOffset with
  | some t => pure t
  | none => do
      let elseOffset ← offsets.elseOffset
      let t ← postfixValue env p (elseOffset + 1) (p.value.length - 1)
      pure (branchResult t)

/-! ## `SUBSTRING` and `EXTRACT` -/

def substringValue (env : RowEnv) (p : Projection) : Option T := do
  let src ← p.value[1]?
  let type ← p.valueType[1]?
  let start ← p.value[2]? >>= stoi
  let length ← p.value[3]? >>= stoi
  let value ←
    (match type with
    | .column => env.strvec src
    | .string => some src
    | _ => some "")
  let varString ← substr value start length
  pure { varString, type := .string }

/-- A value cut to an `int` where it is an INT. -/
def narrow : Value → Value
  | .int n => .int (toInt32 n)
  | v => v

/-- `unit` of a packed date. -/
def datePart (unit : String) (value : Int) : Option Int :=
  if unit = "YEAR" then some (value.tdiv 512)
  else if unit = "MONTH" then some ((value.tmod 512).tdiv 32)
  else if unit = "DAY" then some ((value.tmod 512).tmod 32)
  else none

def extractValue (env : RowEnv) (p : Projection) : Option T := do
  let unit ← p.value[1]?
  let col ← p.value[2]?
  let type ← p.valueType[2]?
  if type = .column then do
    let value ← env.intvec col
    let result ← datePart unit (toInt32 value)
    pure { varInt := result, type := .date }
  else none

/-! ## `Projection` -/

/-- The words `Projection` looks for at the start of an expression. -/
def keywords : List String := ["CASE", "SUBSTRING", "EXTRACT"]

def projectionValue (env : RowEnv) (p : Projection) : Option T := do
  let firstOperator ← p.value[0]?
  if firstOperator = "CASE" then caseValue env p
  else if firstOperator = "SUBSTRING" then substringValue env p
  else if firstOperator = "EXTRACT" then extractValue env p
  else postfixValue env p 0 p.value.length

/-- `Projection` on row `rowIndex`. -/
def projection (t : ColMap) (p : Projection) (rowIndex : Nat) : Option T :=
  projectionValue (rowEnv t rowIndex) p

/-! ## What a numeric projection reads -/

/-- The operand a value of the column `c` becomes. -/
def valueOperand (c : ColData) : Value → T
  | .string s => { varString := s, type := .string }
  | .int n => { varInt := n, type := c.type }
  | .float x => { varFloat := x, realSize := c.realSize, type := .float }

theorem columnOperand_eq {t : ColMap} {name : String} (h : (t.get name).Stored) (i : Nat) :
    columnOperand (rowEnv t i) name = ((t.get name).value? i).map (valueOperand (t.get name)) := by
  unfold columnOperand ColData.value? rowEnv
  rcases h with h | h | h | h <;>
    simp only [h, Option.map_map, Function.comp_def, valueOperand]

/-- Two rows give the operands of a postfix expression the same values. -/
def SameOperands (env env' : RowEnv) : Prop :=
  ∀ name, columnOperand env name = columnOperand env' name

/-- Rows with the same values in columns of the same types have the same
operands; the decimals of a FLOAT column are part of its operand. -/
theorem sameOperands_of_values {t t' : ColMap} {r k : Nat} (hnames : ∀ name, name ∈ t' ↔ name ∈ t)
    (hstored : ∀ name ∈ t, (t.get name).Stored)
    (htype : ∀ name ∈ t, (t'.get name).type = (t.get name).type)
    (hsize : ∀ name ∈ t, (t.get name).type = .float →
      (t'.get name).realSize = (t.get name).realSize)
    (hvalue : ∀ name ∈ t, (t'.get name).value? k = (t.get name).value? r) :
    SameOperands (rowEnv t r) (rowEnv t' k) := by
  intro name
  by_cases hname : name ∈ t
  · have hstored' : (t'.get name).Stored := by
      unfold ColData.Stored
      rw [htype name hname]
      exact hstored name hname
    rw [columnOperand_eq (hstored name hname), columnOperand_eq hstored', hvalue name hname]
    refine Option.map_congr fun v hv => ?_
    cases v with
    | string s => rfl
    | int n => simp only [valueOperand, htype name hname]
    | float x =>
      -- only a FLOAT column has such a value
      have hfloat : (t.get name).type = .float := by
        unfold ColData.value? at hv
        rcases hstored name hname with ht | ht | ht | ht <;>
          simp only [ht, Option.map_eq_some_iff, reduceCtorEq, and_false, exists_const] at hv
        exact ht
      simp only [valueOperand, hsize name hname hfloat]
  · simp only [columnOperand, rowEnv, ColMap.get_of_notMem hname,
      ColMap.get_of_notMem fun h => hname ((hnames name).mp h)]

section
variable {env env' : RowEnv} (h : SameOperands env env') (p : Projection)
include h

theorem SameOperands.postfixStep (operStack : List T) (value : String) (valueType : ValueType) :
    postfixStep env operStack value valueType = postfixStep env' operStack value valueType := by
  cases valueType with
  | column => simp only [Merging.postfixStep, h value]
  | _ => rfl

theorem SameOperands.postfixValue (start stop : Nat) :
    postfixValue env p start stop = postfixValue env' p start stop := by
  simp only [Merging.postfixValue, h.postfixStep]

theorem SameOperands.casePassed (start : Nat) (offsets : List Nat) :
    casePassed env p start offsets = casePassed env' p start offsets := by
  induction offsets generalizing start with
  | nil => rfl
  | cons offset rest ih => simp only [Merging.casePassed, h.postfixValue p, ih]

theorem SameOperands.caseWhenThen (pairs : List (Option Nat × Nat)) :
    caseWhenThen env p pairs = caseWhenThen env' p pairs := by
  induction pairs with
  | nil => rfl
  | cons pair rest ih =>
    simp only [Merging.caseWhenThen, thenBranch, h.casePassed p, h.postfixValue p, ih]

theorem SameOperands.caseValue : caseValue env p = caseValue env' p := by
  simp only [Merging.caseValue, h.caseWhenThen p, h.postfixValue p]

end

/-- The value in the field the type tag selects. -/
def T.value? (t : T) : Option Value :=
  match t.type with
  | .string => some (.string t.varString)
  | .int | .date => some (.int t.varInt)
  | .float => some (.float t.varFloat)
  | .empty | .boolean => none

/-- The projections whose value is a number on every row are those of `CASE`
and of postfix expressions. -/
def T.Numeric (t : T) : Prop := t.type = .int ∨ t.type = .float

/-- A substring is a STRING. -/
theorem substringValue_type {env : RowEnv} {p : Projection} {t : T}
    (h : substringValue env p = some t) : t.type = .string := by
  unfold substringValue at h
  simp only [Option.bind_eq_bind, Option.bind_eq_some_iff] at h
  obtain ⟨_, _, _, _, _, _, _, _, _, _, _, _, h⟩ := h
  cases h
  rfl

/-- A part of a date is a DATE. -/
theorem extractValue_type {env : RowEnv} {p : Projection} {t : T}
    (h : extractValue env p = some t) : t.type = .date := by
  unfold extractValue at h
  simp only [Option.bind_eq_bind, Option.bind_eq_some_iff] at h
  obtain ⟨_, _, _, _, _, _, h⟩ := h
  split at h
  · simp only [Option.bind_eq_some_iff] at h
    obtain ⟨_, _, _, _, h⟩ := h
    cases h
    rfl
  · cases h

/-- **A numeric value** depends on the operands of the row only. -/
theorem SameOperands.projectionValue {env env' : RowEnv} (h : SameOperands env env')
    {p : Projection} {t : T} (hrun : projectionValue env p = some t) (hnum : t.Numeric) :
    projectionValue env' p = some t := by
  obtain ⟨first, hfirst, hrun⟩ := Option.bind_eq_some_iff.mp hrun
  unfold Merging.projectionValue
  rw [hfirst]
  simp only [Option.bind_eq_bind, Option.bind_some]
  split at hrun
  case isTrue hcase => rwa [if_pos hcase, ← h.caseValue]
  case isFalse hcase =>
    rw [if_neg hcase]
    split at hrun
    case isTrue hsub =>
      exfalso
      simp [T.Numeric, substringValue_type hrun] at hnum
    case isFalse hsub =>
      rw [if_neg hsub]
      split at hrun
      case isTrue hextract =>
        exfalso
        simp [T.Numeric, extractValue_type hrun] at hnum
      case isFalse hextract => rwa [if_neg hextract, ← h.postfixValue p]

end KetiEngine.Merging
