import KetiEngine.MachineInt
import KetiEngine.Snippet
import KetiEngine.Text
import KetiEngine.Lib.Postfix
import KetiEngine.Merging.Block

/-!
# ReturnType — the return layout the offloading module declares

`calcul_return_column_type` and the two type tables it uses, and when the
layout it declares is one that `mergeResult` can decode.
-/

namespace KetiEngine.Offloading

open KetiEngine PostfixExpr

/-! ## The source functions -/

def getLengthByType (valueType : Int) : Int :=
  if valueType = 0 then 1
  else if valueType = 1 then 2
  else if valueType = 2 then 4
  else if valueType = 3 then 8
  else if valueType = 4 then 4
  else if valueType = 5 then 8
  else if valueType = 7 then 4
  else if valueType = 8 then 8
  else if valueType = 14 then 3
  else if valueType = 246 then 7
  else 0

def getValueTypeToMysqlType (valueType : Int) : Int :=
  if valueType = 0 then 2
  else if valueType = 1 then 2
  else if valueType = 2 then 3
  else if valueType = 3 then 8
  else if valueType = 4 then 4
  else if valueType = 5 then 5
  else if valueType = 6 then 246
  else if valueType = 7 then 14
  else if valueType = 8 then 7
  else if valueType = 9 then 254
  else 0

/-- The `unordered_map<string, int>` pair of the schema's columns. -/
structure ColumnMaps where
  columnType : AList (fun _ : String => Int) := ∅
  columnLength : AList (fun _ : String => Int) := ∅

/-- `m.insert({name, n})`: an entry that is there stays. -/
def insertNew (m : AList (fun _ : String => Int)) (name : String) (n : Int) :
    AList (fun _ : String => Int) :=
  if name ∈ m then m else m.insert name n

def columnMaps (columns : List SchemaColumn) : ColumnMaps :=
  columns.foldl (fun m c => {
    columnType := insertNew m.columnType c.name c.type
    columnLength := insertNew m.columnLength c.name c.length }) {}

/-- The branch for `CASE`: the token after the first `THEN` decides. -/
def caseReturn (value : List String) (valueType : List ValueType) :
    Option (List (Int × Int)) :=
  match value.findIdx? (· = "THEN") with
  | none => some []
  | some j => do
      let t ← valueType[j + 1]?
      let tempReturnType := t.code
      let tempReturnLength ←
        if getLengthByType tempReturnType = 0 then do
          let v ← value[j + 1]?
          pure (v.length : Int)
        else pure (getLengthByType tempReturnType)
      pure [(getValueTypeToMysqlType tempReturnType, tempReturnLength)]

/-- The branch for `SUBSTRING`. -/
def substringReturn (m : ColumnMaps) (value : List String) : Option (List (Int × Int)) := do
  let last ← value[3]? >>= stoi
  let first ← value[2]? >>= stoi
  let column ← value[1]?
  let substringType ← m.columnType.lookup column
  pure [(substringType, toInt32 (last - first + 1))]

/-- `postfixStack` and `decimalSizeStack`, the top of each first. -/
structure TypeStacks where
  postfixStack : List Int := []
  decimalSizeStack : List Int := []
  deriving DecidableEq

/-- The type and the decimal sizes an operator leaves; `op1` lies below
`op2`. Adding and multiplying both add the sizes up. -/
def operatorType (op1 op2 : Int) (sizes : List Int) : Option (Int × List Int) :=
  if op2 = 246 ∧ op1 = 246 then
    match sizes with
    | op2Size :: op1Size :: rest => some (246, (op1Size + op2Size) :: rest)
    | _ => none
  else if op2 = 246 ∨ op1 = 246 then
    match sizes with
    | size :: rest => some (246, size :: rest)
    | [] => none
  else some (3, sizes)

/-- One token of the loop over a postfix expression; an operator is known
by its text alone. -/
def typeStep (m : ColumnMaps) (st : TypeStacks) (token : String)
    (valueType : Option ValueType) : Option TypeStacks := do
  if token = "+" ∨ token = "-" ∨ token = "*" ∨ token = "/" then
    match st.postfixStack with
    | op2 :: op1 :: rest => do
        let (tokenType, sizes) ← operatorType op1 op2 st.decimalSizeStack
        pure { postfixStack := tokenType :: rest, decimalSizeStack := sizes }
    | _ => none
  else if (← valueType) = .column then do
    let tokenType ← m.columnType.lookup token
    pure {
      postfixStack := tokenType :: st.postfixStack
      decimalSizeStack :=
        if tokenType = 246 then 1 :: st.decimalSizeStack else st.decimalSizeStack }
  else pure { st with postfixStack := (← valueType).code :: st.postfixStack }

/-- The branch for a postfix expression. -/
def postfixReturn (m : ColumnMaps) (value : List String) (valueType : List ValueType) :
    Option (List (Int × Int)) := do
  let st ← value.zipIdx.foldlM (fun st p => typeStep m st p.1 valueType[p.2]?) {}
  let top ← st.postfixStack.head?
  if top = 3 then pure [(3, 4)]
  else do
    let size ← st.decimalSizeStack.head?
    pure [(246, 6 + size)]

/-- `column_type[name]` and `column_length[name]`, which add a missing name
with 0. -/
def bareReturn (m : ColumnMaps) (name : String) : ColumnMaps × List (Int × Int) :=
  ({ columnType := insertNew m.columnType name 0
     columnLength := insertNew m.columnLength name 0 },
    [((m.columnType.lookup name).getD 0, (m.columnLength.lookup name).getD 0)])

/-- What one projection adds to the layout, as (type, length) pairs. -/
def projectionReturn (m : ColumnMaps) (p : Projection) :
    Option (ColumnMaps × List (Int × Int)) :=
  match p.value with
  | [] => none
  | first :: rest =>
      if first = "CASE" then (caseReturn p.value p.valueType).map (m, ·)
      else if first = "EXTRACT" then some (m, [(3, 4)])
      else if first = "SUBSTRING" then (substringReturn m p.value).map (m, ·)
      else if rest = [] then some (bareReturn m first)
      else (postfixReturn m p.value p.valueType).map (m, ·)

/-- The (type, length) pairs of `calcul_return_column_type`. -/
def returnColumns (snippet : SnippetRequest) : Option (List (Int × Int)) := do
  let (_, pairs) ← snippet.projection.foldlM (fun (st : ColumnMaps × List (Int × Int)) p => do
    let (m, pairs) ← projectionReturn st.1 p
    pure (m, st.2 ++ pairs)) (columnMaps snippet.columnList, [])
  pure pairs

/-- `calcul_return_column_type`: the vectors `return_column_length` and
`return_column_type`. -/
def calculReturnColumnType (snippet : SnippetRequest) : Option (List Int × List Int) :=
  (returnColumns snippet).map fun pairs => (pairs.map Prod.snd, pairs.map Prod.fst)

/-- The loop over the projections, for the maps and the pairs so far. -/
def returnLoop (st : ColumnMaps × List (Int × Int)) (projections : List Projection) :
    Option (ColumnMaps × List (Int × Int)) :=
  projections.foldlM (fun st p => do
    let (m, pairs) ← projectionReturn st.1 p
    pure (m, st.2 ++ pairs)) st

theorem returnColumns_eq (snippet : SnippetRequest) :
    returnColumns snippet =
      (returnLoop (columnMaps snippet.columnList, []) snippet.projection).map Prod.snd := by
  unfold returnColumns
  rw [← returnLoop]
  cases returnLoop (columnMaps snippet.columnList, []) snippet.projection <;> rfl

theorem calculReturnColumnType_eq (snippet : SnippetRequest) :
    calculReturnColumnType snippet =
      (returnLoop (columnMaps snippet.columnList, []) snippet.projection).map fun st =>
        (st.2.map Prod.snd, st.2.map Prod.fst) := by
  unfold calculReturnColumnType
  rw [returnColumns_eq, Option.map_map]
  rfl

theorem returnLoop_concat (st : ColumnMaps × List (Int × Int)) (before : List Projection)
    (p : Projection) :
    returnLoop st (before ++ [p]) = (returnLoop st before).bind fun mid =>
      (projectionReturn mid.1 p).map fun new => (new.1, mid.2 ++ new.2) := by
  unfold returnLoop
  rw [List.foldlM_append]
  refine congrArg (Option.bind _) (funext fun mid => ?_)
  cases hp : projectionReturn mid.1 p <;> simp [hp]

theorem returnLoop_cons {m m' : ColumnMaps} {added pairs : List (Int × Int)} {p : Projection}
    (h : projectionReturn m p = some (m', pairs)) (projections : List Projection) :
    returnLoop (m, added) (p :: projections) = returnLoop (m', added ++ pairs) projections := by
  unfold returnLoop
  rw [List.foldlM_cons, h]
  rfl

/-! ## Layouts the merging module decodes -/

/-- A column of this type and length is one a branch of `mergeResult` reads
completely and within the column. -/
def Decodable (type length : Int) : Prop :=
  match MySQLDataType.ofCode? type with
  | some .byte => 1 ≤ length
  | some .int16 => 2 ≤ length
  | some .int32 | some .float32 | some .timestamp => 4 ≤ length
  | some .int64 | some .double => 8 ≤ length
  | some .date => length = 3 ∨ length = 4
  | some .newDecimal => length = 7 ∨ length = 8 ∨ length = 9
  | some .string | some .varString => 0 ≤ length
  | none => False

instance (type length : Int) : Decidable (Decodable type length) := by
  unfold Decodable
  split <;> infer_instance

private theorem bytesAt_some {row : List UInt8} {off len : Int} (hoff : 0 ≤ off)
    (hlen : 0 ≤ len) (hend : off + len ≤ row.length) :
    ∃ bytes, Merging.bytesAt row off len = some bytes ∧ (bytes.length : Int) = len := by
  refine ⟨_, by rw [Merging.bytesAt, if_pos ⟨hoff, hlen, hend⟩], ?_⟩
  simp only [List.length_take, List.length_drop]
  omega

private theorem intAt_some {buf : List UInt8} {n : Nat} (h : n ≤ buf.length) :
    ∃ v, Merging.intAt buf n = some v :=
  ⟨_, by rw [Merging.intAt, if_pos h]⟩

private theorem decodeDecimal_some {buf : List UInt8}
    (h : buf.length = 7 ∨ buf.length = 8 ∨ buf.length = 9) :
    ∃ x, Merging.decodeDecimal buf = some x := by
  have hfraction : ∀ t : List UInt8, t.length = 1 ∨ t.length = 2 ∨ t.length = 3 →
      ∃ q, Merging.decimalFraction t = some q := by
    intro t ht
    match t with
    | [] => simp at ht
    | [_] | [_, _] | [_, _, _] => exact ⟨_, rfl⟩
    | _ :: _ :: _ :: _ :: _ => simp at ht
  obtain ⟨b, hb⟩ : ∃ b, buf.head? = some b := by
    cases buf with
    | nil => simp at h
    | cons b rest => exact ⟨b, rfl⟩
  obtain ⟨t, ht, hlen⟩ : ∃ t, (if b.toNat < 128 then Merging.complementSeven buf
      else some buf) = some t ∧ t.length = buf.length := by
    split
    · refine ⟨_, by rw [Merging.complementSeven, if_pos (by omega)], ?_⟩
      simp only [List.length_append, List.length_map, List.length_take, List.length_drop]
      omega
    · exact ⟨buf, rfl, rfl⟩
  obtain ⟨v, hv⟩ := @intAt_some (((t.modify 0 (· ^^^ 0x80)).take 6).reverse ++ [0, 0]) 8 (by
    simp only [List.length_append, List.length_reverse, List.length_take, List.length_modify,
      List.length_cons, List.length_nil]
    omega)
  obtain ⟨q, hq⟩ := hfraction ((t.modify 0 (· ^^^ 0x80)).drop 6) (by
    simp only [List.length_drop, List.length_modify]
    omega)
  unfold Merging.decodeDecimal
  simp only [hb, ht, hv, hq, Option.bind_eq_bind, Option.bind_some, Option.pure_def]
  exact ⟨_, rfl⟩

/-- **A decodable layout decodes**: the branch of `mergeResult` for the type
reads a column of this length, wherever it lies in the row. (A VARSTRING is
not laid out with its declared length.) -/
theorem decodeColumn_of_decodable {type len off : Int} {row : List UInt8}
    (h : Decodable type len) (hoff : 0 ≤ off) (hend : off + len ≤ row.length)
    (hvar : type ≠ MySQLDataType.varString.code) :
    ∃ v, Merging.decodeColumn row type off len = some (some v) := by
  have hread : 0 ≤ len → ∃ bytes, Merging.bytesAt row off len = some bytes ∧
      (bytes.length : Int) = len := fun hlen => bytesAt_some hoff hlen hend
  unfold Decodable at h
  unfold Merging.decodeColumn
  cases ht : MySQLDataType.ofCode? type with
  | none => simp [ht] at h
  | some t =>
    simp only [ht] at h
    cases t with
    | varString => exact absurd (MySQLDataType.code_of_ofCode? ht) hvar
    | byte | int16 | int32 | int64 | timestamp =>
      obtain ⟨bytes, hbytes, hlen⟩ := hread (by omega)
      simp only [hbytes, Option.bind_eq_bind, Option.bind_some, Merging.intAt]
      rw [if_pos (by omega)]
      exact ⟨_, rfl⟩
    | float32 | double =>
      obtain ⟨bytes, hbytes, hlen⟩ := hread (by omega)
      simp only [hbytes, Option.bind_eq_bind, Option.bind_some]
      rw [if_pos (by omega)]
      exact ⟨_, rfl⟩
    | date =>
      obtain ⟨bytes, hbytes, hlen⟩ := hread (by omega)
      simp only [hbytes, Option.bind_eq_bind, Option.bind_some]
      rw [if_pos (by omega)]
      exact ⟨_, rfl⟩
    | newDecimal =>
      obtain ⟨bytes, hbytes, hlen⟩ := hread (by omega)
      obtain ⟨x, hx⟩ := @decodeDecimal_some bytes (by omega)
      simp only [hbytes, hx, Option.bind_eq_bind, Option.bind_some]
      exact ⟨_, rfl⟩
    | string =>
      obtain ⟨bytes, hbytes, -⟩ := hread h
      simp only [hbytes, Option.bind_eq_bind, Option.bind_some]
      exact ⟨_, rfl⟩

/-! ## Well-formed projections -/

inductive Leaf where
  | column (name : String)
  | literal (type : ValueType) (text : String)
  deriving DecidableEq

inductive Op where
  | add | sub | mul | div
  deriving DecidableEq

def Op.text : Op → String
  | .add => "+"
  | .sub => "-"
  | .mul => "*"
  | .div => "/"

/-- A token as `value` and `value_type` have it. -/
def tokenPair : Token Leaf Op → String × ValueType
  | .leaf (.column name) => (name, .column)
  | .leaf (.literal type text) => (text, type)
  | .op o => (o.text, .operator)

/-- The words a projection or an operator is known by. -/
def reserved : List String := ["CASE", "EXTRACT", "SUBSTRING", "+", "-", "*", "/"]

/-- The schema's column of a name, the first one. -/
def schemaColumn? (columns : List SchemaColumn) (name : String) : Option SchemaColumn :=
  columns.find? (·.name = name)

/-- What a projection says. -/
inductive Form where
  | column (name : String)
  | expr (e : Expr Leaf Op)
  | caseWhen (before : List String) (type : ValueType) (literal : String) (after : List String)
  | extract (rest : List String)
  | substring (name first last : String) (rest : List String)

/-- `p` is the projection that says so. -/
def Form.Describes : Form → Projection → Prop
  | .column name, p => p.value = [name]
  | .expr e, p =>
      p.value = e.tokens.map (fun t => (tokenPair t).1) ∧
        p.valueType = e.tokens.map (fun t => (tokenPair t).2)
  | .caseWhen before type literal after, p =>
      p.value = "CASE" :: before ++ "THEN" :: literal :: after ∧ "THEN" ∉ before ∧
        p.valueType[before.length + 2]? = some type
  | .extract rest, p => p.value = "EXTRACT" :: rest
  | .substring name first last rest, p => p.value = "SUBSTRING" :: name :: first :: last :: rest

/-- A leaf of an expression: an INT or NEWDECIMAL column of decodable width
or a numeric literal, which names no column. -/
def Leaf.WellFormed (columns : List SchemaColumn) : Leaf → Prop
  | .column name => name ∉ reserved ∧ ∃ c, schemaColumn? columns name = some c ∧
      c.type ∈ [1, 2, 3, 8, 246] ∧ Decodable c.type c.length
  | .literal type text => text ∉ reserved ∧ schemaColumn? columns text = none ∧
      type ∈ [ValueType.int8, .int16, .int32, .int64, .float32, .double, .decimal]

def Form.WellFormed (columns : List SchemaColumn) : Form → Prop
  | .column name => name ∉ reserved ∧ (schemaColumn? columns name).isSome
  | .expr e => ∀ l ∈ e.leaves, l.WellFormed columns
  | .caseWhen _ type _ _ => type ≠ .column ∧ type ≠ .operator
  | .extract _ => True
  | .substring name first last _ => (schemaColumn? columns name).isSome ∧
      (stoi first).isSome ∧ (stoi last).isSome

/-- A leaf that is a NEWDECIMAL column. -/
def Leaf.isDecimal (columns : List SchemaColumn) : Leaf → Bool
  | .column name => (schemaColumn? columns name).any (·.type = 246)
  | .literal _ _ => false

/-- How many leaves of an expression are NEWDECIMAL columns. -/
def decimals (columns : List SchemaColumn) (e : Expr Leaf Op) : Nat :=
  e.leaves.countP (Leaf.isDecimal columns)

/-- The type and length of a column, 0 and 0 for a name that is none. -/
def columnPair (columns : List SchemaColumn) (name : String) : Int × Int :=
  ((schemaColumn? columns name).elim 0 (·.type), (schemaColumn? columns name).elim 0 (·.length))

/-- The (type, length) pair a projection declares. -/
def Form.pair (columns : List SchemaColumn) : Form → Int × Int
  | .column name => columnPair columns name
  | .expr (.leaf (.column name)) => columnPair columns name
  | .expr (.leaf (.literal _ _)) => (0, 0)
  | .expr (.node o a b) =>
      let n := decimals columns (.node o a b)
      if n = 0 then (3, 4) else (246, 6 + n)
  | .caseWhen _ type literal _ =>
      (getValueTypeToMysqlType type.code,
        if getLengthByType type.code = 0 then literal.length else getLengthByType type.code)
  | .extract _ => (3, 4)
  | .substring name first last _ =>
      ((columnPair columns name).1, toInt32 ((stoi last).getD 0 - (stoi first).getD 0 + 1))

/-- When the pair is one the merging module decodes: at most three decimal
columns in an expression, which must not be a literal alone; a CASE literal
that is no INT8 or BOOLEAN, and a DECIMAL one of 7 to 9 characters; a column
or substring that is decodable as the schema has it, the length of the
substring taken as an `int`. -/
def Form.Decodes (columns : List SchemaColumn) : Form → Prop
  | .column name => Decodable (columnPair columns name).1 (columnPair columns name).2
  | .expr (.leaf (.column _)) => True
  | .expr (.leaf (.literal _ _)) => False
  | .expr (.node o a b) => decimals columns (.node o a b) ≤ 3
  | .caseWhen _ type literal _ => type ≠ .int8 ∧ type ≠ .boolean ∧
      (type = .decimal → 7 ≤ literal.length ∧ literal.length ≤ 9)
  | .extract _ => True
  | .substring name first last _ => Decodable (columnPair columns name).1
      (toInt32 ((stoi last).getD 0 - (stoi first).getD 0 + 1))

/-- **The declared pair** is decodable exactly in the cases of `Decodes`. -/
theorem Form.decodable_pair_iff {columns : List SchemaColumn} {f : Form}
    (hf : f.WellFormed columns) :
    Decodable (f.pair columns).1 (f.pair columns).2 ↔ f.Decodes columns := by
  cases f with
  | column name => exact Iff.rfl
  | extract rest =>
    have h : Decodable 3 4 := by decide
    exact iff_of_true h trivial
  | substring name first last rest => exact Iff.rfl
  | caseWhen before type literal after =>
    obtain ⟨hcolumn, hoperator⟩ := hf
    cases type with
    | column => exact absurd rfl hcolumn
    | operator => exact absurd rfl hoperator
    | int8 | int16 | int32 | int64 | float32 | double | date | timestamp =>
      simp [pair, Decodes, ValueType.code, getLengthByType, getValueTypeToMysqlType, Decodable,
        MySQLDataType.ofCode?, MySQLDataType.all, MySQLDataType.code]
    | string =>
      simp [pair, Decodes, ValueType.code, getLengthByType, getValueTypeToMysqlType, Decodable,
        MySQLDataType.ofCode?, MySQLDataType.all, MySQLDataType.code]
    | boolean =>
      simp [pair, Decodes, ValueType.code, getLengthByType, getValueTypeToMysqlType, Decodable,
        MySQLDataType.ofCode?, MySQLDataType.all, MySQLDataType.code]
    | decimal =>
      simp [pair, Decodes, ValueType.code, getLengthByType, getValueTypeToMysqlType, Decodable,
        MySQLDataType.ofCode?, MySQLDataType.all, MySQLDataType.code]
      omega
  | expr e =>
    cases e with
    | leaf l =>
      cases l with
      | column name =>
        obtain ⟨-, c, hc, -, hdec⟩ := hf (.column name) (by simp [Expr.leaves])
        exact iff_of_true (by simpa [pair, columnPair, hc] using hdec) trivial
      | literal type text =>
        have h : ¬ Decodable 0 0 := by decide
        exact iff_of_false h id
    | node o a b =>
      simp only [pair, Decodes]
      split
      · rename_i hzero
        exact iff_of_true (by decide) (by omega)
      · rename_i hpos
        have hnew : MySQLDataType.ofCode? 246 = some .newDecimal := rfl
        simp only [Decodable, hnew]
        omega

/-! ## The stack of types -/

/-- A leaf on the stack: its type, and 1 as its decimal size. -/
def leafEntry (columns : List SchemaColumn) : Leaf → Option (Int × Int)
  | .column name => (schemaColumn? columns name).map fun c => (c.type, 1)
  | .literal type _ => some (type.code, 1)

/-- The entry an operator leaves. -/
def operatorEntry (_ : Op) (x y : Int × Int) : Option (Int × Int) :=
  some (if y.1 = 246 ∧ x.1 = 246 then (246, x.2 + y.2)
    else if y.1 = 246 then (246, y.2)
    else if x.1 = 246 then (246, x.2)
    else (3, 0))

/-- The two stacks of the source for a stack of entries: the sizes are those
of the decimal entries. -/
def toStacks (stack : List (Int × Int)) : TypeStacks where
  postfixStack := stack.map Prod.fst
  decimalSizeStack := (stack.filter (·.1 = 246)).map Prod.snd

/-- The maps have every column of the schema, and 0 for any other name that
has been asked for. -/
structure ColumnMaps.Agrees (m : ColumnMaps) (columns : List SchemaColumn) : Prop where
  found : ∀ name c, schemaColumn? columns name = some c →
    m.columnType.lookup name = some c.type ∧ m.columnLength.lookup name = some c.length
  missing : ∀ name, schemaColumn? columns name = none →
    (m.columnType.lookup name).getD 0 = 0 ∧ (m.columnLength.lookup name).getD 0 = 0

theorem lookup_insertNew (m : AList (fun _ : String => Int)) (name other : String) (n : Int) :
    (insertNew m name n).lookup other =
      if other = name then some ((m.lookup name).getD n) else m.lookup other := by
  unfold insertNew
  split
  · rename_i hmem
    obtain ⟨v, hv⟩ := Option.isSome_iff_exists.mp (AList.lookup_isSome.mpr hmem)
    split
    · rename_i he
      rw [he, hv]
      rfl
    · rfl
  · rename_i hmem
    split
    · rename_i he
      rw [he, AList.lookup_insert, AList.lookup_eq_none.mpr hmem]
      rfl
    · rename_i hne
      exact AList.lookup_insert_ne hne

/-- **The maps have the columns of the schema** and nothing else. -/
theorem lookup_columnMaps (columns : List SchemaColumn) (name : String) :
    (columnMaps columns).columnType.lookup name = (schemaColumn? columns name).map (·.type) ∧
      (columnMaps columns).columnLength.lookup name =
        (schemaColumn? columns name).map (·.length) := by
  -- after some columns the maps hold the first of each name
  have key : ∀ (rest : List SchemaColumn) (m : ColumnMaps),
      (rest.foldl (fun m c => {
          columnType := insertNew m.columnType c.name c.type
          columnLength := insertNew m.columnLength c.name c.length }) m).columnType.lookup name =
        (m.columnType.lookup name).or ((schemaColumn? rest name).map (·.type)) ∧
      (rest.foldl (fun m c => {
          columnType := insertNew m.columnType c.name c.type
          columnLength := insertNew m.columnLength c.name c.length }) m).columnLength.lookup name =
        (m.columnLength.lookup name).or ((schemaColumn? rest name).map (·.length)) := by
    intro rest
    induction rest with
    | nil => simp [schemaColumn?]
    | cons c rest ih =>
      intro m
      rw [List.foldl_cons, (ih _).1, (ih _).2, lookup_insertNew, lookup_insertNew]
      unfold schemaColumn?
      by_cases hname : name = c.name
      · subst hname
        cases m.columnType.lookup c.name <;> cases m.columnLength.lookup c.name <;> simp
      · have hne : ¬ c.name = name := fun h => hname h.symm
        simp [hname, hne]
  simpa [columnMaps] using key columns {}

theorem columnMaps_agrees (columns : List SchemaColumn) :
    (columnMaps columns).Agrees columns := by
  refine ⟨fun name c hc => ?_, fun name hnone => ?_⟩
  · rw [(lookup_columnMaps columns name).1, (lookup_columnMaps columns name).2, hc]
    exact ⟨rfl, rfl⟩
  · rw [(lookup_columnMaps columns name).1, (lookup_columnMaps columns name).2, hnone]
    exact ⟨rfl, rfl⟩

/-- Asking for a name leaves the maps in agreement with the schema. -/
theorem ColumnMaps.Agrees.bare {m : ColumnMaps} {columns : List SchemaColumn}
    (h : m.Agrees columns) (name : String) :
    (bareReturn m name).1.Agrees columns ∧
      (bareReturn m name).2 = [columnPair columns name] := by
  refine ⟨⟨fun other c hc => ?_, fun other hnone => ?_⟩, ?_⟩
  · obtain ⟨htype, hlength⟩ := h.found other c hc
    simp only [bareReturn, lookup_insertNew]
    split
    · rename_i he
      rw [← he, htype, hlength]
      simp
    · exact ⟨htype, hlength⟩
  · obtain ⟨htype, hlength⟩ := h.missing other hnone
    simp only [bareReturn, lookup_insertNew]
    split
    · rename_i he
      rw [← he]
      simpa using ⟨htype, hlength⟩
    · exact ⟨htype, hlength⟩
  · simp only [bareReturn, columnPair]
    cases hc : schemaColumn? columns name with
    | none =>
      obtain ⟨htype, hlength⟩ := h.missing name hc
      simp [htype, hlength]
    | some c =>
      obtain ⟨htype, hlength⟩ := h.found name c hc
      simp [htype, hlength]

/-- A leaf that the source can give a type: a column of the schema or a
literal, and no word of its own meaning. -/
def Leaf.Typed (columns : List SchemaColumn) : Leaf → Prop
  | .column name => name ∉ reserved ∧ (schemaColumn? columns name).isSome
  | .literal type text => text ∉ reserved ∧ type ≠ .column

/-- The words of the operators. -/
def operators : List String := ["+", "-", "*", "/"]

/-- A leaf that the loop over a postfix expression can give a type: a column of
the schema or a literal, and no operator. -/
def Leaf.Readable (columns : List SchemaColumn) : Leaf → Prop
  | .column name => name ∉ operators ∧ (schemaColumn? columns name).isSome
  | .literal type text => text ∉ operators ∧ type ≠ .column

theorem not_mem_operators {word : String} (h : word ∉ reserved) : word ∉ operators :=
  fun hmem => h (List.mem_append_right ["CASE", "EXTRACT", "SUBSTRING"] hmem)

theorem Leaf.Typed.readable {columns : List SchemaColumn} {l : Leaf} (h : l.Typed columns) :
    l.Readable columns := by
  cases l with
  | column name => exact ⟨not_mem_operators h.1, h.2⟩
  | literal type text => exact ⟨not_mem_operators h.1, h.2⟩

theorem Leaf.WellFormed.typed {columns : List SchemaColumn} {l : Leaf}
    (h : l.WellFormed columns) : l.Typed columns := by
  cases l with
  | column name =>
    obtain ⟨hres, c, hc, -, -⟩ := h
    exact ⟨hres, by rw [hc]; rfl⟩
  | literal type text =>
    obtain ⟨hres, -, htype⟩ := h
    refine ⟨hres, ?_⟩
    rintro rfl
    simp at htype

/-- **The loop over a postfix expression** does with the two stacks what the
stack machine does with the entries. -/
theorem typeStep_follows {m : ColumnMaps} {columns : List SchemaColumn} (h : m.Agrees columns) :
    Follows toStacks (fun st t => typeStep m st (tokenPair t).1 (some (tokenPair t).2))
      (leafEntry columns) operatorEntry (Leaf.Readable columns) (fun _ => True) := by
  constructor
  case leafGood => exact fun _ _ _ _ => trivial
  case opGood => exact fun _ _ _ _ _ _ _ => trivial
  case leaf =>
    intro l stack hl
    cases l with
    | column name =>
      obtain ⟨hname, hsome⟩ := hl
      obtain ⟨c, hc⟩ := Option.isSome_iff_exists.mp hsome
      have hname : ¬ (name = "+" ∨ name = "-" ∨ name = "*" ∨ name = "/") := by
        simpa [operators] using hname
      have htype := (h.found name c hc).1
      simp only [typeStep, tokenPair, if_neg hname, htype, leafEntry, hc, Option.bind_eq_bind,
        Option.bind_some, if_true, Option.pure_def, Option.map_some, toStacks, List.map_cons,
        List.filter_cons]
      by_cases h246 : c.type = 246 <;> simp [h246]
    | literal type text =>
      obtain ⟨hname, hcolumn⟩ := hl
      have hname : ¬ (text = "+" ∨ text = "-" ∨ text = "*" ∨ text = "/") := by
        simpa [operators] using hname
      have hcode : ¬ type.code = 246 := by cases type <;> decide
      simp [typeStep, tokenPair, hname, hcolumn, leafEntry, toStacks, hcode]
  case op =>
    intro o x y stack _ _
    have hname : o.text = "+" ∨ o.text = "-" ∨ o.text = "*" ∨ o.text = "/" := by
      cases o <;> simp [Op.text]
    simp only [typeStep, tokenPair, if_pos hname, toStacks, List.map_cons, operatorType,
      operatorEntry, Option.map_some]
    by_cases hy : y.1 = 246 <;> by_cases hx : x.1 = 246 <;> simp [hx, hy]

/-- The entry of an expression: a decimal as wide as it has decimal leaves,
or no decimal at all. -/
theorem eval_entry {columns : List SchemaColumn} (e : Expr Leaf Op)
    (hwf : ∀ l ∈ e.leaves, l.Readable columns) :
    ∃ entry, e.eval (leafEntry columns) operatorEntry = some entry ∧
      (decimals columns e = 0 → entry.1 ≠ 246) ∧
      (decimals columns e ≠ 0 → entry = (246, (decimals columns e : Int))) := by
  induction e with
  | leaf l =>
    cases l with
    | column name =>
      obtain ⟨c, hc⟩ := Option.isSome_iff_exists.mp (hwf (.column name) (by simp [Expr.leaves])).2
      refine ⟨(c.type, 1), by simp [Expr.eval, leafEntry, hc], ?_, ?_⟩
      · simp [decimals, Expr.leaves, Leaf.isDecimal, hc, List.countP_cons]
      · by_cases h246 : c.type = 246 <;>
          simp [decimals, Expr.leaves, Leaf.isDecimal, hc, h246]
    | literal type text =>
      refine ⟨(type.code, 1), rfl, fun _ => ?_, ?_⟩
      · cases type <;> decide
      · simp [decimals, Expr.leaves, Leaf.isDecimal]
  | node o a b iha ihb =>
    obtain ⟨x, hx, hx0, hx1⟩ := iha fun l hl => hwf l (by simp [Expr.leaves, hl])
    obtain ⟨y, hy, hy0, hy1⟩ := ihb fun l hl => hwf l (by simp [Expr.leaves, hl])
    have hsum : decimals columns (.node o a b) = decimals columns a + decimals columns b := by
      simp [decimals, Expr.leaves]
    refine ⟨_, by rw [Expr.eval, hx, Option.bind_some, hy, Option.bind_some]; rfl, ?_, ?_⟩
    · intro hzero
      rw [if_neg fun h => hy0 (by omega) h.1, if_neg (hy0 (by omega)), if_neg (hx0 (by omega))]
      decide
    · intro hpos
      rw [hsum]
      by_cases ha : decimals columns a = 0
      · have hb : decimals columns b ≠ 0 := by omega
        simp [hy1 hb, hx0 ha, ha]
      · by_cases hb : decimals columns b = 0
        · simp [hx1 ha, hy0 hb, hb]
        · simp [hx1 ha, hy1 hb]

private theorem operatorEntry_type {o : Op} {x y entry : Int × Int}
    (h : operatorEntry o x y = some entry) : entry.1 = 246 ∨ entry.1 = 3 := by
  unfold operatorEntry at h
  by_cases hy : y.1 = 246 <;> by_cases hx : x.1 = 246 <;>
    simp only [hx, hy, and_self, and_true, and_false, if_true, if_false, Option.some.injEq] at h <;>
    simp [← h]

/-- The branch for a postfix expression, on an expression with an operator. -/
theorem postfixReturn_node {m : ColumnMaps} {columns : List SchemaColumn}
    (h : m.Agrees columns) (o : Op) (a b : Expr Leaf Op)
    (hwf : ∀ l ∈ (Expr.node o a b).leaves, l.Readable columns) :
    postfixReturn m ((Expr.node o a b).tokens.map fun t => (tokenPair t).1)
        ((Expr.node o a b).tokens.map fun t => (tokenPair t).2) =
      some [Form.pair columns (.expr (.node o a b))] := by
  obtain ⟨entry, heval, hzero, hpos⟩ := eval_entry (.node o a b) hwf
  have hloop := ((typeStep_follows h).tokens hwf []).2
  rw [heval, Option.map_some] at hloop
  have hzip := Loops.foldlM_zipIdx_map (typeStep m) (fun t => (tokenPair t).1)
    (fun t => (tokenPair t).2) (Expr.node o a b).tokens [] {}
  rw [List.append_nil] at hzip
  unfold postfixReturn
  rw [hzip]
  simp only [toStacks, List.map_nil, List.filter_nil] at hloop
  rw [hloop]
  -- the operator at the root left 246 or 3
  have hroot : decimals columns (.node o a b) = 0 → entry.1 = 3 := by
    intro hnone
    obtain ⟨x, hx, hrest⟩ := Option.bind_eq_some_iff.mp heval
    obtain ⟨y, hy, hentry⟩ := Option.bind_eq_some_iff.mp hrest
    exact (operatorEntry_type hentry).resolve_left (hzero hnone)
  by_cases hnone : decimals columns (.node o a b) = 0
  · simp [hroot hnone, Form.pair, hnone]
  · simp [hpos hnone, Form.pair, hnone]

/-- A lone token that is no keyword is read as a bare column. -/
private theorem projectionReturn_bare {m : ColumnMaps} {columns : List SchemaColumn}
    (h : m.Agrees columns) {name : String} (hname : name ∉ reserved) {p : Projection}
    (hvalue : p.value = [name]) :
    ∃ m', projectionReturn m p = some (m', [columnPair columns name]) ∧ m'.Agrees columns := by
  simp only [reserved, List.mem_cons, not_or] at hname
  obtain ⟨hagrees, hpairs⟩ := h.bare name
  refine ⟨(bareReturn m name).1, ?_, hagrees⟩
  unfold projectionReturn
  rw [hvalue, ← hpairs]
  simp [hname]

theorem Form.Describes.findIdx?_then {before after : List String} {type : ValueType}
    {literal : String} {p : Projection}
    (hp : (Form.caseWhen before type literal after).Describes p) :
    p.value.findIdx? (· = "THEN") = some (before.length + 1) := by
  obtain ⟨hvalue, hbefore, -⟩ := hp
  rw [hvalue, List.cons_append, List.findIdx?_eq_some_iff_getElem]
  refine ⟨by simp, by simp, fun i hi => ?_⟩
  cases i with
  | zero => simp
  | succ i =>
    have hi : i < before.length := by omega
    have hmem : before[i] ∈ before := List.getElem_mem hi
    simp only [List.getElem_cons_succ, List.getElem_append_left hi, decide_eq_true_eq]
    exact fun he => hbefore (he ▸ hmem)

/-- A CASE is declared by its first THEN literal. -/
private theorem projectionReturn_caseWhen {m : ColumnMaps} {columns : List SchemaColumn}
    {before after : List String} {type : ValueType} {literal : String} {p : Projection}
    (hp : (Form.caseWhen before type literal after).Describes p) :
    projectionReturn m p =
      some (m, [(Form.caseWhen before type literal after).pair columns]) := by
  have hthen := hp.findIdx?_then
  obtain ⟨hvalue, -, htype⟩ := hp
  have hliteral : ("CASE" :: (before ++ "THEN" :: literal :: after))[before.length + 1 + 1]? =
      some literal := by
    simp
  rw [hvalue, List.cons_append] at hthen
  unfold projectionReturn
  rw [hvalue]
  simp only [List.cons_append, if_true]
  unfold caseReturn
  rw [hthen]
  simp only [htype, hliteral, Form.pair, Option.bind_eq_bind, Option.bind_some]
  split <;> rfl

theorem projectionReturn_node {m : ColumnMaps} {columns : List SchemaColumn}
    (h : m.Agrees columns) {o : Op} {a b : Expr Leaf Op} {p : Projection}
    (hwf : ∀ l ∈ (Expr.node o a b).leaves, l.Typed columns)
    (hp : (Form.expr (.node o a b)).Describes p) :
    projectionReturn m p = some (m, [(Form.expr (.node o a b)).pair columns]) := by
  obtain ⟨hvalue, htype⟩ := hp
  have hpost := postfixReturn_node h o a b fun l hl => (hwf l hl).readable
  rw [← hvalue, ← htype] at hpost
  obtain ⟨l, ts, hts, hne, hl⟩ := Expr.tokens_node_eq_cons o a b
  have hfirst : (tokenPair (.leaf l : Token Leaf Op)).1 ∉ reserved := by
    have hwfl := hwf l hl
    cases l with
    | column name => exact hwfl.1
    | literal type text => exact hwfl.1
  simp only [reserved, List.mem_cons, not_or] at hfirst
  have hcons : p.value = (tokenPair (.leaf l : Token Leaf Op)).1 ::
      ts.map fun t => (tokenPair t).1 := by
    rw [hvalue, hts]
    rfl
  unfold projectionReturn
  rw [hpost, hcons]
  simp [hfirst, hne]

/-- A projection leaves the maps in agreement with the schema. -/
theorem projectionReturn_agrees {m m' : ColumnMaps} {columns : List SchemaColumn}
    (h : m.Agrees columns) {p : Projection} {pairs : List (Int × Int)}
    (hp : projectionReturn m p = some (m', pairs)) : m'.Agrees columns := by
  unfold projectionReturn at hp
  split at hp
  · cases hp
  · rename_i first rest _
    split_ifs at hp
    · obtain ⟨_, -, he⟩ := Option.map_eq_some_iff.mp hp
      cases he
      exact h
    · cases hp
      exact h
    · obtain ⟨_, -, he⟩ := Option.map_eq_some_iff.mp hp
      cases he
      exact h
    · cases hp
      exact (h.bare first).1
    · obtain ⟨_, -, he⟩ := Option.map_eq_some_iff.mp hp
      cases he
      exact h

/-- **One projection** declares the pair of its form. -/
theorem projectionReturn_form {m : ColumnMaps} {columns : List SchemaColumn}
    (h : m.Agrees columns) {f : Form} {p : Projection} (hwf : f.WellFormed columns)
    (hp : f.Describes p) :
    ∃ m', projectionReturn m p = some (m', [f.pair columns]) ∧ m'.Agrees columns := by
  cases f with
  | column name => exact projectionReturn_bare h hwf.1 hp
  | extract rest =>
    refine ⟨m, ?_, h⟩
    unfold projectionReturn
    rw [show p.value = "EXTRACT" :: rest from hp]
    rfl
  | substring name first last rest =>
    obtain ⟨hname, hfirst, hlast⟩ := hwf
    obtain ⟨c, hc⟩ := Option.isSome_iff_exists.mp hname
    obtain ⟨i, hi⟩ := Option.isSome_iff_exists.mp hfirst
    obtain ⟨j, hj⟩ := Option.isSome_iff_exists.mp hlast
    refine ⟨m, ?_, h⟩
    unfold projectionReturn
    rw [show p.value = "SUBSTRING" :: name :: first :: last :: rest from hp]
    have htype := (h.found name c hc).1
    simp [substringReturn, hi, hj, htype, Form.pair, columnPair, hc]
  | caseWhen before type literal after => exact ⟨m, projectionReturn_caseWhen hp, h⟩
  | expr e =>
    cases e with
    | leaf l =>
      have hl := hwf l (by simp [Expr.leaves])
      cases l with
      | column name => exact projectionReturn_bare h hl.1 hp.1
      | literal type text =>
        obtain ⟨hres, hnone, -⟩ := hl
        have hbare := projectionReturn_bare h hres hp.1
        simpa [columnPair, hnone, Form.pair] using hbare
    | node o a b => exact ⟨m, projectionReturn_node h (fun l hl => (hwf l hl).typed) hp, h⟩

/-- The loop leaves the maps in agreement with the schema. -/
theorem returnLoop_agrees {columns : List SchemaColumn} {projections : List Projection}
    {st st' : ColumnMaps × List (Int × Int)} (h : st.1.Agrees columns)
    (hrun : returnLoop st projections = some st') : st'.1.Agrees columns := by
  refine Loops.foldlM_induction (P := fun _ st => st.1.Agrees columns) h ?_ hrun
  intro done p rest st st' _ hagrees hstep
  obtain ⟨new, hnew, hpure⟩ := Option.bind_eq_some_iff.mp hstep
  cases hpure
  exact projectionReturn_agrees hagrees hnew

/-- The loop adds the pairs of the projections. -/
theorem returnLoop_forms {columns : List SchemaColumn} {forms : List Form}
    {projections : List Projection} (hforms : List.Forall₂ Form.Describes forms projections)
    (hwf : ∀ f ∈ forms, f.WellFormed columns) {m : ColumnMaps} (hm : m.Agrees columns)
    (added : List (Int × Int)) :
    ∃ m', returnLoop (m, added) projections =
      some (m', added ++ forms.map (Form.pair columns)) := by
  induction hforms generalizing m added with
  | nil => exact ⟨m, by simp [returnLoop]⟩
  | @cons f p forms projections hf _ ih =>
    obtain ⟨m', hp, hm'⟩ := projectionReturn_form hm (hwf f (by simp)) hf
    obtain ⟨m'', hrest⟩ := ih (fun g hg => hwf g (by simp [hg])) hm' (added ++ [f.pair columns])
    refine ⟨m'', ?_⟩
    rw [returnLoop_cons hp, hrest]
    simp

/-- The pairs of a snippet are those of its projections. -/
theorem returnColumns_forms {snippet : SnippetRequest} {forms : List Form}
    (hforms : List.Forall₂ Form.Describes forms snippet.projection)
    (hwf : ∀ f ∈ forms, f.WellFormed snippet.columnList) :
    returnColumns snippet = some (forms.map (Form.pair snippet.columnList)) := by
  obtain ⟨m', hrun⟩ := returnLoop_forms hforms hwf (columnMaps_agrees snippet.columnList) []
  rw [returnColumns_eq, hrun]
  rfl

/-- **Return layouts**: the layout declared for a snippet of well-formed
projections is one the merging module decodes if and only if each projection
is in the cases of `Decodes`. -/
theorem returnColumns_decodable_iff {snippet : SnippetRequest} {forms : List Form}
    (hforms : List.Forall₂ Form.Describes forms snippet.projection)
    (hwf : ∀ f ∈ forms, f.WellFormed snippet.columnList) :
    (∃ lengths types, calculReturnColumnType snippet = some (lengths, types) ∧
      types.length = snippet.projection.length ∧
      ∀ pair ∈ types.zip lengths, Decodable pair.1 pair.2) ↔
    ∀ f ∈ forms, f.Decodes snippet.columnList := by
  have hpairs := returnColumns_forms hforms hwf
  have hlayout : calculReturnColumnType snippet =
      some ((forms.map (Form.pair snippet.columnList)).map Prod.snd,
        (forms.map (Form.pair snippet.columnList)).map Prod.fst) := by
    rw [calculReturnColumnType, hpairs]
    rfl
  have hzip : ((forms.map (Form.pair snippet.columnList)).map Prod.fst).zip
      ((forms.map (Form.pair snippet.columnList)).map Prod.snd) =
      forms.map (Form.pair snippet.columnList) := by
    rw [← List.unzip_fst, ← List.unzip_snd, List.zip_unzip]
  rw [hlayout]
  constructor
  · rintro ⟨lengths, types, heq, -, hall⟩ f hf
    cases heq
    rw [hzip] at hall
    exact (Form.decodable_pair_iff (hwf f hf)).mp (hall _ (List.mem_map_of_mem hf))
  · intro hall
    refine ⟨_, _, rfl, by simp [hforms.length_eq], ?_⟩
    rw [hzip]
    intro pair hpair
    obtain ⟨f, hf, rfl⟩ := List.mem_map.mp hpair
    exact (Form.decodable_pair_iff (hwf f hf)).mpr (hall f hf)

/-- A schema with a decimal, a date and a string column. -/
def lineColumns : List SchemaColumn :=
  [⟨"price", 246, 7⟩, ⟨"shipped", 14, 3⟩, ⟨"comment", 254, 10⟩]

/-- `price + price * 2`. -/
def discounted : Expr Leaf Op :=
  .node .add (.leaf (.column "price"))
    (.node .mul (.leaf (.column "price")) (.leaf (.literal .int32 "2")))

/-- A bare column, an expression, a CASE, an EXTRACT and a SUBSTRING. -/
def lineSnippet : SnippetRequest where
  columnList := lineColumns
  projection :=
    [{ value := ["shipped"], valueType := [.column] },
      { value := ["price", "price", "2", "*", "+"],
        valueType := [.column, .column, .int32, .operator, .operator] },
      { value := ["CASE", "WHEN", "comment", "x", "=", "THEN", "1", "ELSE", "0", "END"],
        valueType := [.string, .string, .column, .string, .operator, .string, .int32, .string,
          .int32, .string] },
      { value := ["EXTRACT", "YEAR", "shipped"], valueType := [.string, .string, .column] },
      { value := ["SUBSTRING", "comment", "1", "2"],
        valueType := [.string, .column, .int32, .int32] }]

theorem lineSnippet_decodable :
    ∃ lengths types, calculReturnColumnType lineSnippet = some (lengths, types) ∧
      types.length = lineSnippet.projection.length ∧
      ∀ pair ∈ types.zip lengths, Decodable pair.1 pair.2 := by
  refine (@returnColumns_decodable_iff lineSnippet
    [.column "shipped", .expr discounted,
      .caseWhen ["WHEN", "comment", "x", "="] .int32 "1" ["ELSE", "0", "END"],
      .extract ["YEAR", "shipped"], .substring "comment" "1" "2" []] ?_ ?_).mpr ?_
  · refine .cons rfl (.cons ⟨rfl, rfl⟩ (.cons ⟨rfl, by decide, rfl⟩ (.cons rfl (.cons rfl .nil))))
  · intro f hf
    simp only [List.mem_cons, List.not_mem_nil, or_false] at hf
    rcases hf with rfl | rfl | rfl | rfl | rfl
    · exact ⟨by decide, rfl⟩
    · intro l hl
      have hl : l = .column "price" ∨ l = .literal .int32 "2" := by
        simpa [discounted, Expr.leaves] using hl
      rcases hl with rfl | rfl
      · exact ⟨by decide, ⟨"price", 246, 7⟩, rfl, by decide, by decide⟩
      · exact ⟨by decide, rfl, by decide⟩
    · exact ⟨by decide, by decide⟩
    · trivial
    · exact ⟨rfl, rfl, rfl⟩
  · intro f hf
    simp only [List.mem_cons, List.not_mem_nil, or_false] at hf
    rcases hf with rfl | rfl | rfl | rfl | rfl
    · exact (by decide : Decodable 14 3)
    · exact (by decide : decimals lineColumns discounted ≤ 3)
    · exact ⟨by decide, by decide, fun htype => by cases htype⟩
    · trivial
    · exact (by decide : Decodable 254 2)

/-- `price + price + price + price`. -/
def fourPrices : Expr Leaf Op :=
  .node .add (.node .add (.node .add (.leaf (.column "price")) (.leaf (.column "price")))
    (.leaf (.column "price"))) (.leaf (.column "price"))

def fourPricesSnippet : SnippetRequest where
  columnList := lineColumns
  projection :=
    [{ value := ["price", "price", "+", "price", "+", "price", "+"],
       valueType := [.column, .column, .operator, .column, .operator, .column, .operator] }]

/-- The sum of four decimal columns is declared with ten bytes. -/
theorem fourPrices_not_decodable :
    List.Forall₂ Form.Describes [.expr fourPrices] fourPricesSnippet.projection ∧
    (∀ l ∈ fourPrices.leaves, l.WellFormed fourPricesSnippet.columnList) ∧
    ¬ ∃ lengths types, calculReturnColumnType fourPricesSnippet = some (lengths, types) ∧
      types.length = fourPricesSnippet.projection.length ∧
      ∀ pair ∈ types.zip lengths, Decodable pair.1 pair.2 := by
  refine ⟨.cons ⟨rfl, rfl⟩ .nil, ?_, ?_⟩
  · intro l hl
    obtain rfl : l = .column "price" := by simpa [fourPrices, Expr.leaves] using hl
    exact ⟨by decide, ⟨"price", 246, 7⟩, rfl, by decide, by decide⟩
  · rintro ⟨lengths, types, hlayout, -, hall⟩
    have hrun : calculReturnColumnType fourPricesSnippet = some ([10], [246]) := by decide
    rw [hrun] at hlayout
    cases hlayout
    exact absurd (hall (246, 10) (by simp)) (by decide)

end KetiEngine.Offloading
