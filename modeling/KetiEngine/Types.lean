/-!
# Types — the enumerations shared by the two modules

The engine's enumerations: `keti_type.h` (column types a CSD reports, work
status, vector tags) and the `ValueType`, `OperType` and `SelectType` enums
of the snippet message. On the wire a column type is a plain `int`, so a
code that is no enumerator is representable; `ofCode?` is the `switch` that
recognises the enumerators.
-/

namespace KetiEngine

/-- `MySQL_DataType`: the column types a CSD reports. -/
inductive MySQLDataType where
  | byte | int16 | int32 | int64 | float32 | double
  | newDecimal | date | timestamp | string | varString
  deriving DecidableEq, Repr

/-- The enumerator's value in `keti_type.h`. -/
def MySQLDataType.code : MySQLDataType → Int
  | .byte => 1
  | .int16 => 2
  | .int32 => 3
  | .int64 => 8
  | .float32 => 4
  | .double => 5
  | .newDecimal => 246
  | .date => 14
  | .timestamp => 7
  | .string => 254
  | .varString => 15

/-- The enumerators. -/
def MySQLDataType.all : List MySQLDataType :=
  [.byte, .int16, .int32, .int64, .float32, .double, .newDecimal, .date,
    .timestamp, .string, .varString]

/-- The `switch` over the enumerators; `none` is its `default` branch. -/
def MySQLDataType.ofCode? (c : Int) : Option MySQLDataType :=
  all.find? (·.code = c)

@[simp] theorem MySQLDataType.ofCode?_code (t : MySQLDataType) :
    ofCode? t.code = some t := by
  cases t <;> rfl

theorem MySQLDataType.code_of_ofCode? {c : Int} {t : MySQLDataType}
    (h : ofCode? c = some t) : c = t.code := by
  have hcode := List.find?_some h
  exact (of_decide_eq_true hcode).symm

/-- `KETI_VECTOR_TYPE`: which value vector of a column is in use. -/
inductive VectorType where
  | empty | string | int | float | boolean | date
  deriving DecidableEq, Repr

/-- `Work_Status_Type`. -/
inductive WorkStatus where
  | initialized | notFinished | workDone
  deriving DecidableEq, Repr

/-- `SnippetRequest.ValueType`. -/
inductive ValueType where
  | int8 | int16 | int32 | int64 | float32 | double | decimal
  | date | timestamp | string | column | operator | boolean
  deriving DecidableEq, Repr

/-- The enumerator's number in the message definition. -/
def ValueType.code : ValueType → Int
  | .int8 => 0
  | .int16 => 1
  | .int32 => 2
  | .int64 => 3
  | .float32 => 4
  | .double => 5
  | .decimal => 6
  | .date => 7
  | .timestamp => 8
  | .string => 9
  | .column => 10
  | .operator => 11
  | .boolean => 12

/-- `SnippetRequest.Filter.OperType`. -/
inductive OperType where
  | ge | le | gt | lt | eq | ne | like | notLike | between
  | in | notIn | is | isNot | and | or
  deriving DecidableEq, Repr

/-- `SnippetRequest.Projection.SelectType`. -/
inductive SelectType where
  | columnName | sum | avg | count | countStar | countDistinct
  | top | min | max
  deriving DecidableEq, Repr

end KetiEngine
