import KetiEngine.Types

/-!
# Snippet — the snippet message

The part of `SnippetRequest` that the two modules compute with. A repeated
field is a list; an element that a source index asks for and that is not
there aborts the program.
-/

namespace KetiEngine

structure FilterValue where
  type : List ValueType := []
  value : List String := []
  deriving DecidableEq

structure Filter where
  lv : FilterValue := {}
  operator : OperType
  rv : FilterValue := {}
  deriving DecidableEq

structure Projection where
  selectType : SelectType := .columnName
  value : List String
  valueType : List ValueType
  deriving DecidableEq

/-- `SchemaInfo.Column`. -/
structure SchemaColumn where
  name : String
  type : Int
  length : Int
  deriving DecidableEq

/-- `SstInfo.CSD.Block`. -/
structure SstBlock where
  offset : List Int
  length : List Int
  deriving DecidableEq

/-- `SstInfo.CSD`: a replica of an SST. -/
structure SstCsd where
  csdId : String
  partition : String
  block : List SstBlock
  deriving DecidableEq

structure SstInfo where
  sstName : String
  csd : List SstCsd
  sstBlockCount : Int
  deriving DecidableEq

structure SnippetRequest where
  queryId : Int := 0
  workId : Int := 0
  tableName : List String := []
  filtering : List Filter := []
  projection : List Projection := []
  groupBy : List String := []
  columnList : List SchemaColumn := []
  sstInfo : List SstInfo := []
  tableAlias : String := ""
  columnAlias : List String := []
  deriving DecidableEq

end KetiEngine
