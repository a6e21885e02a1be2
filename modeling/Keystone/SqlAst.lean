import Keystone.ExecutorValue

/-! # Statements and schemas

The syntax tree the executor runs, as the parser builds it. Expressions contain whole queries
and queries contain expressions, so the types are mutual. -/
namespace SqlAst

open ExecutorValue StorageInternalKey

inductive Literal (F : Type) where
  | int (n : ℤ)
  | float (f : F)
  | text (s : Bytes)
  | bool (b : Bool)
  | null
  | floatArray (a : List F)
  deriving DecidableEq

def Literal.value {F : Type} : Literal F → Value F
  | .int n => .int n
  | .float f => .float f
  | .text s => .text s
  | .bool b => .bool b
  | .null => .null
  | .floatArray a => .floatArray a

inductive JoinType where
  | inner | left | right | full | cross
  deriving DecidableEq

inductive UnionOp where
  | union | unionAll
  deriving DecidableEq

inductive FrameType where
  | rows | range | groups
  deriving DecidableEq

inductive FrameBoundType where
  | unboundedPreceding | preceding | currentRow | following | unboundedFollowing
  deriving DecidableEq

mutual

inductive Expr (F : Type) where
  | literal (l : Literal F)
  | ident (name : String)
  | qualifiedIdent (table col : String)
  | binaryOp (op : BinOp) (lhs rhs : Expr F)
  | unaryOp (op : UnOp) (e : Expr F)
  | isNull (e : Expr F) (negated : Bool)
  | isTrue (e : Expr F) (negated : Bool)
  | isFalse (e : Expr F) (negated : Bool)
  | between (e low high : Expr F) (negated : Bool)
  | like (e pattern : Expr F) (negated : Bool)
  | inExprs (e : Expr F) (items : List (Expr F)) (negated : Bool)
  | inSubquery (e : Expr F) (subquery : SelectStmt F) (negated : Bool)
  | «exists» (subquery : SelectStmt F) (negated : Bool)
  | cast (e : Expr F) (type : String)
  | function (name : String) (args : List (Expr F)) (distinct : Bool)
  | case (operand : Option (Expr F)) (branches : List (Expr F × Expr F)) (else_ : Option (Expr F))
  | param (n : ℕ)
  | subquery (subquery : SelectStmt F)
  | window (func : String) (args partitionBy : List (Expr F)) (orderBy : List (OrderBy F))
      (frame : Option (WindowFrame F))

structure OrderBy (F : Type) where
  expr : Expr F
  asc : Bool

structure FrameBound (F : Type) where
  boundType : FrameBoundType
  offset : Option (Expr F)

structure WindowFrame (F : Type) where
  frameType : FrameType
  start : FrameBound F
  stop : Option (FrameBound F)

structure Cte (F : Type) where
  name : String
  columns : List String
  subquery : SelectStmt F
  recursive : Bool

inductive Projection (F : Type) where
  | wildcard
  | wildcardTable (table : String)
  | expr (e : Expr F) (alias_ : Option String)

/-- A stored table, a derived table or a table function, by which of the options is set. -/
structure TableRef (F : Type) where
  name : String
  alias_ : Option String
  subquery : Option (SelectStmt F)
  funcArgs : Option (List (Expr F))

structure Join (F : Type) where
  joinType : JoinType
  table : TableRef F
  on : Option (Expr F)

structure SelectStmt (F : Type) where
  ctes : List (Cte F)
  distinct : Bool
  projections : List (Projection F)
  from_ : Option (TableRef F × List (Join F))
  where_ : Option (Expr F)
  groupBy : List (Expr F)
  having : Option (Expr F)
  orderBy : List (OrderBy F)
  limit : Option (Expr F)
  offset : Option (Expr F)
  union : Option (UnionOp × SelectStmt F)

end

def TableRef.aliasName {F : Type} (t : TableRef F) : String := t.alias_.getD t.name

structure InsertStmt (F : Type) where
  table : String
  columns : List String
  values : List (List (Expr F))

structure DeleteStmt (F : Type) where
  table : String
  where_ : Option (Expr F)

structure UpdateStmt (F : Type) where
  table : String
  assignments : List (String × Expr F)
  where_ : Option (Expr F)

structure CopyStmt where
  table : String
  columns : List String
  deriving DecidableEq

inductive ColumnType where
  | int8 | int4 | int2 | float8 | float4 | text | bool | timestamp | date | json | bytea
  | geometry | geography | vector | raster | float8Array
  deriving DecidableEq

def ColumnType.oid : ColumnType → ℕ
  | .int8 => 20
  | .int4 => 23
  | .int2 => 21
  | .float8 => 701
  | .float4 => 700
  | .text => 25
  | .bool => 16
  | .timestamp => 1114
  | .date => 1082
  | .json => 114
  | .bytea => 17
  | .geometry | .geography | .vector | .raster => 25
  | .float8Array => 1022

structure ColumnDef where
  name : String
  colType : ColumnType
  nullable : Bool
  default : Option String
  isPk : Bool
  deriving DecidableEq

structure ForeignKey where
  column : ℕ
  refTable : String
  refColumn : String
  deriving DecidableEq

structure JsonSchemaRule where
  column : String
  mode : String
  schema : Bytes
  deriving DecidableEq

structure TableSchema where
  name : String
  columns : List ColumnDef
  pkColumns : List ℕ
  uniqueGroups : List (List ℕ)
  foreignKeys : List ForeignKey
  jsonSchemas : List JsonSchemaRule
  deriving DecidableEq

namespace TableSchema

def columnIndex (s : TableSchema) (name : String) : Option ℕ :=
  s.columns.findIdx? fun c => c.name = name

def hasColumn (s : TableSchema) (name : String) : Bool := s.columns.any fun c => c.name = name

/-- A schema without constraints, as derived tables and joins have it. -/
def ofColumns (name : String) (columns : List ColumnDef) : TableSchema :=
  ⟨name, columns, [], [], [], []⟩

def plain (name : String) (columns : List String) : TableSchema :=
  .ofColumns name (columns.map fun c => ⟨c, .text, true, none, false⟩)

end TableSchema

def columnsOf (s : Option TableSchema) : List ColumnDef :=
  match s with
  | some s => s.columns
  | none => []

end SqlAst
