import Keystone.ByteReaders
import Keystone.ExecutorRbac

/-! # What Describe announces

Describe works out the columns from the statement. A format is chosen for each column from its type;
a cell that is not of its type is sent as it is. -/
namespace WireDescribe

open ByteCodecs ByteReaders DecimalText Except ExecutorEval ExecutorJoin ExecutorPlanner
  ExecutorRbac ExecutorSelect ExecutorValue FallibleLists List SqlAst StorageInternalKey

variable {F τ : Type}

structure FloatBytes where
  float8 : Bytes → Option Bytes
  float4 : Bytes → Option Bytes

def supportsBinary (typeOid : ℕ) : Bool := typeOid ∈ [20, 23, 21, 701, 700, 16, 25, 17]

def hexDigit (b : UInt8) : Option UInt8 :=
  if 48 ≤ b ∧ b ≤ 57 then some (b - 48)
  else if 97 ≤ b ∧ b ≤ 102 then some (b - 87)
  else if 65 ≤ b ∧ b ≤ 70 then some (b - 55)
  else none

def hexDecode : Bytes → Option Bytes
  | [] => some []
  | [_] => none
  | a :: b :: text => do
    let high ← hexDigit a
    let low ← hexDigit b
    let bytes ← hexDecode text
    some ((high * 16 + low) :: bytes)

def intCell (width : ℕ) (text : Bytes) : Option Bytes :=
  if validUtf8 text then (parseBits (8 * width) (trim text)).map (encodeInt width) else none

def floatCell (parse : Bytes → Option Bytes) (text : Bytes) : Option Bytes :=
  if validUtf8 text then parse (trim text) else none

def boolCell (text : Bytes) : Option Bytes :=
  if text ∈ [utf8 "t", utf8 "true", utf8 "1"] then some [1]
  else if text ∈ [utf8 "f", utf8 "false", utf8 "0"] then some [0]
  else none

def byteaCell (text : Bytes) : Option Bytes :=
  if validUtf8 text then hexDecode (((utf8 "\\x").isPrefixOf? text).getD text) else none

def textCellToBinary (floats : FloatBytes) (text : Bytes) (typeOid : ℕ) : Option Bytes :=
  match typeOid with
  | 20 => intCell 8 text
  | 23 => intCell 4 text
  | 21 => intCell 2 text
  | 701 => floatCell floats.float8 text
  | 700 => floatCell floats.float4 text
  | 16 => boolCell text
  | 25 => some text
  | 17 => byteaCell text
  | _ => none

/-- One code is for all columns; binary is text where the type has no binary form. -/
def resolveResultFormats (requested : List ℤ) (oids : List ℕ) : List ℤ :=
  oids.mapIdx fun i typeOid =>
    let want := match requested with
      | [] => 0
      | [code] => code
      | codes => codes.getD i 0
    if want = 1 ∧ supportsBinary typeOid then 1 else 0

def encodeCellAs (floats : FloatBytes) (typeOid : ℕ) (format : ℤ) (text : Bytes) : Bytes :=
  if format = 1 then (textCellToBinary floats text typeOid).getD text else text

def encodeResultRow (floats : FloatBytes) (row : Row) (oids : List ℕ) (formats : List ℤ) : Row :=
  row.mapIdx fun i cell => cell.map (encodeCellAs floats (oids.getD i 25) (formats.getD i 0))

section Describe

variable [Scalars F] {m : Type → Type} [Monad m] [MonadExceptOf EvalError m]

def joinedSchema (db : Db m F τ) (run : Runner m F τ) :
    List (Join F) → Option TableSchema → CteContext → m (Option TableSchema)
  | [], schema, _ => pure schema
  | j :: joins, schema, ctes => do
    let ((more, _), ctes) ← resolveTableRef db run j.table ctes [] [] none
    joinedSchema db run joins (mergeSchema schema more) ctes

/-- Without parameters, without the transaction and without a look at UNION. -/
def describeSelect (db : Db m F τ) (run : Runner m F τ) (s : SelectStmt F) :
    m (List FieldDescription) := do
  let ctes ← s.ctes.foldlM (materializeCte run [] [] none) []
  match s.from_ with
  | none => ofResult (buildFields s.projections none)
  | some (table, joins) => do
    let ((schema, _), ctes) ← resolveTableRef db run table ctes [] [] none
    let schema ← joinedSchema db run joins schema ctes
    ofResult (buildFields s.projections schema)

end Describe

def FieldDescription.oids (fields : List FieldDescription) :
    List ℕ := fields.map FieldDescription.typeOid

inductive Described where
  | rowDescription (fields : List (FieldDescription × ℤ))
  | noData
  | panicked
  deriving DecidableEq

def describedAs (requested : List ℤ) (fields : List FieldDescription) : Described :=
  if fields = [] then .noData
  else .rowDescription (fields.zip (resolveResultFormats requested (FieldDescription.oids fields)))

def noFloats : FloatBytes := ⟨fun _ => none, fun _ => none⟩

end WireDescribe
