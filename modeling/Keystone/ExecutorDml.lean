import Keystone.ExecutorSelect

/-! # INSERT, DELETE, UPDATE and COPY

Rows are checked, written and announced one by one. INSERT and UPDATE check UNIQUE groups, foreign
keys and JSON schemas against what the statement's transaction sees; COPY only looks for the key. -/
namespace ExecutorDml

open ByteCodecs DecimalText ExecutorEval ExecutorSelect ExecutorValue SqlAst StorageInternalKey

variable {F τ : Type}

inductive CdcOp where
  | insert | update | delete
  deriving DecidableEq

structure CdcEvent where
  op : CdcOp
  table : String
  rowKey : Bytes
  before : Option (List (String × Cell))
  after : Option (List (String × Cell))
  deriving DecidableEq

/-- What the statements need beyond queries. `writeRow` is `txn_write` of the row's
`build_row_value`. A change that cannot be published is only logged. The JSON and vector crates
are parameters. -/
structure WriteDb (m : Type → Type) (F τ : Type) extends Db m F τ where
  txnRead : Option τ → String → Bytes → m (Option Bytes)
  writeRow : Option τ → String → TableSchema → Bytes → Row → m Unit
  txnDelete : Option τ → String → Bytes → m Unit
  publishCdc : CdcEvent → m Unit
  randomKey : m Bytes
  parseExprText : String → Except EvalError (Expr F)
  canonicalVector : Bytes → Option Bytes
  isJson : Bytes → Bool
  jsonViolations : JsonSchemaRule → Bytes → List Bytes

section Rows

def cellsToJson (schema : TableSchema) (cells : Row) : List (String × Cell) :=
  (schema.columns.map ColumnDef.name).zip (cells.map fun cell => cell.map fromUtf8Lossy)

def cdcEvent (op : CdcOp) (table : String) (rowKey : Bytes) (before after : Option Row)
    (schema : TableSchema) : CdcEvent :=
  ⟨op, table, hexEncode rowKey, before.map (cellsToJson schema), after.map (cellsToJson schema)⟩

/-- The cells of a composite key one after the other, as they are stored. -/
def pkKey (pkColumns : List ℕ) (cells : Row) : Bytes :=
  match pkColumns with
  | [single] => (cellAt cells single).getD []
  | many => many.flatMap fun i => encodeCell (cellAt cells i)

def joinTexts (sep : Bytes) : List Bytes → Bytes
  | [] => []
  | [t] => t
  | t :: ts => t ++ sep ++ joinTexts sep ts

def violatesGroup (F : Type) [Scalars F] (rows : List KeyValue) (cells : Row)
    (excludeKey : Option Bytes) (group : List ℕ) : Bool :=
  (group.all fun i => (cellAt cells i).isSome) &&
    rows.any fun kv => excludeKey ≠ some kv.1 &&
      group.all fun i => cellAt (parseRow F kv.2) i = cellAt cells i

def uniqueError (schema : TableSchema) (group : List ℕ) : EvalError :=
  .other (utf8 ("duplicate value violates unique constraint on " ++ schema.name ++ "(") ++
    joinTexts (utf8 ", ") (group.map fun i => utf8
      ((schema.columns[i]?.map ColumnDef.name).getD ""))
      ++ utf8 ")")

def foreignKeyError (schema : TableSchema) (fk : ForeignKey) (val : Bytes) : EvalError :=
  .other (utf8 ("insert or update on table \"" ++ schema.name ++
    "\" violates foreign key constraint: no row in \"" ++ fk.refTable ++ "\" with " ++
    fk.refColumn ++ " = \"") ++ fromUtf8Lossy val ++ utf8 "\"")

def duplicateKeyError (table : String) : EvalError :=
  .other (utf8 ("duplicate key value violates unique constraint \"" ++ table ++ "_pkey\""))

def missingColumn (name : String) : EvalError :=
  .other (utf8 ("column \"" ++ name ++ "\" does not exist"))

end Rows

section Statements

variable [Scalars F] {m : Type → Type} [Monad m] [MonadExceptOf EvalError m]

def normalizeVectorCells (db : WriteDb m F τ) (schema : TableSchema) (cells : Row) : Row :=
  cells.zipIdx.map fun (cell, i) =>
    if schema.columns[i]?.any (·.colType = .vector) then
      cell.map fun bytes => (db.canonicalVector bytes).getD bytes
    else cell

def checkUniqueConstraints (db : WriteDb m F τ) (txn : Option τ) (schema : TableSchema)
    (cells : Row) (excludeKey : Option Bytes) : m Unit :=
  if schema.uniqueGroups.isEmpty then pure ()
  else do
    let rows ← db.txnScan txn schema.name
    match schema.uniqueGroups.find? (violatesGroup F rows cells excludeKey) with
    | none => pure ()
    | some group => throw (uniqueError schema group)

def checkForeignKey (db : WriteDb m F τ) (txn : Option τ) (schema : TableSchema) (cells : Row)
    (fk : ForeignKey) : m Unit :=
  match cellAt cells fk.column with
  | none => pure ()
  | some val => do
    match ← db.getTable fk.refTable with
    | none => throw (.other (utf8 ("referenced table \"" ++ fk.refTable ++ "\" does not exist")))
    | some ref =>
      match ref.columnIndex fk.refColumn with
      | none =>
        throw (.other (utf8 ("referenced column \"" ++ fk.refColumn ++ "\" does not exist")))
      | some idx => do
        let rows ← db.txnScan txn fk.refTable
        if (parseRows F rows).any fun row => cellAt row idx = some val then pure ()
        else throw (foreignKeyError schema fk val)

def checkForeignKeys (db : WriteDb m F τ) (txn : Option τ) (schema : TableSchema) (cells : Row) :
    List ForeignKey → m Unit
  | [] => pure ()
  | fk :: fks => do
    checkForeignKey db txn schema cells fk
    checkForeignKeys db txn schema cells fks

/-- A rule for a column the table does not have, NULL and text that is not UTF-8 pass. -/
def jsonRuleError (db : WriteDb m F τ) (schema : TableSchema) (cells : Row)
    (rule : JsonSchemaRule) : Option EvalError := do
  let idx ← schema.columnIndex rule.column
  let raw ← cellAt cells idx
  if !validUtf8 raw then none
  else if !db.isJson raw then
    some (.other (utf8 ("column \"" ++ rule.column ++ "\" is not valid JSON")))
  else
    match db.jsonViolations rule raw with
    | [] => none
    | errors => some (.other (utf8 ("json_schema validation failed for column \"" ++ rule.column ++
        "\": ") ++ joinTexts (utf8 "; ") errors))

def checkJsonSchemas (db : WriteDb m F τ) (schema : TableSchema) (cells : Row) : m Unit :=
  match schema.jsonSchemas.findSome? (jsonRuleError db schema cells) with
  | none => pure ()
  | some e => throw e

/-- A table without a primary key gives each row a random key. -/
def rowKeyFor (db : WriteDb m F τ) (schema : TableSchema) (cells : Row) : m Bytes :=
  if schema.pkColumns.isEmpty then db.randomKey else pure (pkKey schema.pkColumns cells)

def provideCells (env : EvalEnv m F) (ctx : RowContext F) (schema : TableSchema) :
    List (String × Expr F) → List (Option Cell) → m (List (Option Cell))
  | [], slots => pure slots
  | (name, e) :: rest, slots =>
    match schema.columnIndex name with
    | none => throw (missingColumn name)
    | some idx => do
      let v ← eval env ctx e
      provideCells env ctx schema rest (slots.set idx (some v.toWireBytes))

def fillCell (db : WriteDb m F τ) (env : EvalEnv m F) (ctx : RowContext F) :
    ColumnDef × Option Cell → m Cell
  | (_, some cell) => pure cell
  | (col, none) =>
    match col.default with
    | some text => match db.parseExprText text with
      | .error e => throw e
      | .ok e => do
        let v ← eval env ctx e
        pure v.toWireBytes
    | none =>
      if col.nullable then pure none
      else throw (.other (utf8 ("column \"" ++ col.name ++ "\" is NOT NULL and has no default")))

def insertSlots (env : EvalEnv m F) (ctx : RowContext F) (schema : TableSchema)
    (columns : List String) (values : List (Expr F)) : m (List (Option Cell)) :=
  if columns.isEmpty then
    if values.length ≠ schema.columns.length then
      throw (.other (utf8 "INSERT has " ++ printNat values.length ++
        utf8 (" value(s) but table \"" ++ schema.name ++ "\" has ") ++
        printNat schema.columns.length ++ utf8 " column(s)"))
    else values.mapM fun e => do
      let v ← eval env ctx e
      pure (some v.toWireBytes)
  else if columns.length ≠ values.length then
    throw (.other (utf8 "INSERT column list has " ++ printNat columns.length ++
      utf8 " entries but VALUES has " ++ printNat values.length))
  else provideCells env ctx schema (columns.zip values) (List.replicate schema.columns.length none)

def resolveInsertRow (db : WriteDb m F τ) (env : EvalEnv m F) (schema : TableSchema)
    (columns : List String) (values : List (Expr F)) (params : List (Value F)) : m Row := do
  let ctx := { RowContext.empty with params }
  let slots ← insertSlots env ctx schema columns values
  let cells ← (schema.columns.zip slots).mapM (fillCell db env ctx)
  pure (normalizeVectorCells db schema cells)

def checkRow (db : WriteDb m F τ) (txn : Option τ) (schema : TableSchema) (cells : Row)
    (excludeKey : Option Bytes) : m Unit := do
  checkUniqueConstraints db txn schema cells excludeKey
  checkForeignKeys db txn schema cells schema.foreignKeys
  checkJsonSchemas db schema cells

def checkNewKey (db : WriteDb m F τ) (txn : Option τ) (table : String) (schema : TableSchema)
    (key : Bytes) : m Unit :=
  if schema.pkColumns.isEmpty then pure ()
  else do
    let found ← db.txnRead txn table key
    if found.isSome then throw (duplicateKeyError table) else pure ()

def insertRow (db : WriteDb m F τ) (run : Runner m F τ) (txn : Option τ) (table : String)
    (schema : TableSchema) (columns : List String) (params : List (Value F))
    (values : List (Expr F)) : m Unit := do
  let cells ← resolveInsertRow db (evalEnv db.toDb run) schema columns values params
  checkRow db txn schema cells none
  let key ← rowKeyFor db schema cells
  checkNewKey db txn table schema key
  db.writeRow txn table schema key cells
  db.publishCdc (cdcEvent .insert table key none (some cells) schema)

def insertRows (db : WriteDb m F τ) (run : Runner m F τ) (txn : Option τ) (table : String)
    (schema : TableSchema) (columns : List String) (params : List (Value F)) :
    List (List (Expr F)) → m ℕ
  | [] => pure 0
  | values :: rest => do
    insertRow db run txn table schema columns params values
    let n ← insertRows db run txn table schema columns params rest
    pure (n + 1)

def tableMissing (name : String) : EvalError :=
  .other (utf8 ("table \"" ++ name ++ "\" does not exist"))

def executeInsert (db : WriteDb m F τ) (run : Runner m F τ) (stmt : InsertStmt F) (txn : Option τ)
    (params : List (Value F)) : m ℕ := do
  match ← db.getTable stmt.table with
  | none => throw (tableMissing stmt.table)
  | some schema => insertRows db run txn stmt.table schema stmt.columns params stmt.values

def matchesRow (env : EvalEnv m F) (ctx : RowContext F) (where_ : Option (Expr F)) : m Bool :=
  match where_ with
  | none => pure true
  | some e => do
    let v ← eval env ctx e
    pure v.isTruthy

def deleteRow (db : WriteDb m F τ) (run : Runner m F τ) (stmt : DeleteStmt F) (txn : Option τ)
    (schema : Option TableSchema) (params : List (Value F)) (kv : KeyValue) : m Bool := do
  let row := parseRow F kv.2
  let found ← matchesRow (evalEnv db.toDb run) { RowContext.new row schema with params } stmt.where_
  if found then do
    db.txnDelete txn stmt.table kv.1
    match schema with
    | none => pure true
    | some schema => do
      db.publishCdc (cdcEvent .delete stmt.table kv.1 (some row) none schema)
      pure true
  else pure false

def countRows (visit : KeyValue → m Bool) : List KeyValue → m ℕ
  | [] => pure 0
  | kv :: rest => do
    let hit ← visit kv
    let n ← countRows visit rest
    pure (if hit then n + 1 else n)

def executeDelete (db : WriteDb m F τ) (run : Runner m F τ) (stmt : DeleteStmt F) (txn : Option τ)
    (params : List (Value F)) : m ℕ := do
  let schema ← db.getTable stmt.table
  let rows ← db.txnScan txn stmt.table
  countRows (deleteRow db run stmt txn schema params) rows

/-- The new values are computed on the old row. A row that is shorter than the schema panics. -/
def assignCells (env : EvalEnv m F) (ctx : RowContext F) (schema : TableSchema) :
    List (String × Expr F) → Row → m Row
  | [], row => pure row
  | (name, e) :: rest, row =>
    match schema.columnIndex name with
    | none => throw (missingColumn name)
    | some idx => do
      let v ← eval env ctx e
      if idx < row.length then assignCells env ctx schema rest (row.set idx v.toWireBytes)
      else throw .panic

/-- The row stays under its key, whatever is assigned. -/
def updateRow (db : WriteDb m F τ) (run : Runner m F τ) (stmt : UpdateStmt F) (txn : Option τ)
    (schema : TableSchema) (params : List (Value F)) (kv : KeyValue) : m Bool := do
  let row := parseRow F kv.2
  let env := evalEnv db.toDb run
  let ctx := { RowContext.new row (some schema) with params }
  let found ← matchesRow env ctx stmt.where_
  if found then do
    let assigned ← assignCells env ctx schema stmt.assignments row
    let cells := normalizeVectorCells db schema assigned
    checkRow db txn schema cells (some kv.1)
    db.writeRow txn stmt.table schema kv.1 cells
    db.publishCdc (cdcEvent .update stmt.table kv.1 (some row) (some cells) schema)
    pure true
  else pure false

def executeUpdate (db : WriteDb m F τ) (run : Runner m F τ) (stmt : UpdateStmt F) (txn : Option τ)
    (params : List (Value F)) : m ℕ := do
  match ← db.getTable stmt.table with
  | none => throw (tableMissing stmt.table)
  | some schema => do
    let rows ← db.txnScan txn stmt.table
    countRows (updateRow db run stmt txn schema params) rows

def targetColumns (schema : TableSchema) (columns : List String) : Except EvalError (List ℕ) :=
  if columns.isEmpty then .ok (List.range schema.columns.length)
  else columns.mapM fun name => match schema.columnIndex name with
    | some idx => .ok idx
    | none => .error (missingColumn name)

/-- `\t`, `\n` and `\r` stand for control characters, a backslash before anything else for
nothing. -/
def unescape : Bytes → Bytes
  | [] => []
  | [92] => []
  | 92 :: 116 :: rest => 9 :: unescape rest
  | 92 :: 110 :: rest => 10 :: unescape rest
  | 92 :: 114 :: rest => 13 :: unescape rest
  | 92 :: c :: rest => c :: unescape rest
  | c :: rest => c :: unescape rest

def decodeCopyCell (raw : Bytes) : Cell := if raw = utf8 "\\N" then none else some (unescape raw)

def placeCells (width : ℕ) (target : List ℕ) (cells : Row) : Row :=
  (target.zip cells).foldl (fun row (idx, cell) => row.set idx cell) (List.replicate width none)

/-- Neither the transaction nor any constraint beside the primary key is looked at. -/
def insertCopyLine (db : WriteDb m F τ) (table : String) (schema : TableSchema) (target : List ℕ)
    (line : Bytes) : m Unit := do
  let raw := (line.splitOn 9).map decodeCopyCell
  if raw.length ≠ target.length then
    throw (.other (utf8 "COPY: expected " ++ printNat target.length ++ utf8 " columns, got " ++
      printNat raw.length))
  else do
    let cells := placeCells schema.columns.length target raw
    let key ← rowKeyFor db schema cells
    checkNewKey db none table schema key
    db.writeRow none table schema key cells

/-- The lines of the data; what follows the last line feed is dropped. -/
def copyLines (data : Bytes) : List Bytes := (data.splitOn 10).dropLast

/-- The first line that fails ends the writing. -/
def copyIn (db : WriteDb m F τ) (stmt : CopyStmt) (data : Bytes) : m ℕ := do
  match ← db.getTable stmt.table with
  | none => throw (tableMissing stmt.table)
  | some schema => do
    let target ← ofResult (targetColumns schema stmt.columns)
    let lines := copyLines data
    lines.forM fun line => insertCopyLine db stmt.table schema target (fromUtf8Lossy line)
    pure lines.length

def scanForCopy (db : WriteDb m F τ) (table : String) (target : List ℕ) : m (List Row) := do
  let rows ← db.txnScan none table
  pure ((parseRows F rows).map fun row => target.map fun i => cellAt row i)

def escapeByte (b : UInt8) : Bytes :=
  if b = 9 then utf8 "\\t" else if b = 10 then utf8 "\\n" else if b = 13 then utf8 "\\r"
  else if b = 92 then utf8 "\\\\" else [b]

def encodeCopyLine (row : Row) : Bytes :=
  joinTexts [9] (row.map fun
    | none => utf8 "\\N"
    | some data => data.flatMap escapeByte) ++ [10]

def copyOut (db : WriteDb m F τ) (stmt : CopyStmt) : m (List Bytes) := do
  match ← db.getTable stmt.table with
  | none => throw (tableMissing stmt.table)
  | some schema => do
    let target ← ofResult (targetColumns schema stmt.columns)
    let rows ← scanForCopy db stmt.table target
    pure (rows.map encodeCopyLine)

end Statements

end ExecutorDml
