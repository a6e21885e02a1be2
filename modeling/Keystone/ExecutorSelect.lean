import Keystone.ExecutorAggregate

/-! # SELECT

The pipeline of a query: set operations, common table expressions, the FROM clause with its joins,
WHERE, grouping, windows, ORDER BY, LIMIT, OFFSET and projection. What it takes from the database
are operations in a monad with errors; `τ` is the handle of a transaction. -/
namespace ExecutorSelect

open ByteCodecs ExecutorAggregate ExecutorEval ExecutorJoin ExecutorPlanner ExecutorValue List
  SqlAst StorageInternalKey

variable {F τ : Type}

abbrev KeyValue := Bytes × Bytes

structure Db (m : Type → Type) (F τ : Type) where
  getTable : String → m (Option TableSchema)
  txnScan : Option τ → String → m (List KeyValue)
  indexedColumn : String → String → m Bool
  indexLookup : String → String → Bytes → m (Option KeyValue)
  indexedColumnSpatial : String → String → m Bool
  spatialQuery : String → SpatialPredicate F → m (Option (List KeyValue))
  indexedColumnTime : String → String → m Bool
  timeRangeQuery : String → String → ℤ → ℤ → m (Option (List KeyValue))
  rowCountEstimate : String → m (Option ℤ)
  virtualTable : String → m (Option (Option TableSchema × List Row))
  graphFunction : String → List (Expr F) → List (Value F) → m (Option TableSchema × List Row)
  call : Bytes → List (m (Value F)) → m (Value F)
  gpu : GpuPairs F

def encodeCell : Cell → Bytes
  | some data => encodeField data
  | none => encodeBE 4 (2 ^ 32 - 1)

/-- A JSON cell is stored in binary form if the database is set to do so. -/
def storedCell (F : Type) [Scalars F] (binaryJson : Bool) (column : Option ColumnDef)
    (data : Bytes) : Bytes :=
  if binaryJson && column.any (·.colType = .json) then Scalars.jsonbEncode F data else data

def buildRowValue (F : Type) [Scalars F] (binaryJson : Bool) (schema : TableSchema) (cells : Row) :
    Bytes :=
  cells.zipIdx.flatMap fun (cell, i) =>
    encodeCell (cell.map (storedCell F binaryJson schema.columns[i]?))

/-- Cells with a signed length in front, a negative one for NULL; a cell that reaches beyond the
value ends the row with a NULL. -/
def parseCells (decode : Bytes → Option Bytes) : ℕ → Bytes → Row
  | 0, _ => []
  | fuel + 1, data =>
    if data.length < 4 then []
    else
      let len := decodeBE (data.take 4)
      let rest := data.drop 4
      if 2 ^ 31 ≤ len then none :: parseCells decode fuel rest
      else if len ≤ rest.length then
        some ((decode (rest.take len)).getD (rest.take len)) ::
          parseCells decode fuel (rest.drop len)
      else [none]

def parseRow (F : Type) [Scalars F] (value : Bytes) : Row :=
  parseCells (Scalars.jsonbDecode F) value.length value

theorem parseCells_encodeCells {cells : Row}
    (hshort : ∀ data, some data ∈ cells → data.length < 2 ^ 31) {fuel : ℕ}
    (hfuel : cells.length ≤ fuel) :
    parseCells decode fuel (cells.flatMap encodeCell) =
      cells.map (Option.map fun data => (decode data).getD data) := by
  induction cells generalizing fuel with
  | nil => cases fuel <;> simp [parseCells]
  | cons cell cells ih =>
    obtain ⟨fuel, rfl⟩ : ∃ n, fuel = n + 1 := ⟨fuel - 1, by simp at hfuel; omega⟩
    have hrest := ih (fun data hdata => hshort data (by simp [hdata])) (by simpa using hfuel)
    cases cell with
    | none =>
      have hlen : decodeBE (encodeBE 4 (2 ^ 32 - 1)) = 2 ^ 32 - 1 := decodeBE_encodeBE (by decide)
      simp only [flatMap_cons, encodeCell, parseCells,
        take_left' (length_encodeBE ..), drop_left' (length_encodeBE ..), hlen, hrest]
      simp
    | some data =>
      have hdata : data.length < 2 ^ 31 := hshort data (by simp)
      have hlen : decodeBE (encodeBE 4 data.length) = data.length :=
        decodeBE_encodeBE (hdata.trans (by decide))
      simp only [flatMap_cons, encodeCell, encodeField, append_assoc, parseCells,
        length_append, length_encodeBE, take_left' (length_encodeBE ..),
        drop_left' (length_encodeBE ..), hlen, drop_left, hrest]
      rw [if_neg (by omega), if_neg (by omega), if_pos (by omega)]
      simp

theorem length_le_encodeCells (cells : Row) : cells.length ≤ (cells.flatMap encodeCell).length := by
  induction cells with
  | nil => simp
  | cons cell cells ih =>
    have hcell : 4 ≤ (encodeCell cell).length := by cases cell <;> simp [encodeCell]
    simp only [length_cons, flatMap_cons, length_append]
    omega

def storedCells (F : Type) [Scalars F] (binaryJson : Bool) (schema : TableSchema) (cells : Row) :
    Row :=
  cells.zipIdx.map fun (cell, i) => cell.map (storedCell F binaryJson schema.columns[i]?)

section Reading

variable {F : Type} [Scalars F] {binaryJson : Bool} {schema : TableSchema} {cells : Row}

theorem buildRowValue_eq : buildRowValue F binaryJson schema cells =
      (storedCells F binaryJson schema cells).flatMap encodeCell := by
  simp [buildRowValue, storedCells, flatMap_map]

theorem getElem?_storedCells (i : ℕ) : (storedCells F binaryJson schema cells)[i]? =
    cells[i]?.map (Option.map (storedCell F binaryJson schema.columns[i]?)) := by
  cases hi : cells[i]? with
  | none | some cell => simp [storedCells, hi]

variable (short : ∀ (i : ℕ) (data : Bytes), cells[i]? = some (some data) →
  (storedCell F binaryJson schema.columns[i]? data).length < 2 ^ 31)

include short

theorem storedCells_short (h : some data ∈ storedCells F binaryJson schema cells) :
    data.length < 2 ^ 31 := by
  obtain ⟨⟨cell, i⟩, hmem, hcell⟩ := mem_map.mp h
  obtain ⟨raw, rfl, rfl⟩ := Option.map_eq_some_iff.mp hcell
  exact short i raw (mem_zipIdx_iff_getElem?.mp hmem)

/-- What a reader sees that takes some cells for something else. -/
theorem parseCells_buildRowValue (decode : Bytes → Option Bytes) :
    parseCells decode (buildRowValue F binaryJson schema cells).length
        (buildRowValue F binaryJson schema cells) =
      (storedCells F binaryJson schema cells).map
        (Option.map fun data => (decode data).getD data) := by
  rw [buildRowValue_eq]
  exact parseCells_encodeCells (fun _ => storedCells_short short) (length_le_encodeCells _)

end Reading

/-- A cell that is stored as it is: short enough, and not taken for binary JSON of another text. -/
def Storable (F : Type) [Scalars F] (binaryJson : Bool) (column : Option ColumnDef) (data : Bytes) :
    Prop :=
  (storedCell F binaryJson column data).length < 2 ^ 31 ∧
    (Scalars.jsonbDecode F (storedCell F binaryJson column data)).getD
      (storedCell F binaryJson column data) = data

theorem parseRow_buildRowValue [Scalars F] (h : ∀ (i : ℕ) (data : Bytes),
    cells[i]? = some (some data) →
      Storable F binaryJson schema.columns[i]? data) :
    parseRow F (buildRowValue F binaryJson schema cells) = cells := by
  rw [parseRow, parseCells_buildRowValue fun i data hdata => (h i data hdata).1]
  apply ext_getElem?
  intro i
  rw [List.getElem?_map, getElem?_storedCells]
  cases hi : cells[i]? with
  | none => rfl
  | some cell =>
    cases cell with
    | none => rfl
    | some data => simpa using (h i data hi).2

def decodeCells (decode : Bytes → Option Bytes) : ℕ → Bytes → ℕ → Cell
  | 0, _, _ => none
  | fuel + 1, data, idx =>
    if data.length < 4 then none
    else
      let len := decodeBE (data.take 4)
      let rest := data.drop 4
      if 2 ^ 31 ≤ len then
        match idx with
        | 0 => none
        | idx + 1 => decodeCells decode fuel rest idx
      else if len ≤ rest.length then
        match idx with
        | 0 => some ((decode (rest.take len)).getD (rest.take len))
        | idx + 1 => decodeCells decode fuel (rest.drop len) idx
      else none

def decodeColumn (F : Type) [Scalars F] (value : Bytes) (idx : ℕ) : Cell :=
  decodeCells (Scalars.jsonbDecode F) value.length value idx

/-- The indexes read the cells that queries read. -/
theorem decodeCells_eq :
    decodeCells decode fuel data idx = cellAt (parseCells decode fuel data) idx := by
  induction fuel generalizing data idx with
  | zero => rfl
  | succ fuel ih =>
    simp only [decodeCells, parseCells]
    by_cases hshort : data.length < 4
    · simp [hshort, cellAt]
    · by_cases hnull : 2 ^ 31 ≤ decodeBE (data.take 4)
      · cases idx with
        | zero => simp only [hshort, hnull]; rfl
        | succ idx => simp only [hshort, hnull, ih]; rfl
      · by_cases hfits : decodeBE (data.take 4) ≤ (data.drop 4).length
        · cases idx with
          | zero => simp only [hshort, hnull, hfits]; rfl
          | succ idx => simp only [hshort, hnull, hfits, ih]; rfl
        · cases idx with
          | zero | succ idx => simp only [hshort, hnull, hfits]; rfl

def parseRows (F : Type) [Scalars F] (rows : List KeyValue) : List Row :=
  rows.map fun kv => parseRow F kv.2

structure FieldDescription where
  name : String
  typeOid : ℕ
  deriving DecidableEq

structure QueryResult where
  fields : List FieldDescription
  rows : List Row
  deriving DecidableEq

abbrev CteContext := List (String × (List Row × TableSchema))

def columnTypeOfOid (typeOid : ℕ) : ColumnType :=
  if typeOid = 20 then .int8 else if typeOid = 701 then .float8
  else if typeOid = 16 then .bool else .text

def schemaFromFields (name : String) (fields : List FieldDescription) : TableSchema :=
  .ofColumns name (fields.map fun f => ⟨f.name, columnTypeOfOid f.typeOid, true, none, false⟩)

def inferColumnName [Scalars F] : Expr F → String
  | .ident name => name
  | .qualifiedIdent _ col => col
  | .function name _ _ => Scalars.lowerName F name
  | _ => "?column?"

def fieldsOf [Scalars F] (s : Option TableSchema) :
    Projection F → Except EvalError (List FieldDescription)
  | .wildcard => match s with
    | some s => .ok (s.columns.map fun c => ⟨c.name, c.colType.oid⟩)
    | none => .error .wildcardWithoutFrom
  | .wildcardTable _ => .error .tableWildcard
  | .expr e name => .ok [⟨name.getD (inferColumnName e), 25⟩]

def buildFields [Scalars F] (projections : List (Projection F)) (s : Option TableSchema) :
    Except EvalError (List FieldDescription) := do
  let fields ← projections.mapM (fieldsOf s)
  .ok fields.flatten

section Pipeline

variable [Scalars F] {m : Type → Type} [Monad m] [MonadExceptOf EvalError m]

/-- How a query is run: statement, common table expressions, enclosing rows, parameters and
transaction. -/
abbrev Runner (m : Type → Type) (F τ : Type) :=
  SelectStmt F → CteContext → List OuterRow → List (Value F) → Option τ →
    m (QueryResult × CteContext)

/-- Expressions with the database: their queries see the enclosing rows, but neither common
table expressions nor the transaction. -/
def evalEnv (db : Db m F τ) (run : Runner m F τ) : EvalEnv m F where
  runSubquery s ctx := do
    let (result, _) ← run s [] ctx.outerChainForSubquery ctx.params none
    pure result.rows
  call := db.call

def resolveTableRef (db : Db m F τ) (run : Runner m F τ) (table : TableRef F) (ctes : CteContext)
    (outer : List OuterRow) (params : List (Value F)) (txn : Option τ) :
    m ((Option TableSchema × List Row) × CteContext) :=
  match table.subquery with
  | some subquery => do
    let (result, ctes) ← run subquery ctes outer params txn
    pure ((some (schemaFromFields table.name result.fields), result.rows), ctes)
  | none =>
    match table.funcArgs with
    | some args => do
      let result ← db.graphFunction table.name args params
      pure (result, ctes)
    | none =>
      match ctes.lookup table.name with
      | some (rows, schema) => pure ((some schema, rows), ctes)
      | none => do
        match ← db.virtualTable table.name with
        | some result => pure (result, ctes)
        | none => do
          let schema ← db.getTable table.name
          let rows ← db.txnScan txn table.name
          pure ((schema, parseRows F rows), ctes)

def indexRows (db : Db m F τ) (table : TableRef F) (where_ : Option (Expr F)) :
    m (Option (Option TableSchema × List Row)) := do
  match ← db.getTable table.name with
  | none => pure none
  | some schema =>
    match extractEqualityPredicate where_ schema with
    | some (col, literal) => do
      if ← db.indexedColumn table.name col then
        let hit ← db.indexLookup table.name col literal
        pure (some (some schema, parseRows F hit.toList))
      else pure none
    | none =>
      match extractSpatialPredicate where_ schema with
      | some sp => do
        if ← db.indexedColumnSpatial table.name sp.col then
          let hits ← db.spatialQuery table.name sp
          pure (hits.map fun hits => (some schema, parseRows F hits))
        else pure none
      | none => do
        match ← ofResult (extractTimeBucketPredicate where_ schema) with
        | none => pure none
        | some tp =>
          if ← db.indexedColumnTime table.name tp.col then
            let hits ← db.timeRangeQuery table.name tp.col tp.t0 tp.t1
            pure (hits.map fun hits => (some schema, parseRows F hits))
          else pure none

/-- Indexes are left alone inside a transaction: they hold committed rows only. -/
def resolvePrimaryTable (db : Db m F τ) (run : Runner m F τ) (table : TableRef F)
    (where_ : Option (Expr F)) (ctes : CteContext) (outer : List OuterRow)
    (params : List (Value F)) (txn : Option τ) :
    m ((Option TableSchema × List Row) × CteContext) :=
  if txn.isNone && table.subquery.isNone && (ctes.lookup table.name).isNone then do
    match ← indexRows db table where_ with
    | some found => pure (found, ctes)
    | none => resolveTableRef db run table ctes outer params txn
  else resolveTableRef db run table ctes outer params txn

def joinNodes (db : Db m F τ) : List (Join F) → m (Option (List JoinNode))
  | [] => pure (some [])
  | j :: joins =>
    if j.table.subquery.isSome || j.table.funcArgs.isSome then pure none
    else do
      match ← tryCatch (db.getTable j.table.name) fun _ => pure none with
      | none => pure none
      | some schema =>
        match ← db.rowCountEstimate j.table.name with
        | none => pure none
        | some est => do
          let rest ← joinNodes db joins
          pure (rest.map (⟨j.table.aliasName, some schema, est⟩ :: ·))

def reorderInnerJoins (db : Db m F τ) (primaryAlias : String) (primary : Option TableSchema)
    (joins : List (Join F)) : m (List ℕ) :=
  let reordered := joins.takeWhile reorderable
  if reordered.length < 2 then pure (List.range joins.length)
  else do
    match ← joinNodes db reordered with
    | none => pure (List.range joins.length)
    | some nodes => pure (joinOrder primaryAlias primary joins nodes)

structure Joined where
  rows : List Row
  schema : Option TableSchema
  scopes : List Scope
  deriving DecidableEq

def joinTable (gpu : GpuPairs F) (acc : Joined) (j : Join F) (schema : Option TableSchema)
    (rows : List Row) : Joined where
  rows := applyJoin gpu acc.rows rows j acc.schema schema acc.scopes j.table.aliasName
  schema := mergeSchema acc.schema schema
  scopes :=
    let offset := ((acc.scopes.getLast?).map Scope.stop).getD 0
    acc.scopes ++ [⟨j.table.aliasName, offset, offset + width schema⟩]

def runJoins (db : Db m F τ) (run : Runner m F τ) (outer : List OuterRow) (params : List (Value F))
    (txn : Option τ) : List (Join F) → Joined → CteContext → m (Joined × CteContext)
  | [], acc, ctes => pure (acc, ctes)
  | j :: joins, acc, ctes => do
    let ((schema, rows), ctes) ← resolveTableRef db run j.table ctes outer params txn
    runJoins db run outer params txn joins (joinTable db.gpu acc j schema rows) ctes

def fromPrimary (table : TableRef F) (schema : Option TableSchema) (rows : List Row) : Joined :=
  ⟨rows, schema, [⟨table.aliasName, 0, width schema⟩]⟩

def rowContext (joined : Joined) (outer : List OuterRow) (params : List (Value F)) (values : Row) :
    RowContext F :=
  ⟨values, joined.schema, outer, params, fun _ => none, joined.scopes⟩

/-- Errors of the predicate are reported. -/
def filterWhere (env : EvalEnv m F) (e : Expr F) : List (RowContext F) → m (List (RowContext F))
  | [] => pure []
  | ctx :: rows => do
    let v ← eval env ctx e
    let rest ← filterWhere env e rows
    pure (if v.isTruthy then ctx :: rest else rest)

def applyWhere (env : EvalEnv m F) (where_ : Option (Expr F)) (rows : List (RowContext F)) :
    m (List (RowContext F)) :=
  match where_ with
  | none => pure rows
  | some e => filterWhere env e rows

def resolveOrderAlias (projections : List (Projection F)) (e : Expr F) : Expr F :=
  match e with
  | .ident name => (projections.findSome? fun
      | .expr target (some alias_) => if alias_ = name then some target else none
      | _ => none).getD e
  | e => e

def orderKeys (env : EvalEnv m F) (exprs : List (Expr F)) :
    List (RowContext F) → m (List (RowContext F × List (Value F)))
  | [] => pure []
  | ctx :: rows => do
    let keys ← exprs.mapM (eval env ctx)
    let rest ← orderKeys env exprs rows
    pure ((ctx, keys) :: rest)

/-- A stable sort, whatever the comparison. Rust's `sort_by` is stable too, and may panic when the
comparison is no order. -/
def applyOrder (env : EvalEnv m F) (s : SelectStmt F) (rows : List (RowContext F)) :
    m (List (RowContext F)) :=
  if s.orderBy.isEmpty then pure rows
  else do
    let exprs := s.orderBy.map fun o => resolveOrderAlias s.projections o.expr
    let keyed ← orderKeys env exprs rows
    let sorted := keyed.insertionSort fun a b =>
      compareKeys (s.orderBy.map OrderBy.asc) a.2 b.2 ≠ .gt
    pure (sorted.map Prod.fst)

def evalExpr (e : Expr F) (params : List (Value F)) : Except EvalError (Value F) :=
  eval (withoutDb F) { RowContext.empty with params } e

def countOf (params : List (Value F)) (e : Option (Expr F)) : Except EvalError (Option ℕ) :=
  match e with
  | none => .ok none
  | some e => do
    let v ← evalExpr e params
    .ok ((boundOf v).map Int.toNat)

/-- LIMIT is applied before OFFSET. -/
def applyLimit (s : SelectStmt F) (params : List (Value F)) (rows : List (RowContext F)) :
    Except EvalError (List (RowContext F)) := do
  let limit ← countOf params s.limit
  let rows := match limit with
    | some n => rows.take n
    | none => rows
  let offset ← countOf params s.offset
  .ok (match offset with
    | some n => rows.drop n
    | none => rows)

def projectCells (env : EvalEnv m F) (ctx : RowContext F) : List (Projection F) → m Row
  | [] => pure []
  | .wildcard :: rest => do
    let cells ← projectCells env ctx rest
    pure (ctx.values ++ cells)
  | .wildcardTable _ :: _ => throw .panic
  | .expr e _ :: rest => do
    let v ← eval env ctx e
    let cells ← projectCells env ctx rest
    pure (v.toWireBytes :: cells)

def finishRows (env : EvalEnv m F) (s : SelectStmt F) (schema : Option TableSchema)
    (params : List (Value F)) (rows : List (RowContext F)) : m (List Row) := do
  let rows ← if isAggregateQuery s then executeAggregation env s rows schema else pure rows
  let rows ← applyWindowFunctions env s rows
  let rows ← applyOrder env s rows
  let rows ← ofResult (applyLimit s params rows)
  rows.mapM fun ctx => projectCells env ctx s.projections

def finishSelect (env : EvalEnv m F) (s : SelectStmt F) (joined : Joined) (outer : List OuterRow)
    (params : List (Value F)) : m QueryResult := do
  let fields ← ofResult (buildFields s.projections joined.schema)
  let rows ← applyWhere env s.where_ (joined.rows.map (rowContext joined outer params))
  let rows ← finishRows env s joined.schema params rows
  pure ⟨fields, rows⟩

def runQuery (db : Db m F τ) (run : Runner m F τ) (s : SelectStmt F) (table : TableRef F)
    (joins : List (Join F)) (outer : List OuterRow) (params : List (Value F)) (txn : Option τ)
    (primary : Option TableSchema × List Row) (ctes : CteContext) :
    m (QueryResult × CteContext) := do
  let order ← reorderInnerJoins db table.aliasName primary.1 joins
  let (joined, ctes) ← runJoins db run outer params txn (order.filterMap (joins[·]?))
    (fromPrimary table primary.1 primary.2) ctes
  let result ← finishSelect (evalEnv db run) s joined outer params
  pure (result, ctes)

def runFrom (db : Db m F τ) (run : Runner m F τ) (s : SelectStmt F) (table : TableRef F)
    (joins : List (Join F)) (ctes : CteContext) (outer : List OuterRow) (params : List (Value F))
    (txn : Option τ) : m (QueryResult × CteContext) := do
  let (primary, ctes) ← resolvePrimaryTable db run table s.where_ ctes outer params txn
  runQuery db run s table joins outer params txn primary ctes

def projectOnce (env : EvalEnv m F) (params : List (Value F)) :
    List (Projection F) → m (List (FieldDescription × Cell))
  | [] => pure []
  | .wildcard :: _ => throw .wildcardWithoutFrom
  | .wildcardTable _ :: _ => throw (.functionArguments "SELECT table.* requires a FROM clause")
  | .expr e name :: rest => do
    let v ← eval env { RowContext.empty with params } e
    let cells ← projectOnce env params rest
    pure ((⟨name.getD (inferColumnName e), v.typeOid⟩, v.toWireBytes) :: cells)

def cteSchema (cte : Cte F) (fields : List FieldDescription) : TableSchema :=
  if cte.columns.isEmpty then schemaFromFields cte.name fields
  else .plain cte.name cte.columns

/-- The recursive term until it adds nothing; `left` further rounds may add rows. -/
def recursiveRounds (run : CteContext → m (QueryResult × CteContext)) (name : String)
    (schema : TableSchema) : ℕ → List Row → List Row → CteContext → m (List Row × CteContext)
  | left, working, all, ctes => do
    let (step, ctes) ← run ((name, (working, schema)) :: ctes)
    if step.rows.isEmpty then pure (all, ctes)
    else match left with
      | 0 => throw (.recursionLimit name)
      | left + 1 => recursiveRounds run name schema left step.rows (all ++ step.rows) ctes

def materializeCte (run : Runner m F τ) (outer : List OuterRow) (params : List (Value F))
    (txn : Option τ) (ctes : CteContext) (cte : Cte F) : m CteContext :=
  match cte.recursive, cte.subquery.union with
  | true, some (_, recursiveTerm) => do
    let (base, ctes) ← run { cte.subquery with union := none } ctes outer params txn
    let schema := cteSchema cte base.fields
    let (all, ctes) ← recursiveRounds (fun ctes => run recursiveTerm ctes outer params txn)
      cte.name schema 10000 base.rows base.rows ctes
    pure ((cte.name, (all, schema)) :: ctes)
  | _, _ => do
    let (result, ctes) ← run cte.subquery ctes outer params txn
    pure ((cte.name, (result.rows, cteSchema cte result.fields)) :: ctes)

def selectStep (db : Db m F τ) (run : Runner m F τ) : Runner m F τ
  | s, ctes, outer, params, txn =>
    match s.union with
    | some (op, rhs) => do
      let (left, ctes) ← run { s with union := none } ctes outer params txn
      let (right, ctes) ← run rhs ctes outer params txn
      let rows := left.rows ++ right.rows
      pure (⟨left.fields, if op = .union then rows.reverse.dedup.reverse else rows⟩, ctes)
    | none => do
      let ctes ← s.ctes.foldlM (materializeCte run outer params txn) ctes
      match s.from_ with
      | none => do
        let cells ← projectOnce (evalEnv db run) params s.projections
        pure (⟨cells.map Prod.fst, [cells.map Prod.snd]⟩, ctes)
      | some (table, joins) => runFrom db run s table joins ctes outer params txn

/-- `execute_select_with_cte`. A query nested deeper than `depth` overflows the stack. -/
def executeSelect (db : Db m F τ) : ℕ → Runner m F τ
  | 0 => fun _ _ _ _ _ => throw .panic
  | depth + 1 => selectStep db (executeSelect db depth)

end Pipeline

end ExecutorSelect
