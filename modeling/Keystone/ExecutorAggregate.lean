import Keystone.ExecutorPlanner

/-! # Aggregates and window functions

Both replace rows by rows that carry results: a group keeps its first row, a window keeps every
row, and the results are found again under the text of their expression. The arguments of an
aggregate are evaluated on the bare row, without enclosing rows, parameters or table scopes. -/
namespace ExecutorAggregate

open DecimalText ExecutorEval ExecutorPlanner ExecutorValue RelationalJoins SqlAst
  StorageInternalKey

variable {F : Type}

section Render

variable [Scalars F]

def renderBool (b : Bool) : Bytes := if b then utf8 "true" else utf8 "false"

def renderLiteral (l : Literal F) : List Bytes :=
  match l.value.debugKey with
  | .int n => [utf8 "Int", printInt n]
  | .float f => [utf8 "Float", f]
  | .text s => [utf8 "Text", s]
  | .bool b => [utf8 "Bool", renderBool b]
  | .null => [utf8 "Null"]
  | .floatArray a => utf8 "FloatArray" :: printNat a.length :: a
  | .bytea b => [utf8 "Bytea", b]

def renderName (name : Option String) : List Bytes :=
  match name with
  | none => [utf8 "None"]
  | some name => [utf8 "Some", utf8 name]

def binOpName : BinOp → String
  | .add => "Add" | .sub => "Sub" | .mul => "Mul" | .div => "Div" | .mod => "Mod"
  | .eq => "Eq" | .notEq => "NotEq" | .lt => "Lt" | .lte => "Lte" | .gt => "Gt" | .gte => "Gte"
  | .and => "And" | .or => "Or" | .concat => "Concat"
  | .arrow => "Arrow" | .longArrow => "LongArrow" | .contains => "Contains"
  | .hashArrow => "HashArrow" | .hashLongArrow => "HashLongArrow"
  | .regexMatch => "RegexMatch" | .regexNotMatch => "RegexNotMatch"
  | .regexMatchCI => "RegexMatchCI" | .regexNotMatchCI => "RegexNotMatchCI"

def frameBoundName : FrameBoundType → String
  | .unboundedPreceding => "UnboundedPreceding"
  | .preceding => "Preceding"
  | .currentRow => "CurrentRow"
  | .following => "Following"
  | .unboundedFollowing => "UnboundedFollowing"

def frameTypeName : FrameType → Bytes
  | .rows => utf8 "Rows"
  | .range => utf8 "Range"
  | .groups => utf8 "Groups"

def joinTypeName : JoinType → String
  | .inner => "Inner" | .left => "Left" | .right => "Right" | .full => "Full" | .cross => "Cross"

mutual

/-- The `Debug` text as a sequence of tokens, each constructor with its name and each list with
its length. -/
def renderExpr : Expr F → List Bytes
  | .literal l => utf8 "Literal" :: renderLiteral l
  | .ident name => [utf8 "Ident", utf8 name]
  | .qualifiedIdent table col => [utf8 "QualifiedIdent", utf8 table, utf8 col]
  | .binaryOp op lhs rhs =>
    utf8 "BinaryOp" :: utf8 (binOpName op) :: (renderExpr lhs ++ renderExpr rhs)
  | .unaryOp op e => utf8 "UnaryOp" :: utf8 (if op = .neg then "Neg" else "Not") :: renderExpr e
  | .isNull e negated => utf8 "IsNull" :: renderBool negated :: renderExpr e
  | .isTrue e negated => utf8 "IsTrue" :: renderBool negated :: renderExpr e
  | .isFalse e negated => utf8 "IsFalse" :: renderBool negated :: renderExpr e
  | .between e low high negated =>
    utf8 "Between" :: renderBool negated :: (renderExpr e ++ renderExpr low ++ renderExpr high)
  | .like e pattern negated =>
    utf8 "Like" :: renderBool negated :: (renderExpr e ++ renderExpr pattern)
  | .inExprs e items negated =>
    utf8 "InExprs" :: renderBool negated :: (renderExpr e ++ renderExprs items)
  | .inSubquery e subquery negated =>
    utf8 "InSubquery" :: renderBool negated :: (renderExpr e ++ renderSelect subquery)
  | .exists subquery negated => utf8 "Exists" :: renderBool negated :: renderSelect subquery
  | .cast e type => utf8 "Cast" :: utf8 type :: renderExpr e
  | .function name args distinct =>
    utf8 "Function" :: utf8 name :: renderBool distinct :: renderExprs args
  | .case operand branches else_ =>
    utf8 "Case" :: (renderOption operand ++ renderBranches branches ++ renderOption else_)
  | .param n => [utf8 "Param", printNat n]
  | .subquery subquery => utf8 "Subquery" :: renderSelect subquery
  | .window func args partitionBy orderBy frame =>
    utf8 "Window" :: utf8 func :: (renderExprs args ++ renderExprs partitionBy ++
      renderOrder orderBy ++ renderFrame frame)

def renderExprs : List (Expr F) → List Bytes
  | [] => [utf8 "End"]
  | e :: es => utf8 "Item" :: (renderExpr e ++ renderExprs es)

def renderOption : Option (Expr F) → List Bytes
  | none => [utf8 "None"]
  | some e => utf8 "Some" :: renderExpr e

def renderBranches : List (Expr F × Expr F) → List Bytes
  | [] => [utf8 "End"]
  | (cond, result) :: rest =>
    utf8 "Item" :: (renderExpr cond ++ renderExpr result ++ renderBranches rest)

def renderOrder : List (OrderBy F) → List Bytes
  | [] => [utf8 "End"]
  | ⟨e, asc⟩ :: rest => utf8 "Item" :: renderBool asc :: (renderExpr e ++ renderOrder rest)

def renderFrame : Option (WindowFrame F) → List Bytes
  | none => [utf8 "None"]
  | some ⟨type, start, none⟩ => utf8 "From" :: frameTypeName type :: renderBound start
  | some ⟨type, start, some stop⟩ =>
    utf8 "Between" :: frameTypeName type :: (renderBound start ++ renderBound stop)

def renderBound : FrameBound F → List Bytes
  | ⟨type, offset⟩ => utf8 (frameBoundName type) :: renderOption offset

def renderCtes : List (Cte F) → List Bytes
  | [] => [utf8 "End"]
  | ⟨name, columns, subquery, recursive⟩ :: rest =>
    utf8 "Item" :: utf8 name :: renderBool recursive :: printNat columns.length ::
      (columns.map utf8 ++ renderSelect subquery ++ renderCtes rest)

def renderProjections : List (Projection F) → List Bytes
  | [] => [utf8 "End"]
  | .wildcard :: rest => utf8 "Wildcard" :: renderProjections rest
  | .wildcardTable table :: rest => utf8 "WildcardTable" :: utf8 table :: renderProjections rest
  | .expr e name :: rest =>
    utf8 "Expr" :: (renderExpr e ++ renderName name ++ renderProjections rest)

def renderTable : TableRef F → List Bytes
  | ⟨name, alias_, none, none⟩ => utf8 "Table" :: utf8 name :: renderName alias_
  | ⟨name, alias_, none, some args⟩ =>
    utf8 "Function" :: utf8 name :: (renderName alias_ ++ renderExprs args)
  | ⟨name, alias_, some subquery, none⟩ =>
    utf8 "Derived" :: utf8 name :: (renderName alias_ ++ renderSelect subquery)
  | ⟨name, alias_, some subquery, some args⟩ =>
    utf8 "Both" :: utf8 name :: (renderName alias_ ++ renderSelect subquery ++ renderExprs args)

def renderJoins : List (Join F) → List Bytes
  | [] => [utf8 "End"]
  | ⟨type, table, on⟩ :: rest =>
    utf8 "Item" :: utf8 (joinTypeName type) ::
      (renderTable table ++ renderOption on ++ renderJoins rest)

def renderSelect : SelectStmt F → List Bytes
  | ⟨ctes, distinct, projections, from_, where_, groupBy, having, orderBy, limit, offset, union⟩ =>
    renderBool distinct :: (renderCtes ctes ++ renderProjections projections ++ renderFrom from_ ++
      renderOption where_ ++ renderExprs groupBy ++ renderOption having ++ renderOrder orderBy ++
      renderOption limit ++ renderOption offset ++ renderUnion union)

def renderFrom : Option (TableRef F × List (Join F)) → List Bytes
  | none => [utf8 "None"]
  | some (table, joins) => utf8 "From" :: (renderTable table ++ renderJoins joins)

def renderUnion : Option (UnionOp × SelectStmt F) → List Bytes
  | none => [utf8 "None"]
  | some (op, rhs) =>
    utf8 (if op = .union then "Union" else "UnionAll") :: renderSelect rhs

end

end Render

mutual

/-- The outermost function and window calls that `hit` accepts. Queries are not entered. -/
def walk (hit : Expr F → Bool) : Expr F → List (Expr F)
  | .function name args distinct =>
    if hit (.function name args distinct) then [.function name args distinct]
    else walkList hit args
  | .window func args partitionBy orderBy frame =>
    if hit (.window func args partitionBy orderBy frame) then
      [.window func args partitionBy orderBy frame]
    else []
  | .binaryOp _ lhs rhs => walk hit lhs ++ walk hit rhs
  | .unaryOp _ e => walk hit e
  | .isNull e _ => walk hit e
  | .isTrue e _ => walk hit e
  | .isFalse e _ => walk hit e
  | .between e low high _ => walk hit e ++ walk hit low ++ walk hit high
  | .like e pattern _ => walk hit e ++ walk hit pattern
  | .inExprs e items _ => walk hit e ++ walkList hit items
  | .inSubquery e _ _ => walk hit e
  | .cast e _ => walk hit e
  | .case operand branches else_ =>
    walkOption hit operand ++ walkBranches hit branches ++ walkOption hit else_
  | _ => []

def walkList (hit : Expr F → Bool) : List (Expr F) → List (Expr F)
  | [] => []
  | e :: es => walk hit e ++ walkList hit es

def walkOption (hit : Expr F → Bool) : Option (Expr F) → List (Expr F)
  | none => []
  | some e => walk hit e

def walkBranches (hit : Expr F → Bool) : List (Expr F × Expr F) → List (Expr F)
  | [] => []
  | (cond, result) :: rest => walk hit cond ++ walk hit result ++ walkBranches hit rest

end

def collectAggregateExprs [Scalars F] (e : Expr F) : List (Expr F) :=
  walk (fun
    | .function name _ _ => isAggregateName F name
    | _ => false) e

def collectWindowExprs (e : Expr F) : List (Expr F) :=
  walk (fun
    | .window _ _ _ _ _ => true
    | _ => false) e

def containsAggregate [Scalars F] (e : Expr F) : Bool := !(collectAggregateExprs e).isEmpty

def projectionExprs (projections : List (Projection F)) : List (Expr F) :=
  projections.filterMap fun
    | .expr e _ => some e
    | _ => none

def isAggregateQuery [Scalars F] (s : SelectStmt F) : Bool :=
  !s.groupBy.isEmpty || (projectionExprs s.projections).any containsAggregate ||
    s.having.any containsAggregate

section Aggregates

variable [Scalars F] {m : Type → Type} [Monad m] [MonadExceptOf EvalError m]

def aggregateValues (env : EvalEnv m F) (schema : Option TableSchema) (arg : Expr F)
    (distinct : Bool) : List Row → List (Value Bytes) → m (List (Value F))
  | [], _ => pure []
  | row :: rows, seen => do
    let v ← eval env (RowContext.new row schema) arg
    if v matches .null then aggregateValues env schema arg distinct rows seen
    else if distinct && seen.contains v.debugKey then
      aggregateValues env schema arg distinct rows seen
    else do
      let vs ← aggregateValues env schema arg distinct rows (v.debugKey :: seen)
      pure (v :: vs)

/-- `int_sum` runs along even when the sum is a float. -/
def sumFrom : List (Value F) → Bool → ℤ → F → Except EvalError (Value F)
  | [], isFloat, n, f => .ok (if isFloat then .float f else .int n)
  | .int k :: vs, isFloat, n, f =>
    if InRange 64 (n + k) then sumFrom vs isFloat (n + k) (Scalars.add f (Scalars.ofInt k))
    else .error .panic
  | .float g :: vs, _, n, f => sumFrom vs true n (Scalars.add f g)
  | _ :: _, _, _, _ => .error (.functionArguments "sum() requires numeric argument")

def totalFrom : List (Value F) → F → Except EvalError F
  | [], total => .ok total
  | .int k :: vs, total => totalFrom vs (Scalars.add total (Scalars.ofInt k))
  | .float g :: vs, total => totalFrom vs (Scalars.add total g)
  | _ :: _, _ => .error (.functionArguments "avg() requires numeric argument")

def bestValue (better : Ordering) (vs : List (Value F)) : Value F :=
  (vs.foldl (fun best v => match best with
    | none => some v
    | some b => some (if compareIs (· = better) v b then v else b)) none).getD .null

def reduceAggregate (name : Bytes) (vs : List (Value F)) : Except EvalError (Value F) :=
  if name = utf8 "sum" then
    if vs.isEmpty then .ok .null else sumFrom vs false 0 (Scalars.ofInt 0)
  else if name = utf8 "avg" then
    if vs.isEmpty then .ok .null
    else do
      let total ← totalFrom vs (Scalars.ofInt 0)
      .ok (.float (Scalars.div total (Scalars.ofInt vs.length)))
  else if name = utf8 "min" then .ok (bestValue .lt vs)
  else if name = utf8 "max" then .ok (bestValue .gt vs)
  else .error (.other (utf8 "unknown aggregate function \"" ++ name ++ utf8 "\""))

def evalAggregate (env : EvalEnv m F) (name : Bytes) (arg : Option (Expr F)) (distinct : Bool)
    (rows : List Row) (schema : Option TableSchema) : m (Value F) :=
  if name = utf8 "count" then
    match arg with
    | none => pure (.int rows.length)
    | some (.ident "*") => pure (.int rows.length)
    | some arg => do
      let vs ← aggregateValues env schema arg distinct rows []
      pure (.int vs.length)
  else
    match arg with
    | none => throw (.other (name ++ utf8 "() requires an argument"))
    | some arg => do
      let vs ← aggregateValues env schema arg distinct rows []
      ofResult (reduceAggregate name vs)

abbrev Computed (F : Type) := List (List Bytes × Value F)

def Computed.find (c : Computed F) (e : Expr F) : Option (Value F) := c.lookup (renderExpr e)

def computeAggregates (env : EvalEnv m F) (schema : Option TableSchema) (rows : List Row) :
    List (Expr F) → Computed F → m (Computed F)
  | [], computed => pure computed
  | .function name args distinct :: es, computed =>
    if (computed.find (.function name args distinct)).isSome then
      computeAggregates env schema rows es computed
    else do
      let v ← evalAggregate env (Scalars.lower F (utf8 name)) args.head? distinct rows schema
      computeAggregates env schema rows es
        ((renderExpr (.function name args distinct), v) :: computed)
  | _ :: es, computed => computeAggregates env schema rows es computed

def groupRows (env : EvalEnv m F) (groupBy : List (Expr F)) :
    List (RowContext F) → Buckets (List (Value Bytes)) (RowContext F) →
      m (Buckets (List (Value Bytes)) (RowContext F))
  | [], groups => pure groups
  | ctx :: rows, groups => do
    let key ← groupBy.mapM (eval env ctx)
    groupRows env groupBy rows (groups.push (key.map Value.debugKey) ctx)

/-- The first row of a group; an empty group has a row of NULLs without surroundings. -/
def representative (members : List (RowContext F)) (schema : Option TableSchema) : RowContext F :=
  members.head?.getD (RowContext.new (ExecutorJoin.nulls (columnsOf schema).length) schema)

def collapseGroups (env : EvalEnv m F) (schema : Option TableSchema) (aggregates : List (Expr F))
    (having : Option (Expr F)) : List (List (RowContext F)) → m (List (RowContext F))
  | [] => pure []
  | members :: groups => do
    let computed ← computeAggregates env schema (members.map RowContext.values) aggregates []
    let ctx := { representative members schema with computed := computed.find }
    match having with
    | none => do
      let rest ← collapseGroups env schema aggregates having groups
      pure (ctx :: rest)
    | some h => do
      let keep ← eval env ctx h
      let rest ← collapseGroups env schema aggregates having groups
      pure (if keep.isTruthy then ctx :: rest else rest)

def executeAggregation (env : EvalEnv m F) (s : SelectStmt F) (rows : List (RowContext F))
    (schema : Option TableSchema) : m (List (RowContext F)) := do
  let groups ← if s.groupBy.isEmpty then pure [rows]
    else do
      let groups ← groupRows env s.groupBy rows []
      pure (groups.map Prod.snd)
  let aggregates := (projectionExprs s.projections ++ s.having.toList).flatMap collectAggregateExprs
  collapseGroups env schema aggregates s.having groups

end Aggregates

section Windows

variable [Scalars F] {m : Type → Type} [Monad m] [MonadExceptOf EvalError m]

def evalOrNull (env : EvalEnv m F) (ctx : RowContext F) (e : Expr F) : m (Value F) :=
  tryCatch (eval env ctx e) fun _ => pure .null

def compareKeys : List Bool → List (Value F) → List (Value F) → Ordering
  | asc :: ascs, x :: xs, y :: ys =>
    match valueCompare x y with
    | .ok .lt => if asc then .lt else .gt
    | .ok .gt => if asc then .gt else .lt
    | _ => compareKeys ascs xs ys
  | _, _, _ => .eq

def sameKeys (xs ys : List (Value F)) : Bool :=
  (xs.zip ys).all fun (x, y) => compareIs (· = .eq) x y

structure WindowRow (F : Type) where
  index : ℕ
  ctx : RowContext F
  partition : List (Value F)
  order : List (Value F)

def lastPeer (part : List (WindowRow F)) (pos : ℕ) : ℕ :=
  match part.drop pos with
  | [] => pos
  | w :: rest => pos + peers w rest
where
  peers (w : WindowRow F) : List (WindowRow F) → ℕ
    | [] => 0
    | w' :: rest => if sameKeys w.order w'.order then peers w' rest + 1 else 0

def ranks : List (WindowRow F) → ℕ → ℕ × ℕ → ℕ × ℕ
  | w :: w' :: rest, k, (rank, dense) =>
    ranks (w' :: rest) (k + 1)
      (if sameKeys w.order w'.order then (rank, dense) else (k + 1, dense + 1))
  | _, _, r => r

def frameOffsetInt (offset : Option (Expr F)) : Except EvalError ℤ :=
  match offset with
  | none => .ok 0
  | some e => do
    let v ← evalConstant e
    .ok ((boundOf v).getD 0)

def frameBoundOffset (bound : FrameBound F) (pos len : ℕ) : Except EvalError ℤ :=
  match bound.boundType with
  | .unboundedPreceding => .ok (-pos)
  | .unboundedFollowing => .ok (len - 1 - pos)
  | .currentRow => .ok 0
  | .preceding => do
    let n ← frameOffsetInt bound.offset
    .ok (-n)
  | .following => frameOffsetInt bound.offset

def clampTo (len : ℕ) (n : ℤ) : ℕ := (max 0 (min n (len - 1))).toNat

def resolveFrameBounds (frame : Option (WindowFrame F)) (ordered : Bool) (part : List (WindowRow F))
    (pos : ℕ) : Except EvalError (ℕ × ℕ) :=
  match frame with
  | none => .ok (if ordered then (0, lastPeer part pos + 1) else (0, part.length))
  | some f => do
    let start ← frameBoundOffset f.start pos part.length
    let stop ← match f.stop with
      | some b => frameBoundOffset b pos part.length
      | none => .ok 0
    let a := clampTo part.length (pos + start)
    let b := clampTo part.length (pos + stop)
    .ok (min a b, max a b + 1)

def nearest (env : EvalEnv m F) (arg : Expr F) : List (WindowRow F) → ℕ → m (Option (ℕ × F))
  | [], _ => pure none
  | w :: rest, k => do
    let v ← evalOrNull env w.ctx arg
    match v.asF64 with
    | .ok f => pure (some (k, f))
    | .error _ => nearest env arg rest (k + 1)

def interpolated (before after : Option (ℕ × F)) : Value F :=
  match before, after with
  | some (bk, bv), some (ak, av) =>
    let frac := Scalars.div (Scalars.ofInt (bk : ℤ)) (Scalars.ofInt ((bk + ak : ℕ) : ℤ))
    .float (Scalars.add bv (Scalars.mul (Scalars.sub av bv) frac))
  | some (_, bv), none => .float bv
  | none, some (_, av) => .float av
  | none, none => .null

def intArg (env : EvalEnv m F) (ctx : RowContext F) (e : Expr F) : m (Option ℤ) := do
  let v ← eval env ctx e
  pure (boundOf v)

def offsetArg (env : EvalEnv m F) (ctx : RowContext F) (e : Option (Expr F)) : m ℤ :=
  match e with
  | none => pure 1
  | some e => do
    let n ← intArg env ctx e
    pure (n.getD 1)

def shiftedValue (env : EvalEnv m F) (arg : Expr F) (default : Option (Expr F))
    (part : List (WindowRow F)) (w : WindowRow F) (target : ℤ) : m (Value F) :=
  match (if target < 0 then none else part[target.toNat]?) with
  | some w' => eval env w'.ctx arg
  | none => match default with
    | some d => eval env w.ctx d
    | none => pure .null

def computeWindowValue (env : EvalEnv m F) (func : Bytes) (args : List (Expr F))
    (frame : Option (WindowFrame F)) (ordered : Bool) (part : List (WindowRow F)) (pos : ℕ)
    (w : WindowRow F) : m (Value F) :=
  let frameRows lo hi := ((part.drop lo).take (hi - lo)).map fun w => w.ctx.values
  if func = utf8 "row_number" then pure (.int (pos + 1))
  else if func = utf8 "rank" ∨ func = utf8 "dense_rank" then
    if !ordered then pure (.int 1)
    else
      let (rank, dense) := ranks (part.take (pos + 1)) 1 (1, 1)
      pure (.int (if func = utf8 "rank" then rank else dense))
  else if func = utf8 "ntile" then
    match args.head? with
    | none => throw (.windowFunction "ntile() requires an argument")
    | some e => do
      match ← intArg env w.ctx e with
      | none => throw (.windowFunction "ntile() requires an integer argument")
      | some n =>
        if n ≤ 0 then throw (.windowFunction "ntile() argument must be positive")
        else pure (.int (min ((pos : ℤ) * n / (max part.length 1 : ℕ) + 1) n))
  else if func = utf8 "lag" ∨ func = utf8 "lead" then
    match args with
    | [] => throw (.other (func ++ utf8 "() requires an argument"))
    | arg :: more => do
      let offset ← offsetArg env w.ctx more.head?
      shiftedValue env arg more[1]? part w
        (if func = utf8 "lag" then pos - offset else pos + offset)
  else if ["sum", "avg", "count", "min", "max"].any fun a => utf8 a = func then do
    let (lo, hi) ← ofResult (resolveFrameBounds frame ordered part pos)
    evalAggregate env func args.head? false (frameRows lo hi) w.ctx.schema
  else if func = utf8 "interpolate" then
    match args.head? with
    | none => throw (.windowFunction "interpolate() requires 1 argument")
    | some arg => do
      let current ← eval env w.ctx arg
      if current matches .null then do
        let before ← nearest env arg (part.take pos).reverse 1
        let after ← nearest env arg (part.drop (pos + 1)) 1
        pure (interpolated before after)
      else pure current
  else if func = utf8 "moving_average" then
    match args with
    | value :: size :: _ => do
      match ← intArg env w.ctx size with
      | none => throw (.windowFunction "moving_average() window_size must be an integer")
      | some n =>
        evalAggregate env (utf8 "avg") (some value) false
          (frameRows (pos - ((max n 1).toNat - 1)) (pos + 1)) w.ctx.schema
    | _ => throw (.windowFunction "moving_average() requires 2 arguments (value, window_size)")
  else throw (.other (utf8 "window function \"" ++ func ++ utf8 "\" is not supported"))

def windowRows (env : EvalEnv m F) (partitionBy orderBy : List (Expr F)) :
    List (RowContext F) → ℕ → m (List (WindowRow F))
  | [], _ => pure []
  | ctx :: rows, i => do
    let partition ← partitionBy.mapM (evalOrNull env ctx)
    let order ← orderBy.mapM (evalOrNull env ctx)
    let rest ← windowRows env partitionBy orderBy rows (i + 1)
    pure (⟨i, ctx, partition, order⟩ :: rest)

def sortWindow (ascs : List Bool) (rows : List (WindowRow F)) : List (WindowRow F) :=
  rows.insertionSort fun a b =>
    (compareKeys (a.partition.map fun _ => true) a.partition b.partition).then
      (compareKeys ascs a.order b.order) ≠ .gt

def partitionValues (env : EvalEnv m F) (func : Bytes) (args : List (Expr F))
    (frame : Option (WindowFrame F)) (ordered : Bool) (part : List (WindowRow F)) :
    List (WindowRow F) → ℕ → m (List (ℕ × Value F))
  | [], _ => pure []
  | w :: rest, pos => do
    let v ← computeWindowValue env func args frame ordered part pos w
    let vs ← partitionValues env func args frame ordered part rest (pos + 1)
    pure ((w.index, v) :: vs)

def windowValues (env : EvalEnv m F) (rows : List (RowContext F)) :
    Expr F → m (List (ℕ × Value F))
  | .window func args partitionBy orderBy frame => do
    let entries ← windowRows env partitionBy (orderBy.map OrderBy.expr) rows 0
    let sorted := sortWindow (orderBy.map OrderBy.asc) entries
    let parts := sorted.splitBy fun a b => sameKeys a.partition b.partition
    let values ← parts.mapM fun part =>
      partitionValues env (Scalars.lower F (utf8 func)) args frame (!orderBy.isEmpty) part part 0
    pure values.flatten
  | _ => pure []

def applyWindowFunctions (env : EvalEnv m F) (s : SelectStmt F) (rows : List (RowContext F)) :
    m (List (RowContext F)) :=
  let windows := (projectionExprs s.projections ++ s.orderBy.map OrderBy.expr).flatMap
    collectWindowExprs
  if windows.isEmpty || rows.isEmpty then pure rows
  else do
    let values ← windows.mapM fun win => do
      let vs ← windowValues env rows win
      pure (renderExpr win, vs)
    pure (rows.zipIdx.map fun (ctx, i) =>
      let found : Computed F := values.filterMap fun (key, vs) =>
        (vs.lookup i).map fun v => (key, v)
      { ctx with computed := fun e => (Computed.find found e).or (ctx.computed e) })

end Windows

end ExecutorAggregate
