import Keystone.EffectPredicates
import Keystone.FallibleLists
import Keystone.SqlAst

/-! # Expression evaluation

A column reference is resolved through the table scopes of the row, then by the first column of that
name, then in the enclosing rows. The evaluator runs in any monad with errors. -/
namespace ExecutorEval

open DecimalText EffectPredicates ExecutorValue FallibleLists List SqlAst StorageInternalKey

variable {F : Type}

structure Scope where
  table : String
  start : ℕ
  stop : ℕ
  deriving DecidableEq

structure OuterRow where
  schema : Option TableSchema
  values : Row
  tableScopes : List Scope
  deriving DecidableEq

/-- A row with what an expression may refer to. `computed` holds the aggregate and window
results of a group or row, by the expression they belong to. -/
structure RowContext (F : Type) where
  values : Row
  schema : Option TableSchema
  outer : List OuterRow
  params : List (Value F)
  computed : Expr F → Option (Value F)
  tableScopes : List Scope

namespace RowContext

def empty : RowContext F := ⟨[], none, [], [], fun _ => none, []⟩

def new (values : Row) (schema : Option TableSchema) : RowContext F :=
  { empty with values, schema }

def asOuterRow (ctx : RowContext F) : OuterRow := ⟨ctx.schema, ctx.values, ctx.tableScopes⟩

def outerChainForSubquery (ctx : RowContext F) : List OuterRow := ctx.outer ++ [ctx.asOuterRow]

end RowContext

def findScope (scopes : List Scope) (qualifier : String) : Option Scope :=
  scopes.find? fun s => s.table = qualifier

def indexInScope (columns : List ColumnDef) (scope : Scope) (name : String) : Option ℕ :=
  if scope.start ≤ scope.stop ∧ scope.stop ≤ columns.length then
    (((columns.drop scope.start).take (scope.stop - scope.start)).findIdx?
      fun c => c.name = name).map (scope.start + ·)
  else none

def cellAt (values : Row) (i : ℕ) : Cell := (values[i]?).join

def qualifiedIndex (schema : Option TableSchema) (scopes : List Scope) (qualifier name : String) :
    Option ℕ := do
  let scope ← findScope scopes qualifier
  let schema ← schema
  indexInScope schema.columns scope name

def bareIndex (schema : Option TableSchema) (name : String) : Option ℕ := do
  let schema ← schema
  schema.columnIndex name

abbrev ColumnRef := Option String × String

def resolvedIndex (schema : Option TableSchema) (scopes : List Scope)
    (ref : ColumnRef) : Option ℕ :=
  (ref.1.bind fun q => qualifiedIndex schema scopes q ref.2).or (bareIndex schema ref.2)

theorem bareIndex_lt (h : bareIndex schema name = some i) : i < (columnsOf schema).length := by
  cases schema with
  | none => cases h
  | some s =>
    have h' : s.columns.findIdx? (fun c => c.name = name) = some i := h
    exact (findIdx?_eq_some_iff_findIdx_eq.mp h').1

theorem resolvedIndex_bare : resolvedIndex schema [] ref = bareIndex schema ref.2 := by
  obtain ⟨_ | q, name⟩ := ref <;> rfl

section Columns

variable [Scalars F]

def resolveQualified (ctx : RowContext F) (qualifier name : String) : Option Cell :=
  match qualifiedIndex ctx.schema ctx.tableScopes qualifier name with
  | some i => some (cellAt ctx.values i)
  | none => ctx.outer.reverse.findSome? fun o =>
      (qualifiedIndex o.schema o.tableScopes qualifier name).map (cellAt o.values)

def resolveBare (ctx : RowContext F) (name : String) : Option Cell :=
  match bareIndex ctx.schema name with
  | some i => some (cellAt ctx.values i)
  | none => ctx.outer.reverse.findSome? fun o => (bareIndex o.schema name).map (cellAt o.values)

/-- A qualifier that leads nowhere is ignored. -/
def resolveCell (ctx : RowContext F) (qualifier : Option String) (name : String) : Option Cell :=
  (qualifier.bind fun q => resolveQualified ctx q name).or (resolveBare ctx name)

def resolveColumn (ctx : RowContext F) (qualifier : Option String) (name : String) :
    Except EvalError (Value F) :=
  match resolveCell ctx qualifier name with
  | some cell => .ok (.fromBytes cell)
  | none => .error (.columnMissing name (ctx.schema.isNone && ctx.outer.isEmpty))

/-- Without an enclosing query a reference is an index into the row. -/
theorem resolveCell_of_outer_nil (h : c.outer = []) : resolveCell c ref.1 ref.2 =
      (resolvedIndex c.schema c.tableScopes ref).map (cellAt c.values) := by
  obtain ⟨q, name⟩ := ref
  have bare : resolveBare c name = (bareIndex c.schema name).map (cellAt c.values) := by
    unfold resolveBare
    cases bareIndex c.schema name <;> simp [h]
  have qualified q : resolveQualified c q name =
      (qualifiedIndex c.schema c.tableScopes q name).map (cellAt c.values) := by
    unfold resolveQualified
    cases qualifiedIndex c.schema c.tableScopes q name <;> simp [h]
  cases q with
  | none => simp [resolveCell, resolvedIndex, bare]
  | some q =>
    simp only [resolveCell, resolvedIndex, Option.bind_some, bare, qualified]
    cases qualifiedIndex c.schema c.tableScopes q name <;> simp

theorem resolveColumn_of_index {c : RowContext F} (h : c.outer = []) {i : ℕ}
    (hi : resolvedIndex c.schema c.tableScopes ref = some i) :
    resolveColumn c ref.1 ref.2 = .ok (.fromBytes (cellAt c.values i)) := by
  simp [resolveColumn, resolveCell_of_outer_nil h, hi]

def resolveParam (ctx : RowContext F) (n : ℕ) : Except EvalError (Value F) :=
  if n = 0 then .error (.invalidParameter n)
  else match ctx.params[n - 1]? with
    | some v => .ok v
    | none => .error (.unboundParameter n)

end Columns

def intervalUnits : List (List String × ℤ) :=
  [(["ms", "millisecond"], 1),
   (["s", "sec", "second"], 1000),
   (["m", "min", "minute"], 60000),
   (["h", "hr", "hour"], 3600000),
   (["d", "day"], 86400000),
   (["w", "week"], 7 * 86400000),
   (["mon", "month"], 30 * 86400000)]

def asciiLower (bytes : Bytes) : Bytes :=
  bytes.map fun b => if 65 ≤ b ∧ b ≤ 90 then b + 32 else b

def eqIgnoreAsciiCase (a b : Bytes) : Bool := asciiLower a = asciiLower b

/-- A plural loses every trailing `s`, and so does `ms`. -/
def intervalUnit (unit : Bytes) : Option ℤ :=
  let unit := asciiLower ((trim unit).reverse.dropWhile (· = 115)).reverse
  (intervalUnits.find? fun u => u.1.any fun name => utf8 name = unit).map Prod.snd

/-- Digits and a unit. The product is not checked: one that does not fit panics. -/
def parseInterval (text : Bytes) : Option (Except EvalError ℤ) :=
  let text := trim text
  let number := text.takeWhile isDigit
  if number.length = text.length then none
  else do
    let n ← parseBits 64 (trim number)
    let unit ← intervalUnit (text.drop number.length)
    some (if InRange 64 (n * unit) then .ok (n * unit) else .error .panic)

/-- `ts.div_euclid(interval) * interval`. -/
def timeBucket (interval ts : ℤ) : Except EvalError ℤ :=
  if interval = 0 ∨ ¬ InRange 64 (ts / interval) ∨ ¬ InRange 64 (ts / interval * interval) then
    .error .panic
  else .ok (ts / interval * interval)

section Functions

variable [Scalars F] {m : Type → Type} [Monad m] [MonadExceptOf EvalError m]

def ofResult {α : Type} : Except EvalError α → m α
  | .ok a => pure a
  | .error e => throw e

@[simp] theorem ofResult_except : (ofResult r : Except EvalError α) = r := by
  cases r <;> rfl

def runPlan (args : List (m (Value F))) : Plan F → m (Value F)
  | .done result => ofResult result
  | .arg i rest =>
    match args[i]? with
    | none => throw .panic
    | some arg => do
      let v ← arg
      runPlan args (rest v)

def coalesce : List (m (Value F)) → m (Value F)
  | [] => pure .null
  | arg :: args => do
    let v ← arg
    if v matches .null then coalesce args else pure v

/-- `greatest` and `least`: a later argument wins only if it compares strictly better. -/
def bestOf (better : Ordering) : List (m (Value F)) → Option (Value F) → m (Value F)
  | [], best => pure (best.getD .null)
  | arg :: args, best => do
    let v ← arg
    if v matches .null then bestOf better args best
    else match best with
      | none => bestOf better args (some v)
      | some b => bestOf better args (some (if compareIs (· = better) v b then v else b))

def evalIntervalArg (v : Value F) : Except EvalError ℤ :=
  match v with
  | .text s => match parseInterval s with
    | some r => r
    | none => .error (.other
        (utf8 "time_bucket(): invalid interval literal \"" ++ s ++ utf8 "\""))
  | v => .error (.functionArguments
      ("time_bucket(): expected an interval string literal, got " ++ v.typeName))

def evalTimestampArg (v : Value F) : Except EvalError ℤ :=
  match v with
  | .int n => .ok n
  | .float f => .ok (Scalars.toInt f)
  | v => .error (.functionArguments
      ("time_bucket(): expected a timestamp (unix-ms integer), got " ++ v.typeName))

def modValues (a b : Value F) : Except EvalError (Value F) :=
  match a, b with
  | .int _, .int 0 => .error .divisionByZero
  | .int a, .int b => unchecked (a.tmod b) (a.tdiv b)
  | a, b => do
    let a ← a.asF64
    let b ← b.asF64
    if Scalars.partialCmp b (Scalars.ofInt 0) = some .eq then .error .divisionByZero
    else .ok (.float (Scalars.rem a b))

def absValue : Value F → Except EvalError (Value F)
  | .int n => if InRange 64 |n| then .ok (.int |n|) else .error .panic
  | .float f => .ok (.float (Scalars.abs f))
  | _ => .error (.functionArguments "abs() requires numeric argument")

def normalizeFunction (F : Type) [Scalars F] (name : String) : Bytes :=
  let raw := Scalars.lower F (utf8 name)
  if (utf8 "pg_catalog.").isPrefixOf raw then raw.drop (utf8 "pg_catalog.").length else raw

/-- `call` is what the database adds: sequences, the catalog and user functions. -/
def evalFunction (call : Bytes → List (m (Value F)) → m (Value F)) (name : String)
    (args : List (m (Value F))) : m (Value F) :=
  let norm := normalizeFunction F name
  if norm = utf8 "coalesce" then coalesce args
  else if norm = utf8 "greatest" then bestOf .gt args none
  else if norm = utf8 "least" then bestOf .lt args none
  else if norm = utf8 "nullif" then
    match args with
    | [a, b] => do
      let a ← a
      let b ← b
      pure (if compareIs (· = .eq) a b then .null else a)
    | _ => throw (.functionArguments "nullif() requires exactly 2 arguments")
  else if norm = utf8 "mod" then
    match args with
    | [a, b] => do
      let a ← a
      let b ← b
      ofResult (modValues a b)
    | _ => throw (.functionArguments "mod() requires 2 arguments")
  else if norm = utf8 "abs" then
    match args with
    | a :: _ => do
      let a ← a
      ofResult (absValue a)
    | [] => throw (.functionArguments "abs() requires 1 argument")
  else if norm = utf8 "time_bucket" then
    match args with
    | [interval, ts] => do
      let interval ← interval
      let interval ← ofResult (evalIntervalArg interval)
      let ts ← ts
      let ts ← ofResult (evalTimestampArg ts)
      let bucket ← ofResult (timeBucket interval ts)
      pure (.int bucket)
    | _ => throw (.functionArguments "time_bucket() requires 2 arguments (interval, timestamp)")
  else match Scalars.builtin (F := F) norm args.length with
    | some plan => runPlan args plan
    | none => call norm args

def isAggregateName (F : Type) [Scalars F] (name : String) : Bool :=
  ["count", "sum", "avg", "min", "max"].any fun a => utf8 a = Scalars.lower F (utf8 name)

end Functions

structure EvalEnv (m : Type → Type) (F : Type) where
  runSubquery : SelectStmt F → RowContext F → m (List Row)
  call : Bytes → List (m (Value F)) → m (Value F)

section Eval

variable [Scalars F] {m : Type → Type} [Monad m] [MonadExceptOf EvalError m]

def negateIf (negated b : Bool) : Value F := .bool (if negated then !b else b)

def firstCell (rows : List Row) : Option Cell := rows.head?.bind List.head?

mutual

def eval (env : EvalEnv m F) (ctx : RowContext F) : Expr F → m (Value F)
  | .literal l => pure l.value
  | .ident name => ofResult (resolveColumn ctx none name)
  | .qualifiedIdent table col => ofResult (resolveColumn ctx (some table) col)
  | .param n => ofResult (resolveParam ctx n)
  | .unaryOp op e => do
    let v ← eval env ctx e
    ofResult (evalUnop op v)
  | .binaryOp op lhs rhs =>
    match op with
    | .and => do
      let l ← eval env ctx lhs
      if !l.isTruthy then pure (.bool false)
      else
        let r ← eval env ctx rhs
        pure (.bool r.isTruthy)
    | .or => do
      let l ← eval env ctx lhs
      if l.isTruthy then pure (.bool true)
      else
        let r ← eval env ctx rhs
        pure (.bool r.isTruthy)
    | op => do
      let l ← eval env ctx lhs
      let r ← eval env ctx rhs
      ofResult (evalBinop op l r)
  | .isNull e negated => do
    let v ← eval env ctx e
    pure (negateIf negated (v matches .null))
  | .isTrue e negated => do
    let v ← eval env ctx e
    pure (negateIf negated (v matches .bool true))
  | .isFalse e negated => do
    let v ← eval env ctx e
    pure (negateIf negated (v matches .bool false))
  | .between e low high negated => do
    let v ← eval env ctx e
    let lo ← eval env ctx low
    let hi ← eval env ctx high
    let above ← ofResult (valueCompare v lo)
    -- the upper bound is only compared if the lower one holds
    if above = .lt then pure (negateIf negated false)
    else
      let below ← ofResult (valueCompare v hi)
      pure (negateIf negated (below ≠ .gt))
  | .like e pattern negated => do
    let v ← eval env ctx e
    let p ← eval env ctx pattern
    match v, p with
    | .text s, .text p => pure (negateIf negated (likeMatch s p))
    | _, _ => throw .likeOperands
  | .inExprs e items negated => do
    let v ← eval env ctx e
    let found ← evalMember env ctx v items
    pure (negateIf negated found)
  | .inSubquery e subquery negated => do
    let v ← eval env ctx e
    let rows ← env.runSubquery subquery ctx
    let found : Bool := rows.any fun row => match row.head? with
      | some cell => compareIs (· = .eq) v (.fromBytes cell)
      | none => false
    pure (negateIf negated found)
  | .exists subquery negated => do
    let rows ← env.runSubquery subquery ctx
    pure (negateIf negated (!rows.isEmpty))
  | .cast e type => do
    let v ← eval env ctx e
    ofResult (castValue v type)
  | .function name args distinct =>
    match ctx.computed (.function name args distinct) with
    | some v => pure v
    | none =>
      if isAggregateName F name then throw (.aggregateNotAllowed name)
      else evalFunction env.call name (evalArgs env ctx args)
  | .case operand branches else_ => do
    let base ← evalOption env ctx operand
    let taken ← evalBranches env ctx base branches
    match taken with
    | some v => pure v
    | none =>
      let v ← evalOption env ctx else_
      pure (v.getD .null)
  | .subquery subquery => do
    let rows ← env.runSubquery subquery ctx
    pure (match firstCell rows with
      | some cell => .fromBytes cell
      | none => .null)
  | .window func args partitionBy orderBy frame =>
    match ctx.computed (.window func args partitionBy orderBy frame) with
    | some v => pure v
    | none => evalFunction env.call func (evalArgs env ctx args)

def evalArgs (env : EvalEnv m F) (ctx : RowContext F) : List (Expr F) → List (m (Value F))
  | [] => []
  | e :: es => eval env ctx e :: evalArgs env ctx es

/-- `IN`: the items after a match are not evaluated. -/
def evalMember (env : EvalEnv m F) (ctx : RowContext F) (v : Value F) : List (Expr F) → m Bool
  | [] => pure false
  | e :: es => do
    let item ← eval env ctx e
    if compareIs (· = .eq) v item then pure true else evalMember env ctx v es

def evalOption (env : EvalEnv m F) (ctx : RowContext F) : Option (Expr F) → m (Option (Value F))
  | none => pure none
  | some e => do
    let v ← eval env ctx e
    pure (some v)

def evalBranches (env : EvalEnv m F) (ctx : RowContext F) (base : Option (Value F)) :
    List (Expr F × Expr F) → m (Option (Value F))
  | [] => pure none
  | (cond, result) :: rest => do
    let c ← eval env ctx cond
    let taken : Bool := match base with
      | some b => compareIs (· = .eq) b c
      | none => c.isTruthy
    if taken then
      let v ← eval env ctx result
      pure (some v)
    else evalBranches env ctx base rest

end

end Eval

section Collect

variable {α : Type}

mutual

def collect (leaf : Expr F → List α) : Expr F → List α
  | .literal l => leaf (.literal l)
  | .ident name => leaf (.ident name)
  | .qualifiedIdent table col => leaf (.qualifiedIdent table col)
  | .param n => leaf (.param n)
  | .unaryOp op e => leaf (.unaryOp op e) ++ collect leaf e
  | .binaryOp op lhs rhs => leaf (.binaryOp op lhs rhs) ++ collect leaf lhs ++ collect leaf rhs
  | .isNull e negated => leaf (.isNull e negated) ++ collect leaf e
  | .isTrue e negated => leaf (.isTrue e negated) ++ collect leaf e
  | .isFalse e negated => leaf (.isFalse e negated) ++ collect leaf e
  | .between e low high negated =>
    leaf (.between e low high negated) ++ collect leaf e ++ collect leaf low ++ collect leaf high
  | .like e pattern negated =>
    leaf (.like e pattern negated) ++ collect leaf e ++ collect leaf pattern
  | .inExprs e items negated =>
    leaf (.inExprs e items negated) ++ collect leaf e ++ collectList leaf items
  | .inSubquery e subquery negated => leaf (.inSubquery e subquery negated) ++ collect leaf e
  | .exists subquery negated => leaf (.exists subquery negated)
  | .cast e type => leaf (.cast e type) ++ collect leaf e
  | .function name args distinct => leaf (.function name args distinct) ++ collectList leaf args
  | .case operand branches else_ =>
    leaf (.case operand branches else_) ++ collectOption leaf operand ++
      collectBranches leaf branches ++ collectOption leaf else_
  | .subquery subquery => leaf (.subquery subquery)
  | .window func args partitionBy orderBy frame =>
    leaf (.window func args partitionBy orderBy frame) ++ collectList leaf args ++
      collectList leaf partitionBy ++ collectOrder leaf orderBy ++ collectFrame leaf frame

def collectList (leaf : Expr F → List α) : List (Expr F) → List α
  | [] => []
  | e :: es => collect leaf e ++ collectList leaf es

def collectOption (leaf : Expr F → List α) : Option (Expr F) → List α
  | none => []
  | some e => collect leaf e

def collectBranches (leaf : Expr F → List α) : List (Expr F × Expr F) → List α
  | [] => []
  | (cond, result) :: rest =>
    collect leaf cond ++ collect leaf result ++ collectBranches leaf rest

def collectOrder (leaf : Expr F → List α) : List (OrderBy F) → List α
  | [] => []
  | ⟨e, _⟩ :: rest => collect leaf e ++ collectOrder leaf rest

def collectFrame (leaf : Expr F → List α) : Option (WindowFrame F) → List α
  | none => []
  | some ⟨_, ⟨_, lo⟩, none⟩ => collectOption leaf lo
  | some ⟨_, ⟨_, lo⟩, some ⟨_, hi⟩⟩ => collectOption leaf lo ++ collectOption leaf hi

end

end Collect

abbrev Atom (F : Type) := ColumnRef ⊕ SelectStmt F

def atomOf : Expr F → List (Atom F)
  | .ident name => [.inl (none, name)]
  | .qualifiedIdent table col => [.inl (some table, col)]
  | .inSubquery _ s _ => [.inr s]
  | .exists s _ => [.inr s]
  | .subquery s => [.inr s]
  | _ => []

def atoms (e : Expr F) : List (Atom F) := collect atomOf e

def columnRefs (e : Expr F) : List ColumnRef := (atoms e).filterMap Sum.getLeft?

def subqueries (e : Expr F) : List (SelectStmt F) := (atoms e).filterMap Sum.getRight?

section Related

variable [Scalars F] {m m' : Type → Type} [Monad m] [MonadExceptOf EvalError m] [Monad m']
  [MonadExceptOf EvalError m']
  {R : (α : Type) → m α → m' α → Prop}

section Functions

variable (rel : Related EvalError R) {args : List (m (Value F))} {args' : List (m' (Value F))}

include rel

theorem ofResult_related : R α (ofResult r) (ofResult r) := by
  cases r with
  | ok a => exact rel.pure a
  | error e => exact rel.throw e

omit [Scalars F] in
theorem runPlan_related (h : List.Forall₂ (R _) args args') :
    R _ (runPlan args plan) (runPlan args' plan) := by
  induction plan with
  | done result => exact ofResult_related rel
  | arg i rest ih =>
    unfold runPlan
    obtain ⟨hi, hi'⟩ | ⟨x, y, hi, hi', hxy⟩ := forall₂_getElem? h i
    · rw [hi, hi']
      exact rel.throw _
    · rw [hi, hi']
      exact rel.bind hxy ih

omit [Scalars F] in
theorem coalesce_related (h : List.Forall₂ (R _) args args') :
    R _ (coalesce args) (coalesce args') := by
  induction h with
  | nil => exact rel.pure _
  | cons hx _ ih => exact rel.bind hx fun v => rel.ite ih (rel.pure v)

theorem bestOf_related (h : List.Forall₂ (R _) args args') (best : Option (Value F)) :
    R _ (bestOf better args best) (bestOf better args' best) := by
  induction h generalizing best with
  | nil => exact rel.pure _
  | cons hx _ ih =>
    refine rel.bind hx fun v => rel.ite (ih best) ?_
    cases best with
    | none | some b => exact ih _

theorem evalFunction_related
    (hcall : ∀ norm args args', List.Forall₂ (R _) args args' →
      R _ (call norm args) (call' norm args')) (h :
      List.Forall₂ (R _) args args') : R _ (evalFunction call name args)
      (evalFunction call' name args') := by
  refine rel.ite (coalesce_related rel h) (rel.ite (bestOf_related rel h ..)
    (rel.ite (bestOf_related rel h ..)
    (rel.ite ?_ (rel.ite ?_ (rel.ite ?_ (rel.ite ?_ ?_))))))
  · rcases h with _ | ⟨ha, _ | ⟨hb, _ | _⟩⟩
    · exact rel.throw _
    · exact rel.throw _
    · exact rel.bind ha fun a => rel.bind hb fun b => rel.pure _
    · exact rel.throw _
  · rcases h with _ | ⟨ha, _ | ⟨hb, _ | _⟩⟩
    · exact rel.throw _
    · exact rel.throw _
    · exact rel.bind ha fun a => rel.bind hb fun b => ofResult_related rel
    · exact rel.throw _
  · rcases h with _ | ⟨ha, _⟩
    · exact rel.throw _
    · exact rel.bind ha fun a => ofResult_related rel
  · rcases h with _ | ⟨ha, _ | ⟨hb, _ | _⟩⟩
    · exact rel.throw _
    · exact rel.throw _
    · refine rel.bind ha fun a => rel.bind (ofResult_related rel) fun interval =>
        rel.bind hb fun b => ?_
      exact rel.bind (ofResult_related rel) fun ts =>
        rel.bind (ofResult_related rel) fun bucket => rel.pure _
    · exact rel.throw _
  · rw [← h.length_eq]
    cases Scalars.builtin (F := F) (normalizeFunction F name) args.length with
    | none => exact hcall _ _ _ h
    | some plan => exact runPlan_related rel h

end Functions

variable {env : EvalEnv m F} {env' : EvalEnv m' F} {c c' : RowContext F}

def RelatedAtom (R : (α : Type) → m α → m' α → Prop) (env : EvalEnv m F) (env' : EvalEnv m' F)
    (c c' : RowContext F) :
    Atom F → Prop
  | .inl ref =>
    R _ (ofResult (resolveColumn c ref.1 ref.2)) (ofResult (resolveColumn c' ref.1 ref.2))
  | .inr s => R _ (env.runSubquery s c) (env'.runSubquery s c')

/-- What the evaluation of an expression with the given atoms asks of its surroundings. -/
structure Corresponds (R : (α : Type) → m α → m' α → Prop) (env : EvalEnv m F) (env' : EvalEnv m' F)
    (c c' : RowContext F) (atoms : List (Atom F)) : Prop where
  call : ∀ norm args args', List.Forall₂ (R _) args args' →
    R _ (env.call norm args) (env'.call norm args')
  param : ∀ n, R _ (ofResult (resolveParam c n)) (ofResult (resolveParam c' n))
  computed : c.computed = c'.computed
  atom : ∀ a ∈ atoms, RelatedAtom R env env' c c' a

theorem Corresponds.mono (h : Corresponds R env env' c c' big)
    (hsub : ∀ a ∈ small, a ∈ big := by simp +contextual [collect, collectList, collectBranches]) :
    Corresponds R env env' c c' small :=
  ⟨h.call, h.param, h.computed, fun a ha => h.atom a (hsub a ha)⟩

variable (rel : Related EvalError R)

include rel

mutual

theorem eval_related (e : Expr F) (h : Corresponds R env env' c c' (collect atomOf e)) :
    R _ (eval env c e) (eval env' c' e) := by
  match e with
  | .literal l => exact rel.pure _
  | .ident name => exact h.atom (.inl (none, name)) (by simp [collect, atomOf])
  | .qualifiedIdent table col => exact h.atom (.inl (some table, col)) (by simp [collect, atomOf])
  | .param n => exact h.param n
  | .unaryOp op e | .cast e type =>
    have he := eval_related e h.mono
    exact rel.bind he fun v => ofResult_related rel
  | .binaryOp op lhs rhs =>
    have hl := eval_related lhs h.mono
    have hr := eval_related rhs h.mono
    cases op
    case and | or =>
      exact rel.bind hl fun l => rel.ite (rel.pure _) (rel.bind hr fun r => rel.pure _)
    all_goals exact rel.bind hl fun l => rel.bind hr fun r => ofResult_related rel
  | .isNull e negated | .isTrue e negated | .isFalse e negated =>
    exact rel.bind (eval_related e h.mono) fun v => rel.pure _
  | .between e low high negated =>
    have he := eval_related e h.mono
    have hlow := eval_related low h.mono
    have hhigh := eval_related high h.mono
    refine rel.bind he fun v => rel.bind hlow fun lo => rel.bind hhigh fun hi => ?_
    refine rel.bind (ofResult_related rel) fun above => rel.ite (rel.pure _) ?_
    exact rel.bind (ofResult_related rel) fun below => rel.pure _
  | .like e pattern negated =>
    have he := eval_related e h.mono
    have hp := eval_related pattern h.mono
    refine rel.bind he fun v => rel.bind hp fun p => ?_
    split
    · exact rel.pure _
    · exact rel.throw _
  | .inExprs e items negated =>
    have he := eval_related e h.mono
    have hitems v := evalMember_related v items h.mono
    exact rel.bind he fun v => rel.bind (hitems v) fun found => rel.pure _
  | .inSubquery e subquery negated =>
    have he := eval_related e h.mono
    have hs : R _ (env.runSubquery subquery c) (env'.runSubquery subquery c') :=
      h.atom (.inr subquery) (by simp [collect, atomOf])
    exact rel.bind he fun v => rel.bind hs fun rows => rel.pure _
  | .exists subquery negated | .subquery subquery =>
    have hs : R _ (env.runSubquery subquery c) (env'.runSubquery subquery c') :=
      h.atom (.inr subquery) (by simp [collect, atomOf])
    exact rel.bind hs fun rows => rel.pure _
  | .function name args distinct =>
    have hargs := evalArgs_related args h.mono
    simp only [eval, h.computed]
    split
    · exact rel.pure _
    · exact rel.ite (rel.throw _) (evalFunction_related rel h.call hargs)
  | .case operand branches else_ =>
    have hoperand := evalOption_related operand h.mono
    have helse := evalOption_related else_ h.mono
    have htaken base := evalBranches_related base branches h.mono
    refine rel.bind hoperand fun base => rel.bind (htaken base) fun taken => ?_
    cases taken with
    | some v => exact rel.pure v
    | none => exact rel.bind helse fun v => rel.pure _
  | .window func args partitionBy orderBy frame =>
    have hargs := evalArgs_related args h.mono
    simp only [eval, h.computed]
    split
    · exact rel.pure _
    · exact evalFunction_related rel h.call hargs

theorem evalArgs_related (es : List (Expr F))
    (h : Corresponds R env env' c c' (collectList atomOf es)) :
    List.Forall₂ (R _) (evalArgs env c es) (evalArgs env' c' es) := by
  match es with
  | [] => exact .nil
  | e :: es =>
    have he := eval_related e h.mono
    have hes := evalArgs_related es h.mono
    exact .cons he hes

theorem evalMember_related (v : Value F) (es : List (Expr F))
    (h : Corresponds R env env' c c' (collectList atomOf es)) :
    R _ (evalMember env c v es) (evalMember env' c' v es) := by
  match es with
  | [] => exact rel.pure _
  | e :: es =>
    have he := eval_related e h.mono
    have hes := evalMember_related v es h.mono
    exact rel.bind he fun item => rel.ite (rel.pure _) hes

theorem evalOption_related (e : Option (Expr F))
    (h : Corresponds R env env' c c' (collectOption atomOf e)) :
    R _ (evalOption env c e) (evalOption env' c' e) := by
  match e with
  | none => exact rel.pure _
  | some e => exact rel.bind (eval_related e h) fun v => rel.pure _

theorem evalBranches_related (base : Option (Value F)) (branches : List (Expr F × Expr F))
    (h : Corresponds R env env' c c' (collectBranches atomOf branches)) :
    R _ (evalBranches env c base branches) (evalBranches env' c' base branches) := by
  match branches with
  | [] => exact rel.pure _
  | (cond, result) :: rest =>
    have hc := eval_related cond h.mono
    have hr := eval_related result h.mono
    have hrest := evalBranches_related base rest h.mono
    exact rel.bind hc fun v => rel.ite (rel.bind hr fun w => rel.pure _) hrest

end

end Related

section Congruence

variable [Scalars F] {m : Type → Type} [Monad m] [MonadExceptOf EvalError m]

def SameAtom (env env' : EvalEnv m F) (c c' : RowContext F) : Atom F → Prop
  | .inl ref => resolveColumn c ref.1 ref.2 = resolveColumn c' ref.1 ref.2
  | .inr s => env.runSubquery s c = env'.runSubquery s c'

variable {env env' : EvalEnv m F} {c c' : RowContext F}

/-- Evaluation depends on the row through the atoms of the expression only. -/
theorem eval_congr (call : env.call = env'.call) (params : c.params = c'.params)
    (computed : c.computed = c'.computed)
    (h : ∀ a ∈ collect atomOf e, SameAtom env env' c c' a) : eval env c e = eval env' c' e := by
  refine eval_related related_eq e ⟨fun norm args args' hargs => ?_, fun n => ?_, computed,
    fun a ha => ?_⟩
  · rw [forall₂_eq_eq_eq] at hargs
    rw [hargs, call]
  · simp [resolveParam, params]
  · cases a with
    | inl ref => exact congrArg ofResult (h _ ha)
    | inr s => exact h _ ha

end Congruence

def withoutDb (F : Type) : EvalEnv (Except EvalError) F where
  runSubquery _ _ := .error .subqueryWithoutDatabase
  call norm _ :=
    if norm = utf8 "nextval" then .error
      (.functionArguments "nextval() requires a database context")
    else if norm = utf8 "currval" then
      .error (.functionArguments "currval() requires a database context")
    else if norm = utf8 "setval" then
      .error (.functionArguments "setval() requires a database context")
    else if norm = utf8 "pg_table_is_visible" then
      .error (.functionArguments "pg_table_is_visible() requires a database context")
    else .error (.other (utf8 "function \"" ++ norm ++ utf8 "\" does not exist"))

end ExecutorEval
