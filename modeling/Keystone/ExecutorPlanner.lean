import Keystone.ExecutorJoin

/-! # The planner

From a WHERE clause the planner reads off one predicate that an index can answer: an equality
with a literal, a distance from a point, or a range of timestamps. A run of inner joins is put
into ascending order of the estimated table sizes, as far as the ON clauses allow it. -/
namespace ExecutorPlanner

open DecimalText ExecutorEval ExecutorJoin ExecutorValue FallibleLists SqlAst StorageInternalKey

variable {F : Type}

section Predicates

variable [Scalars F]

def evalConstant (e : Expr F) : Except EvalError (Value F) :=
  eval (withoutDb F) RowContext.empty e

def okOf {α : Type} : Except EvalError α → Except EvalError (Option α)
  | .ok a => .ok (some a)
  | .error .panic => .error .panic
  | .error _ => .ok none

def flattenAnd : Expr F → List (Expr F)
  | .binaryOp .and lhs rhs => flattenAnd lhs ++ flattenAnd rhs
  | e => [e]

def columnName : Expr F → Option String
  | .ident n => some n
  | .qualifiedIdent _ n => some n
  | _ => none

def identCol (e : Expr F) (s : TableSchema) : Option String := do
  let name ← columnName e
  if s.hasColumn name then some name else none

def tryColLiteral (col lit : Expr F) (s : TableSchema) : Option (String × Value F) := do
  let name ← columnName col
  if s.hasColumn name then
    match evalConstant lit with
    | .ok v => if v.toWireBytes.isSome then some (name, v) else none
    | .error _ => none
  else none

def extractEq (s : TableSchema) : Expr F → Option (String × Value F)
  | .binaryOp .and lhs rhs => (extractEq s lhs).or (extractEq s rhs)
  | .binaryOp .eq lhs rhs => (tryColLiteral lhs rhs s).or (tryColLiteral rhs lhs s)
  | _ => none

def extractEqualityPredicate (where_ : Option (Expr F)) (s : TableSchema) :
    Option (String × Bytes) := do
  let e ← where_
  let (name, v) ← extractEq s e
  let text ← v.toWireBytes
  some (name, text)

structure SpatialPredicate (F : Type) where
  col : String
  lon : F
  lat : F
  radius : F
  timeRange : Option (ℤ × ℤ)

def evalF64 (e : Expr F) : Option F :=
  match evalConstant e with
  | .ok v => match v.asF64 with
    | .ok f => some f
    | .error _ => none
  | .error _ => none

def boundOf : Value F → Option ℤ
  | .int n => some n
  | .float f => some (Scalars.toInt f)
  | _ => none

def evalBound (e : Expr F) : Option ℤ :=
  match evalConstant e with
  | .ok v => boundOf v
  | .error _ => none

def isFunction (name : String) (lowered : String) : Bool :=
  eqIgnoreAsciiCase (utf8 name) (utf8 lowered)

def tryDwithin (s : TableSchema) : Expr F → Option (String × F × F × F)
  | .function name [a, b, radius] _ =>
    if isFunction name "st_dwithin" then do
      let (col, point) ← match identCol a s with
        | some c => some (c, b)
        | none => (identCol b s).map fun c => (c, a)
      match evalConstant point with
      | .ok (.text wkt) => do
        let (x, y) ← Scalars.wktPoint wkt
        let r ← evalF64 radius
        some (col, x, y, r)
      | _ => none
    else none
  | _ => none

def tryTimeBetween (s : TableSchema) (col : String) : Expr F → Option (ℤ × ℤ)
  | .between (.function name [arg] _) low high false =>
    if (isFunction name "st_t" || isFunction name "st_time") && identCol arg s = some col then do
      let t0 ← evalBound low
      let t1 ← evalBound high
      some (t0, t1)
    else none
  | _ => none

def extractSpatialPredicate (where_ : Option (Expr F)) (s : TableSchema) :
    Option (SpatialPredicate F) := do
  let root ← where_
  let (col, lon, lat, radius) ← (flattenAnd root).findSome? (tryDwithin s)
  some ⟨col, lon, lat, radius, (flattenAnd root).findSome? (tryTimeBetween s col)⟩

structure TimeBucketPredicate where
  col : String
  t0 : ℤ
  t1 : ℤ
  deriving DecidableEq

/-- Both bounds in turn; evaluating one may panic. -/
def tryTimeBucketBetween (s : TableSchema) : Expr F → Except EvalError (Option TimeBucketPredicate)
  | .between inner low high false =>
    match identCol inner s with
    | none => .ok none
    | some col => do
      match (← okOf (evalConstant low)).bind boundOf with
      | none => .ok none
      | some t0 =>
        match (← okOf (evalConstant high)).bind boundOf with
        | none => .ok none
        | some t1 => .ok (some ⟨col, t0, t1⟩)
  | _ => .ok none

def bucketEnd (start interval : ℤ) : Except EvalError ℤ :=
  if InRange 64 (start + interval) ∧ InRange 64 (start + interval - 1) then
    .ok (start + interval - 1)
  else .error .panic

def bucketSides (lhs rhs : Expr F) : Expr F × Expr F :=
  match lhs with
  | .function name _ _ => if isFunction name "time_bucket" then (lhs, rhs) else (rhs, lhs)
  | _ => (rhs, lhs)

def bucketRange (s : TableSchema) (interval col value : Expr F) :
    Except EvalError (Option TimeBucketPredicate) := do
  match ← okOf (evalConstant interval) with
  | some (.text text) =>
    match parseInterval text with
    | none => .ok none
    | some parsed =>
      let ms ← parsed
      match identCol col s with
      | none => .ok none
      | some col =>
        match (← okOf (evalConstant value)).bind boundOf with
        | none => .ok none
        | some start => do
          let stop ← bucketEnd start ms
          .ok (some ⟨col, start, stop⟩)
  | _ => .ok none

def tryTimeBucketEq (s : TableSchema) : Expr F → Except EvalError (Option TimeBucketPredicate)
  | .binaryOp .eq lhs rhs =>
    match bucketSides lhs rhs with
    | (.function name [interval, col] _, value) =>
      if isFunction name "time_bucket" then bucketRange s interval col value else .ok none
    | _ => .ok none
  | _ => .ok none

def firstTimePredicate (s : TableSchema) :
    List (Expr F) → Except EvalError (Option TimeBucketPredicate)
  | [] => .ok none
  | e :: es => do
    match ← tryTimeBucketBetween s e with
    | some p => .ok (some p)
    | none =>
      match ← tryTimeBucketEq s e with
      | some p => .ok (some p)
      | none => firstTimePredicate s es

def extractTimeBucketPredicate (where_ : Option (Expr F)) (s : TableSchema) :
    Except EvalError (Option TimeBucketPredicate) :=
  match where_ with
  | none => .ok none
  | some root => firstTimePredicate s (flattenAnd root)

end Predicates

abbrev NamedTable := String × Option TableSchema

mutual

/-- The aliases an ON clause refers to; none if a reference is ambiguous or the shape is not
covered. -/
def exprDependencies (tables : List NamedTable) : Expr F → Option (List String)
  | .ident name =>
    match tables.filter fun t => hasColumn t.2 name with
    | [t] => some [t.1]
    | _ => none
  | .qualifiedIdent alias_ _ => if tables.any fun t => t.1 = alias_ then some [alias_] else none
  | .literal _ => some []
  | .param _ => some []
  | .binaryOp _ lhs rhs => do
    let l ← exprDependencies tables lhs
    let r ← exprDependencies tables rhs
    some (l ++ r)
  | .unaryOp _ e => exprDependencies tables e
  | .cast e _ => exprDependencies tables e
  | .function _ args _ => listDependencies tables args
  | .between e low high _ => do
    let d ← exprDependencies tables e
    let l ← exprDependencies tables low
    let h ← exprDependencies tables high
    some (d ++ l ++ h)
  | .isNull e _ => exprDependencies tables e
  | .isTrue e _ => exprDependencies tables e
  | .isFalse e _ => exprDependencies tables e
  | _ => none

def listDependencies (tables : List NamedTable) : List (Expr F) → Option (List String)
  | [] => some []
  | e :: es => do
    let d ← exprDependencies tables e
    let ds ← listDependencies tables es
    some (d ++ ds)

end

structure JoinNode where
  alias_ : String
  schema : Option TableSchema
  estRows : ℤ
  deriving DecidableEq

def reorderable (j : Join F) : Bool := j.joinType = .inner || j.joinType = .cross

def nodeDependencies (tables : List NamedTable) (node : JoinNode) (on : Option (Expr F)) :
    Option (List String) :=
  match on with
  | none => some []
  | some e => (exprDependencies tables e).map fun d => d.filter (· ≠ node.alias_)

def smallestReady (nodes : List JoinNode) : List ℕ → Option ℕ
  | [] => none
  | i :: is =>
    match smallestReady nodes is with
    | none => some i
    | some j =>
      let est k := ((nodes[k]?).map JoinNode.estRows).getD 0
      if est j < est i then some j else some i

def schedule (nodes : List JoinNode) (deps : List (List String)) :
    ℕ → List String → List ℕ → List ℕ → Option (List ℕ)
  | 0, _, _, order => some order
  | fuel + 1, scheduled, remaining, order =>
    if remaining.isEmpty then some order
    else
      let ready := remaining.filter fun i => ((deps[i]?).getD []).all (scheduled.contains ·)
      match smallestReady nodes ready with
      | none => none
      | some next =>
        schedule nodes deps fuel (((nodes[next]?).map JoinNode.alias_).getD "" :: scheduled)
          (remaining.filter (· ≠ next)) (order ++ [next])

def joinOrder (primaryAlias : String) (primary : Option TableSchema) (joins : List (Join F))
    (nodes : List JoinNode) : List ℕ :=
  let identity := List.range joins.length
  let reordered := joins.takeWhile reorderable
  let tables := (primaryAlias, primary) :: nodes.map fun n => (n.alias_, n.schema)
  let deps := (nodes.zip reordered).mapM fun (n, j) => nodeDependencies tables n j.on
  match deps with
  | none => identity
  | some deps =>
    match schedule nodes deps nodes.length [primaryAlias] (List.range nodes.length) [] with
    | none => identity
    | some order => order ++ (List.range joins.length).drop nodes.length

end ExecutorPlanner
