import Keystone.ExecutorSelect

/-! # What a query can do to the database

A query reaches the database through the operations it is given. A property of computations that
composition keeps holds of the whole query if these operations have it, by induction over the
syntax. -/
namespace ExecutorEffects

open EffectPredicates ExecutorAggregate ExecutorEval ExecutorSelect ExecutorValue List SqlAst
  StorageInternalKey

variable {F τ : Type}

section Parts

variable {α : Type} {leaf : Expr F → List α} {hit : Expr F → Bool}

theorem mem_collectList : a ∈ collectList leaf es ↔ ∃ e ∈ es, a ∈ collect leaf e := by
  induction es with
  | nil => simp [collectList]
  | cons e es ih => simp [collectList, ih]

theorem mem_collectOrder : a ∈ collectOrder leaf os ↔ ∃ o ∈ os, a ∈ collect leaf o.expr := by
  induction os with
  | nil => simp [collectOrder]
  | cons o os ih =>
    obtain ⟨e, asc⟩ := o
    simp [collectOrder, ih]

mutual

theorem collect_of_walk (e : Expr F) : ∀ x ∈ walk hit e, ∀ a ∈ collect leaf x,
    a ∈ collect leaf e := by
  match e with
  | .literal l | .ident name | .qualifiedIdent table col | .param n | .exists subquery negated
  | .subquery subquery => simp [walk]
  | .unaryOp op e | .isNull e negated | .isTrue e negated | .isFalse e negated
  | .inSubquery e subquery negated | .cast e type =>
    have he := collect_of_walk e
    grind [walk, collect]
  | .binaryOp op e other | .like e other negated =>
    have he := collect_of_walk e
    have ho := collect_of_walk other
    grind [walk, collect]
  | .between e low high negated =>
    have he := collect_of_walk e
    have hl := collect_of_walk low
    have hh := collect_of_walk high
    grind [walk, collect]
  | .inExprs e items negated =>
    have he := collect_of_walk e
    have hi := collectList_of_walk items
    grind [walk, collect]
  | .function name args distinct =>
    have ha := collectList_of_walk args
    grind [walk, collect]
  | .case operand branches else_ =>
    have ho := collectOption_of_walk operand
    have hb := collectBranches_of_walk branches
    have he := collectOption_of_walk else_
    grind [walk, collect]
  | .window func args partitionBy orderBy frame => grind [walk]

theorem collectList_of_walk (es : List (Expr F)) :
    ∀ x ∈ walkList hit es, ∀ a ∈ collect leaf x, a ∈ collectList leaf es := by
  match es with
  | [] => simp [walkList]
  | e :: es =>
    have he := collect_of_walk e
    have hes := collectList_of_walk es
    grind [walkList, collectList]

theorem collectOption_of_walk (e : Option (Expr F)) :
    ∀ x ∈ walkOption hit e, ∀ a ∈ collect leaf x, a ∈ collectOption leaf e := by
  match e with
  | none => simp [walkOption]
  | some e => exact collect_of_walk e

theorem collectBranches_of_walk (branches : List (Expr F × Expr F)) :
    ∀ x ∈ walkBranches hit branches, ∀ a ∈ collect leaf x, a ∈ collectBranches leaf branches := by
  match branches with
  | [] => simp [walkBranches]
  | (cond, result) :: rest =>
    have hc := collect_of_walk cond
    have hr := collect_of_walk result
    have hrest := collectBranches_of_walk rest
    grind [walkBranches, collectBranches]

end

end Parts

section Effects

variable {m : Type → Type} [Monad m] [MonadExceptOf EvalError m] {P : (α : Type) → m α → Prop}

theorem ofResult_closed (closed : Closed EvalError P) (r : Except EvalError α) :
    P α (ofResult r) := by
  cases r with
  | ok a => exact closed.pure a
  | error e => exact closed.throw e

/-- The operations an expression may use have the property: calls, and of the queries those
inside the expression. -/
structure Handles (P : (α : Type) → m α → Prop) (env : EvalEnv m F) (queries : List (Atom F)) :
    Prop where
  call : ∀ norm args, (∀ a ∈ args, P _ a) → P _ (env.call norm args)
  query : ∀ s, .inr s ∈ queries → ∀ ctx, P _ (env.runSubquery s ctx)

omit [Monad m] [MonadExceptOf EvalError m] in
theorem Handles.mono (h : Handles P env big)
    (hsub : ∀ a ∈ small, a ∈ big := by simp +contextual [collect, collectList]) :
    Handles P env small :=
  ⟨h.call, fun s hs => h.query s (hsub _ hs)⟩

variable [Scalars F]

theorem eval_closed (closed : Closed EvalError P) (ctx : RowContext F) (e : Expr F)
    (h : Handles P env (collect atomOf e)) : P _ (eval env ctx e) := by
  have hsame : Corresponds (fun α x _ => P α x) env env ctx ctx (collect atomOf e) := by
    refine ⟨fun norm args args' hargs => h.call norm args ?_, fun n => ofResult_closed closed _,
      rfl, fun a ha => ?_⟩
    · induction hargs with
      | nil => simp
      | cons hx _ ih => simpa [hx] using ih
    · cases a with
      | inl ref => exact ofResult_closed closed _
      | inr s => exact h.query s ha ctx
  exact eval_related ⟨closed.pure, closed.bind, closed.throw⟩ e hsame

section Grouping

variable {env : EvalEnv m F} (closed : Closed EvalError P)

include closed

theorem handles_mem (h : Handles P env (collectList atomOf es)) :
    ∀ e ∈ es, ∀ ctx, P _ (eval env ctx e) := by
  intro e he ctx
  exact eval_closed closed ctx e (h.mono fun a ha => mem_collectList.mpr ⟨e, he, ha⟩)

variable {arg : Expr F}

theorem aggregateValues_closed (harg : ∀ ctx, P _ (eval env ctx arg)) (schema : Option TableSchema)
    (distinct : Bool) (rows : List Row) (seen : List (Value Bytes)) :
    P _ (aggregateValues env schema arg distinct rows seen) := by
  induction rows generalizing seen with
  | nil => exact closed.pure _
  | cons row rows ih =>
    refine closed.bind (harg _) fun v => ?_
    split_ifs
    · exact ih seen
    · exact ih seen
    · exact closed.map (ih _)

theorem evalAggregate_closed {arg : Option (Expr F)}
    (harg : ∀ e ∈ arg, ∀ ctx, P _ (eval env ctx e)) :
    P _ (evalAggregate env name arg distinct rows schema) := by
  have values {e : Expr F} (he : arg = some e) :=
    aggregateValues_closed closed (harg e (by simp [he])) schema distinct rows []
  unfold evalAggregate
  split
  · split
    · exact closed.pure _
    · exact closed.pure _
    · exact closed.map (values rfl)
  · split
    · exact closed.throw _
    · exact closed.bind (values rfl) fun _ => ofResult_closed closed _

theorem computeAggregates_closed (h : Handles P env (collectList atomOf es))
    (computed : Computed F) :
    P _ (computeAggregates env schema rows es computed) := by
  induction es generalizing computed with
  | nil => exact closed.pure _
  | cons e es ih =>
    have hrest := ih h.mono
    cases e with
    | function name args distinct =>
      have hargs : Handles P env (collectList atomOf args) := h.mono
      simp only [computeAggregates]
      split
      · exact hrest _
      · refine closed.bind (evalAggregate_closed closed ?_ ..) fun _ => hrest _
        intro e he
        exact handles_mem closed hargs e (mem_of_mem_head? he)
    | _ => exact hrest _

theorem groupRows_closed [LawfulMonad m] (h : ∀ e ∈ groupBy, ∀ ctx, P _ (eval env ctx e))
    (groups : RelationalJoins.Buckets (List (Value Bytes)) (RowContext F)) :
    P _ (groupRows env groupBy rows groups) := by
  induction rows generalizing groups with
  | nil => exact closed.pure _
  | cons ctx rows ih => exact closed.bind (closed.mapM fun e he => h e he ctx) fun _ => ih _

theorem collapseGroups_closed (h : Handles P env (collectList atomOf aggregates))
    (hhaving : ∀ e ∈ having, ∀ ctx, P _ (eval env ctx e)) (groups : List (List (RowContext F))) :
    P _ (collapseGroups env schema aggregates having groups) := by
  induction groups with
  | nil => exact closed.pure _
  | cons members groups ih =>
    refine closed.bind (computeAggregates_closed closed h []) fun computed => ?_
    cases having with
    | none => exact closed.map ih
    | some e =>
      exact closed.bind (hhaving e rfl _) fun _ => closed.map ih

variable {e : Expr F} {ctx : RowContext F}

theorem evalOrNull_closed (h : P _ (eval env ctx e)) : P _ (evalOrNull env ctx e) :=
  closed.tryCatch h fun _ => closed.pure _

theorem nearest_closed (h : ∀ ctx, P _ (eval env ctx arg)) (k : ℕ) :
    P _ (nearest env arg rows k) := by
  induction rows generalizing k with
  | nil => exact closed.pure _
  | cons w rows ih =>
    refine closed.bind (evalOrNull_closed closed (h _)) fun v => ?_
    split
    · exact closed.pure _
    · exact ih _

theorem intArg_closed (h : P _ (eval env ctx e)) : P _ (intArg env ctx e) :=
  closed.map h

theorem offsetArg_closed {e : Option (Expr F)} (h : ∀ x ∈ e, P _ (eval env ctx x)) :
    P _ (offsetArg env ctx e) := by
  cases e with
  | none => exact closed.pure _
  | some e => exact closed.map (intArg_closed closed (h e rfl))

theorem shiftedValue_closed (harg : ∀ ctx, P _ (eval env ctx arg)) {default : Option (Expr F)}
    (hdefault : ∀ e ∈ default, ∀ ctx, P _ (eval env ctx e)) :
    P _ (shiftedValue env arg default part w target) := by
  unfold shiftedValue
  split
  · exact harg _
  · cases default with
    | none => exact closed.pure _
    | some e => exact hdefault e rfl _

theorem computeWindowValue_closed (h : ∀ e ∈ args, ∀ ctx, P _ (eval env ctx e)) :
    P _ (computeWindowValue env func args frame ordered part pos w) := by
  have int {e : Expr F} he ctx : P _ (intArg env ctx e) :=
    intArg_closed closed (h e he ctx)
  have head : ∀ e ∈ args.head?, e ∈ args := fun e he => mem_of_mem_head? he
  have shifted {arg : Expr F} {more : List (Expr F)} (hargs : args = arg :: more) (target : ℤ → ℤ) :
      P _ (offsetArg env w.ctx more.head? >>= fun offset =>
        shiftedValue env arg more[1]? part w (target offset)) := by
    have more_mem {e : Expr F} (he : e ∈ more) : e ∈ args := by simp [hargs, he]
    refine closed.bind (offsetArg_closed closed fun e he => ?_) fun offset => ?_
    · exact h e (more_mem (mem_of_mem_head? he)) _
    · refine shiftedValue_closed closed (h arg (by simp [hargs])) (fun e he => ?_)
      exact h e (more_mem (mem_of_getElem? he))
  simp only [computeWindowValue]
  split_ifs
  · exact closed.pure _
  · exact closed.pure _
  · exact closed.pure _
  · exact closed.pure _
  · cases hhead : args.head? with
    | none => exact closed.throw _
    | some e =>
      refine closed.bind (int (head e hhead) _) fun n => ?_
      split
      · exact closed.throw _
      · split
        · exact closed.throw _
        · exact closed.pure _
  · cases hargs : args with
    | nil => exact closed.throw _
    | cons arg more => exact shifted hargs fun offset => pos - offset
  · cases hargs : args with
    | nil => exact closed.throw _
    | cons arg more => exact shifted hargs fun offset => pos + offset
  · exact closed.bind (ofResult_closed closed _) fun _ =>
      evalAggregate_closed closed (fun e he => h e (head e he))
  · cases hhead : args.head? with
    | none => exact closed.throw _
    | some e =>
      have he := h e (head e hhead)
      refine closed.bind (he _) fun current => ?_
      split
      · exact closed.bind (nearest_closed closed he ..) fun _ =>
          closed.map (nearest_closed closed he ..)
      · exact closed.pure _
  · rcases args with _ | ⟨value, _ | ⟨size, more⟩⟩
    · exact closed.throw _
    · exact closed.throw _
    · refine closed.bind (int (by simp) _) fun n => ?_
      split
      · exact closed.throw _
      · refine evalAggregate_closed closed ?_
        intro e he
        cases he
        exact h value (by simp)
  · exact closed.throw _

theorem windowRows_closed [LawfulMonad m]
    (hpartition : ∀ e ∈ partitionBy, ∀ ctx, P _ (eval env ctx e))
    (horder : ∀ e ∈ orderBy, ∀ ctx, P _ (eval env ctx e)) (i : ℕ) :
    P _ (windowRows env partitionBy orderBy rows i) := by
  induction rows generalizing i with
  | nil => exact closed.pure _
  | cons ctx rows ih =>
    refine closed.bind (closed.mapM fun e he => evalOrNull_closed closed (hpartition e he ctx))
      fun _ => ?_
    refine closed.bind (closed.mapM fun e he => evalOrNull_closed closed (horder e he ctx)) fun _ =>
      ?_
    exact closed.map (ih _)

theorem partitionValues_closed (h : ∀ e ∈ args, ∀ ctx, P _ (eval env ctx e)) (pos : ℕ) :
    P _ (partitionValues env func args frame ordered part rows pos) := by
  induction rows generalizing pos with
  | nil => exact closed.pure _
  | cons w rows ih =>
    exact closed.bind (computeWindowValue_closed closed h ..) fun _ =>
      closed.map (ih _)

theorem windowValues_closed [LawfulMonad m] (h : Handles P env (collect atomOf e)) :
    P _ (windowValues env rows e) := by
  cases e with
  | window func args partitionBy orderBy frame =>
    have hargs : ∀ e ∈ args, ∀ ctx, P _ (eval env ctx e) :=
      handles_mem closed h.mono
    have hpartition : ∀ e ∈ partitionBy, ∀ ctx, P _ (eval env ctx e) :=
      handles_mem closed h.mono
    have horder : ∀ e ∈ orderBy.map OrderBy.expr, ∀ ctx, P _ (eval env ctx e) := by
      refine handles_mem closed (h.mono fun a ha => ?_)
      obtain ⟨e, he, ha⟩ := mem_collectList.mp ha
      obtain ⟨o, ho, rfl⟩ := mem_map.mp he
      simp [collect, mem_collectOrder.mpr ⟨o, ho, ha⟩]
    refine closed.bind (windowRows_closed closed hpartition horder 0) fun _ => ?_
    refine closed.map (closed.mapM fun part _ => ?_)
    exact partitionValues_closed closed hargs _
  | _ => exact closed.pure _

end Grouping

section Queries

variable {env : EvalEnv m F}

def exprsOf (s : SelectStmt F) : List (Expr F) :=
  projectionExprs s.projections ++ s.where_.toList ++ s.groupBy ++ s.having.toList ++
    s.orderBy.map OrderBy.expr

def atomsOf (s : SelectStmt F) : List (Atom F) := collectList atomOf (exprsOf s)

theorem projectionExprs_cons : projectionExprs (.expr e name :: ps) = e :: projectionExprs ps := rfl

variable (closed : Closed EvalError P) {s : SelectStmt F} (h : Handles P env (atomsOf s))

include closed h

theorem expr_closed (he : e ∈ exprsOf s) (ctx : RowContext F) : P _ (eval env ctx e) :=
  handles_mem closed h e he ctx

omit [Scalars F] closed [Monad m] [MonadExceptOf EvalError m] in
theorem handles_walk (es : List (Expr F)) (hes : ∀ e ∈ es, e ∈ exprsOf s) (hit : Expr F → Bool) :
    Handles P env (collectList atomOf (es.flatMap (walk hit))) := by
  refine h.mono fun a ha => ?_
  obtain ⟨x, hx, ha⟩ := mem_collectList.mp ha
  obtain ⟨e, he, hx⟩ := mem_flatMap.mp hx
  exact mem_collectList.mpr ⟨e, hes e he, collect_of_walk e x hx a ha⟩

theorem executeAggregation_closed [LawfulMonad m] : P _ (executeAggregation env s rows schema) := by
  have hgroups : P _ (groupRows env s.groupBy rows []) :=
    groupRows_closed closed (fun e he => expr_closed closed h (by simp [exprsOf, he])) []
  have haggregates := handles_walk h
    (projectionExprs s.projections ++ s.having.toList)
    (by simp +contextual [exprsOf, or_imp])
  have hhaving : ∀ e ∈ s.having, ∀ ctx, P _ (eval env ctx e) :=
    fun e he => expr_closed closed h (by simp [exprsOf, Option.mem_def.mp he])
  unfold executeAggregation
  split
  · exact closed.bind (closed.pure _) (collapseGroups_closed closed (haggregates _) hhaving)
  · refine closed.bind hgroups fun _ => closed.bind (closed.pure _) ?_
    exact collapseGroups_closed closed (haggregates _) hhaving

theorem applyWindowFunctions_closed [LawfulMonad m] : P _ (applyWindowFunctions env s rows) := by
  have hwindows := handles_walk h
    (projectionExprs s.projections ++ s.orderBy.map OrderBy.expr)
    (by simp +contextual [exprsOf, or_imp])
  simp only [applyWindowFunctions]
  split
  · exact closed.pure _
  · refine closed.map (closed.mapM fun e he => ?_)
    refine closed.map (windowValues_closed closed ?_)
    exact (hwindows _).mono fun a ha => mem_collectList.mpr ⟨e, he, ha⟩

theorem filterWhere_closed (he : e ∈ exprsOf s) : P _ (filterWhere env e rows) := by
  induction rows with
  | nil => exact closed.pure _
  | cons ctx rows ih =>
    exact closed.bind (expr_closed closed h he ctx) fun _ => closed.map ih

theorem applyWhere_closed : P _ (applyWhere env s.where_ rows) := by
  cases hwhere : s.where_ with
  | none => exact closed.pure _
  | some e => exact filterWhere_closed closed h (by simp [exprsOf, hwhere])

omit closed h [Monad m] [MonadExceptOf EvalError m] [Scalars F] in
theorem resolveOrderAlias_mem (ho : o ∈ s.orderBy) :
    resolveOrderAlias s.projections o.expr ∈ exprsOf s := by
  have hself : o.expr ∈ exprsOf s := by simp [exprsOf, mem_map_of_mem ho]
  unfold resolveOrderAlias
  split
  case h_2 => exact hself
  case h_1 name heq =>
    cases hfound : s.projections.findSome? _ with
    | none => simpa using hself
    | some target =>
      obtain ⟨p, hp, htarget⟩ := exists_of_findSome?_eq_some hfound
      have : target ∈ projectionExprs s.projections := by
        refine mem_filterMap.mpr ⟨p, hp, ?_⟩
        grind
      simp [exprsOf, this]

theorem applyOrder_closed [LawfulMonad m] : P _ (applyOrder env s rows) := by
  have keys es (hes : ∀ e ∈ es, e ∈ exprsOf s) : P _ (orderKeys env es rows) := by
    induction rows with
    | nil => exact closed.pure _
    | cons ctx rows ih =>
      exact closed.bind (closed.mapM fun e he => expr_closed closed h (hes e he) ctx) fun _ =>
        closed.map ih
  unfold applyOrder
  split
  · exact closed.pure _
  · refine closed.map (keys _ fun e he => ?_)
    obtain ⟨o, ho, rfl⟩ := mem_map.mp he
    exact resolveOrderAlias_mem ho

theorem projectCells_closed : P _ (projectCells env ctx s.projections) := by
  have cells ps (hps : ∀ e ∈ projectionExprs ps, e ∈ exprsOf s) :
    P _ (projectCells env ctx ps) := by
    induction ps with
    | nil => exact closed.pure _
    | cons p ps ih =>
      cases p with
      | wildcard => exact closed.map (ih (by simpa [projectionExprs] using hps))
      | wildcardTable t => exact closed.throw _
      | expr e name =>
        rw [projectionExprs_cons, forall_mem_cons] at hps
        exact closed.bind (expr_closed closed h hps.1 ctx) fun _ =>
          closed.map (ih hps.2)
  exact cells s.projections (by simp +contextual [exprsOf])

theorem finishRows_closed [LawfulMonad m] : P _ (finishRows env s schema params rows) := by
  have hrest rows : P _ (applyWindowFunctions env s rows >>= fun rows =>
      applyOrder env s rows >>= fun rows => ofResult (applyLimit s params rows) >>= fun rows =>
        rows.mapM fun ctx => projectCells env ctx s.projections) := by
    refine closed.bind (applyWindowFunctions_closed closed h) fun _ => ?_
    refine closed.bind (applyOrder_closed closed h) fun _ => ?_
    refine closed.bind (ofResult_closed closed _) fun _ => ?_
    exact closed.mapM fun ctx _ => projectCells_closed closed h
  unfold finishRows
  split
  · exact closed.bind (executeAggregation_closed closed h) hrest
  · exact closed.bind (closed.pure _) hrest

theorem finishSelect_closed [LawfulMonad m] : P _ (finishSelect env s joined outer params) := by
  refine closed.bind (ofResult_closed closed _) fun _ => ?_
  refine closed.bind (applyWhere_closed closed h) fun _ => ?_
  exact closed.map (finishRows_closed closed h ..)

theorem projectOnce_closed : P _ (projectOnce env params s.projections) := by
  have cells ps (hps : ∀ e ∈ projectionExprs ps, e ∈ exprsOf s) :
    P _ (projectOnce env params ps) := by
    induction ps with
    | nil => exact closed.pure _
    | cons p ps ih =>
      cases p with
      | wildcard | wildcardTable t => exact closed.throw _
      | expr e name =>
        rw [projectionExprs_cons, forall_mem_cons] at hps
        exact closed.bind (expr_closed closed h hps.1 _) fun _ =>
          closed.map (ih hps.2)
  exact cells s.projections (by simp +contextual [exprsOf])

end Queries

mutual

/-- No query stands inside an expression, here and in the queries of WITH, FROM and UNION. -/
def quiet : SelectStmt F → Bool
  | ⟨ctes, distinct, projections, from_, where_, groupBy, having, orderBy, limit, offset, union⟩ =>
    (exprsOf ⟨ctes, distinct, projections, from_, where_, groupBy, having, orderBy, limit, offset,
        union⟩).all (fun e => (subqueries e).isEmpty) &&
      quietCtes ctes && quietFrom from_ && quietUnion union

def quietCtes : List (Cte F) → Bool
  | [] => true
  | ⟨_, _, subquery, _⟩ :: ctes => quiet subquery && quietCtes ctes

def quietTable : TableRef F → Bool
  | ⟨_, _, none, _⟩ => true
  | ⟨_, _, some subquery, _⟩ => quiet subquery

def quietJoins : List (Join F) → Bool
  | [] => true
  | ⟨_, table, _⟩ :: joins => quietTable table && quietJoins joins

def quietFrom : Option (TableRef F × List (Join F)) → Bool
  | none => true
  | some (table, joins) => quietTable table && quietJoins joins

def quietUnion : Option (UnionOp × SelectStmt F) → Bool
  | none => true
  | some (_, rhs) => quiet rhs

end

/-- The operations of the database that a query in the transaction `txn` uses. Outside of one it
may also use the indexes. -/
structure Serving (P : (α : Type) → m α → Prop) (db : Db m F τ) (txn : Option τ) : Prop where
  getTable : ∀ name, P _ (db.getTable name)
  txnScan : ∀ name, P _ (db.txnScan txn name)
  rowCountEstimate : ∀ name, P _ (db.rowCountEstimate name)
  virtualTable : ∀ name, P _ (db.virtualTable name)
  graphFunction : ∀ name args params, P _ (db.graphFunction name args params)
  call : ∀ norm args, (∀ a ∈ args, P _ a) → P _ (db.call norm args)
  indexedColumn : txn = none → ∀ name col, P _ (db.indexedColumn name col)
  indexLookup : txn = none → ∀ name col text, P _ (db.indexLookup name col text)
  indexedColumnSpatial : txn = none → ∀ name col, P _ (db.indexedColumnSpatial name col)
  spatialQuery : txn = none → ∀ name predicate, P _ (db.spatialQuery name predicate)
  indexedColumnTime : txn = none → ∀ name col, P _ (db.indexedColumnTime name col)
  timeRangeQuery : txn = none → ∀ name col t0 t1, P _ (db.timeRangeQuery name col t0 t1)

inductive Ref (F : Type) where
  | table (name : String)
  | function (name : String) (args : List (Expr F))

/-- A function is also looked up as a table: the index for its WHERE clause goes by the name. -/
def refsOf (t : TableRef F) : List (Ref F) :=
  .table t.name :: (t.funcArgs.map (.function t.name)).toList

def fromTables (s : SelectStmt F) : List (TableRef F) :=
  match s.from_ with
  | none => []
  | some (table, joins) => table :: joins.map Join.table

/-- In its FROM clause, or in a query that it holds: in FROM, WITH, UNION or inside an
expression. -/
inductive Reaches : SelectStmt F → Ref F → Prop where
  | here {s : SelectStmt F} {t : TableRef F} {r : Ref F} (ht : t ∈ fromTables s)
      (hstored : t.subquery = none) (hr : r ∈ refsOf t) : Reaches s r
  | derived {s q : SelectStmt F} {t : TableRef F} {r : Ref F} (ht : t ∈ fromTables s)
      (hq : t.subquery = some q) (h : Reaches q r) : Reaches s r
  | cte {s : SelectStmt F} {c : Cte F} {r : Ref F} (hc : c ∈ s.ctes) (h : Reaches c.subquery r) :
      Reaches s r
  | union {s q : SelectStmt F} {op : UnionOp} {r : Ref F} (hunion : s.union = some (op, q))
      (h : Reaches q r) : Reaches s r
  | inner {s q : SelectStmt F} {r : Ref F} (hq : .inr q ∈ atomsOf s) (h : Reaches q r) : Reaches s r

variable {s : SelectStmt F}

omit [Scalars F] in
theorem Reaches.of_withoutUnion (h : Reaches { s with union := none } r) : Reaches s r := by
  cases h with
  | here ht hstored hr => exact .here ht hstored hr
  | derived ht hq h => exact .derived ht hq h
  | cte hc h => exact .cte hc h
  | union hunion h => cases hunion
  | inner hq h => exact .inner hq h

structure ServingFor (P : (α : Type) → m α → Prop) (db : Db m F τ) (txn : Option τ)
    (ok : Ref F → Prop) : Prop where
  getTable : ∀ name, P _ (db.getTable name)
  virtualTable : ∀ name, P _ (db.virtualTable name)
  call : ∀ norm args, (∀ a ∈ args, P _ a) → P _ (db.call norm args)
  txnScan : ∀ name, ok (.table name) → P _ (db.txnScan txn name)
  rowCountEstimate : ∀ name, ok (.table name) → P _ (db.rowCountEstimate name)
  graphFunction : ∀ name args, ok (.function name args) →
    ∀ params, P _ (db.graphFunction name args params)
  indexedColumn : txn = none → ∀ name, ok (.table name) → ∀ col, P _ (db.indexedColumn name col)
  indexLookup : txn = none → ∀ name, ok (.table name) →
    ∀ col text, P _ (db.indexLookup name col text)
  indexedColumnSpatial : txn = none → ∀ name, ok (.table name) → ∀ col,
    P _ (db.indexedColumnSpatial name col)
  spatialQuery : txn = none → ∀ name, ok (.table name) → ∀ predicate,
    P _ (db.spatialQuery name predicate)
  indexedColumnTime : txn = none → ∀ name, ok (.table name) →
    ∀ col, P _ (db.indexedColumnTime name col)
  timeRangeQuery : txn = none → ∀ name, ok (.table name) → ∀ col t0 t1,
    P _ (db.timeRangeQuery name col t0 t1)

omit [Monad m] [MonadExceptOf EvalError m] in
theorem ServingFor.toServing (serving : ServingFor P db txn ok)
    (table : ∀ name, ok (.table name))
    (graphFunction : ∀ name args params, P _ (db.graphFunction name args params)) :
    Serving P db txn where
  getTable := serving.getTable
  txnScan name := serving.txnScan name (table name)
  rowCountEstimate name := serving.rowCountEstimate name (table name)
  virtualTable := serving.virtualTable
  graphFunction := graphFunction
  call := serving.call
  indexedColumn htxn name := serving.indexedColumn htxn name (table name)
  indexLookup htxn name := serving.indexLookup htxn name (table name)
  indexedColumnSpatial htxn name := serving.indexedColumnSpatial htxn name (table name)
  spatialQuery htxn name := serving.spatialQuery htxn name (table name)
  indexedColumnTime htxn name := serving.indexedColumnTime htxn name (table name)
  timeRangeQuery htxn name := serving.timeRangeQuery htxn name (table name)

omit [Monad m] [MonadExceptOf EvalError m] in
theorem Serving.all (serving : Serving P db txn) : ServingFor P db txn fun _ => True where
  getTable := serving.getTable
  virtualTable := serving.virtualTable
  call := serving.call
  txnScan name _ := serving.txnScan name
  rowCountEstimate name _ := serving.rowCountEstimate name
  graphFunction name args _ := serving.graphFunction name args
  indexedColumn htxn name _ := serving.indexedColumn htxn name
  indexLookup htxn name _ := serving.indexLookup htxn name
  indexedColumnSpatial htxn name _ := serving.indexedColumnSpatial htxn name
  spatialQuery htxn name _ := serving.spatialQuery htxn name
  indexedColumnTime htxn name _ := serving.indexedColumnTime htxn name
  timeRangeQuery htxn name _ := serving.timeRangeQuery htxn name

section Quiet

omit [Scalars F] in
theorem quiet_iff : quiet s = true ↔ (∀ e ∈ exprsOf s, (subqueries e).isEmpty = true) ∧
    quietCtes s.ctes = true ∧ quietFrom s.from_ = true ∧ quietUnion s.union = true := by
  cases s
  simp only [quiet, Bool.and_eq_true, all_eq_true, and_assoc]

variable {s : SelectStmt F} (h : quiet s = true)

include h

omit [Scalars F] in
theorem quiet_atoms : .inr q ∉ atomsOf s := by
  intro hq
  obtain ⟨e, he, hq⟩ := mem_collectList.mp hq
  have hnone := (quiet_iff.mp h).1 e he
  have hmem : q ∈ subqueries e := mem_filterMap.mpr ⟨.inr q, hq, rfl⟩
  simp_all

omit [Scalars F] in
theorem quiet_withoutUnion : quiet { s with union := none } = true := by
  obtain ⟨hexprs, hctes, hfrom, -⟩ := quiet_iff.mp h
  exact quiet_iff.mpr ⟨hexprs, hctes, hfrom, rfl⟩

omit [Scalars F] in
theorem quiet_rhs (hunion : s.union = some (op, rhs)) : quiet rhs = true := by
  have hrhs := (quiet_iff.mp h).2.2.2
  rwa [hunion] at hrhs

omit [Scalars F] in
theorem quiet_cte (hcte : cte ∈ s.ctes) : quiet cte.subquery = true := by
  have all ctes (hall : quietCtes ctes = true) (hcte : cte ∈ ctes) : quiet cte.subquery = true := by
    induction ctes with
    | nil => cases hcte
    | cons c ctes ih =>
      obtain ⟨name, columns, subquery, recursive⟩ := c
      simp only [quietCtes, Bool.and_eq_true] at hall
      rcases mem_cons.mp hcte with rfl | hcte
      · exact hall.1
      · exact ih hall.2 hcte
  exact all s.ctes (quiet_iff.mp h).2.1 hcte

omit h in
theorem quiet_of_table (htable : quietTable table = true) (hq : table.subquery = some q) :
    quiet q = true := by
  obtain ⟨name, alias_, subquery, funcArgs⟩ := table
  subst hq
  exact htable

omit [Scalars F] in
theorem quiet_from (hfrom : s.from_ = some (table, joins)) :
    (∀ q, table.subquery = some q → quiet q = true) ∧
      ∀ j ∈ joins, ∀ q, j.table.subquery = some q → quiet q = true := by
  have all (joins : List (Join F)) (hall : quietJoins joins = true) :
      ∀ j ∈ joins, quietTable j.table = true := by
    induction joins with
    | nil => simp
    | cons j joins ih =>
      obtain ⟨joinType, table, on⟩ := j
      simp only [quietJoins, Bool.and_eq_true] at hall
      exact forall_mem_cons.mpr ⟨hall.1, ih hall.2⟩
  have htables := (quiet_iff.mp h).2.2.1
  rw [hfrom, quietFrom, Bool.and_eq_true] at htables
  constructor
  · intro q hq
    exact quiet_of_table htables.1 hq
  · intro j hj q hq
    exact quiet_of_table (all joins htables.2 j hj) hq

end Quiet

section Select

variable (closed : Closed EvalError P) {db : Db m F τ} {run : Runner m F τ}
  {txn : Option τ} {ok : Ref F → Prop} (serving : ServingFor P db txn ok)

include closed serving

variable {table : TableRef F} {ctes : CteContext} {outer : List OuterRow} {params : List (Value F)}

theorem resolveTableRef_closed (hok : table.subquery = none → ∀ r ∈ refsOf table, ok r)
    (hrun : ∀ q, table.subquery = some q → P _ (run q ctes outer params txn)) :
    P _ (resolveTableRef db run table ctes outer params txn) := by
  unfold resolveTableRef
  split
  case h_1 q hq => exact closed.map (hrun q hq)
  case h_2 hstored =>
    have hok := hok hstored
    split
    · rename_i args hargs
      have hfunction : ok (.function table.name args) := hok _ (by simp [refsOf, hargs])
      exact closed.map (serving.graphFunction _ _ hfunction _)
    · split
      · exact closed.pure _
      · refine closed.bind (serving.virtualTable _) fun found => ?_
        split
        · exact closed.pure _
        · refine closed.bind (serving.getTable _) fun _ => ?_
          exact closed.map (serving.txnScan _ (hok _ (by simp [refsOf])))

theorem indexRows_closed (htxn : txn = none) (htable : ok (.table table.name)) :
    P _ (indexRows db table where_) := by
  refine closed.bind (serving.getTable _) fun schema => ?_
  cases schema with
  | none => exact closed.pure _
  | some schema =>
    dsimp only
    split
    · refine closed.bind (serving.indexedColumn htxn _ htable _) fun indexed => ?_
      split
      · exact closed.map (serving.indexLookup htxn _ htable ..)
      · exact closed.pure _
    · split
      · refine closed.bind (serving.indexedColumnSpatial htxn _ htable _) fun indexed => ?_
        split
        · exact closed.map (serving.spatialQuery htxn _ htable _)
        · exact closed.pure _
      · refine closed.bind (ofResult_closed closed _) fun predicate => ?_
        cases predicate with
        | none => exact closed.pure _
        | some tp =>
          refine closed.bind (serving.indexedColumnTime htxn _ htable _) fun indexed => ?_
          split
          · exact closed.map (serving.timeRangeQuery htxn _ htable ..)
          · exact closed.pure _

theorem resolvePrimaryTable_closed (hok : table.subquery = none → ∀ r ∈ refsOf table, ok r)
    (hrun : ∀ q, table.subquery = some q → P _ (run q ctes outer params txn)) :
    P _ (resolvePrimaryTable db run table where_ ctes outer params txn) := by
  have hscan := resolveTableRef_closed closed serving hok hrun
  unfold resolvePrimaryTable
  split
  case isTrue hindex =>
    have hcase : txn = none ∧ table.subquery = none := by simp_all
    have htable : ok (.table table.name) := hok hcase.2 _ (by simp [refsOf])
    refine closed.bind (indexRows_closed closed serving hcase.1 htable) fun found => ?_
    split
    · exact closed.pure _
    · exact hscan
  case isFalse => exact hscan

variable {joins : List (Join F)}

omit [Scalars F] in
theorem reorderInnerJoins_closed (hok : ∀ j ∈ joins, j.table.subquery = none →
    ∀ r ∈ refsOf j.table, ok r) :
    P _ (reorderInnerJoins db primaryAlias primary joins) := by
  have nodes joins (hok : ∀ j ∈ joins, j.table.subquery = none → ∀ r ∈ refsOf j.table, ok r) :
      P _ (joinNodes db joins) := by
    induction joins with
    | nil => exact closed.pure _
    | cons j joins ih =>
      have ih := ih fun k hk => hok k (by simp [hk])
      unfold joinNodes
      split
      · exact closed.pure _
      · have htable : ok (.table j.table.name) :=
          hok j (by simp) (by simp_all) _ (by simp [refsOf])
        refine closed.bind (closed.tryCatch (serving.getTable _) fun _ => closed.pure _)
          fun found => ?_
        cases found with
        | none => exact closed.pure _
        | some schema =>
          refine closed.bind (serving.rowCountEstimate _ htable) fun est => ?_
          cases est with
          | none => exact closed.pure _
          | some est => exact closed.map ih
  simp only [reorderInnerJoins]
  split
  · exact closed.pure _
  · refine closed.bind (nodes _ fun j hj => hok j ((takeWhile_sublist _).subset hj)) fun found => ?_
    cases found with
    | none | some ns => exact closed.pure _

theorem runJoins_closed (hok : ∀ j ∈ joins, j.table.subquery = none → ∀ r ∈ refsOf j.table, ok r)
    (hrun : ∀ j ∈ joins, ∀ q, j.table.subquery = some q → ∀ ctes, P _ (run q ctes outer params txn))
    (acc : Joined) (ctes : CteContext) :
    P _ (runJoins db run outer params txn joins acc ctes) := by
  induction joins generalizing acc ctes with
  | nil => exact closed.pure _
  | cons j joins ih =>
    refine closed.bind (resolveTableRef_closed closed serving (hok j (by simp)) fun q hq =>
      hrun j (by simp) q hq _) fun found => ?_
    exact ih (fun k hk => hok k (by simp [hk])) (fun k hk => hrun k (by simp [hk])) _ _

theorem runFrom_closed [LawfulMonad m] (h : Handles P (evalEnv db run) (atomsOf s))
    (hok : ∀ t ∈ table :: joins.map Join.table, t.subquery = none → ∀ r ∈ refsOf t, ok r)
    (htable : ∀ q, table.subquery = some q → ∀ ctes, P _ (run q ctes outer params txn))
    (hjoins : ∀ j ∈ joins, ∀ q, j.table.subquery = some q →
      ∀ ctes, P _ (run q ctes outer params txn)) :
    P _ (runFrom db run s table joins ctes outer params txn) := by
  have hjoined : ∀ j ∈ joins, j.table.subquery = none → ∀ r ∈ refsOf j.table, ok r :=
    fun j hj => hok j.table (mem_cons_of_mem _ (mem_map_of_mem hj))
  have hmem {order : List ℕ} {j : Join F} (hj : j ∈ order.filterMap fun i => joins[i]?) :
    j ∈ joins := by
    obtain ⟨i, _, hi⟩ := mem_filterMap.mp hj
    exact mem_of_getElem? hi
  refine closed.bind (resolvePrimaryTable_closed closed serving (hok table (by simp)) fun q hq =>
    htable q hq _) fun primary => ?_
  refine closed.bind (reorderInnerJoins_closed closed serving hjoined) fun order => ?_
  refine closed.bind (runJoins_closed closed serving (fun j hj => hjoined j (hmem hj))
    (fun j hj => hjoins j (hmem hj)) ..) fun joined => ?_
  · exact closed.map (finishSelect_closed closed h ..)

omit serving [Scalars F] in
theorem materializeCte_closed (hwhole : ∀ ctes, P _ (run cte.subquery ctes outer params txn))
    (hbase : ∀ ctes, P _ (run { cte.subquery with union := none } ctes outer params txn))
    (hterm : ∀ op q, cte.subquery.union = some (op, q) →
      ∀ ctes, P _ (run q ctes outer params txn)) : P
      _ (materializeCte run outer params txn ctes cte) := by
  have rounds {step : CteContext → m (QueryResult × CteContext)} (hstep : ∀ ctes, P _ (step ctes))
      schema left (working all) ctes :
      P _ (recursiveRounds step cte.name schema left working all ctes) := by
    induction left generalizing working all ctes with
    | zero =>
      refine closed.bind (hstep _) fun (r, ctes) => ?_
      dsimp only
      split
      · exact closed.pure _
      · exact closed.throw _
    | succ left ih =>
      refine closed.bind (hstep _) fun (r, ctes) => ?_
      dsimp only
      split
      · exact closed.pure _
      · exact ih _ _ _
  unfold materializeCte
  split
  case h_1 op term _ hunion =>
    refine closed.bind (hbase _) fun base => ?_
    exact closed.map (rounds (hterm op term hunion) ..)
  case h_2 => exact closed.map (hwhole _)

omit serving in
/-- Every effect of a query is one of an operation of the database, on a table or with a function
that the query refers to. A query in the transaction `txn` uses the operations for `txn`; only the
queries inside its expressions use those for none. -/
theorem executeSelect_closedFor [LawfulMonad m] (depth : ℕ) (s : SelectStmt F) (ctes : CteContext)
    (outer : List OuterRow) (params : List (Value F)) (txn : Option τ)
    (serving : ServingFor P db txn ok) (inner : ServingFor P db none ok ∨ quiet s = true)
    (hok : ∀ r, Reaches s r → ok r) :
    P _ (executeSelect db depth s ctes outer params txn) := by
  induction depth generalizing s ctes outer params txn with
  | zero => exact closed.throw _
  | succ depth ih =>
    have nested {q : SelectStmt F} hq (hreach : ∀ r, Reaches q r → Reaches s r) ctes :
        P _ (executeSelect db depth q ctes outer params txn) :=
      ih q ctes outer params txn serving (inner.imp_right hq) fun r hr => hok r (hreach r hr)
    have handles : Handles P (evalEnv db (executeSelect db depth)) (atomsOf s) := by
      refine ⟨serving.call, fun q hq ctx => ?_⟩
      rcases inner with hnone | hquiet
      · refine closed.map (ih q _ _ _ _ hnone (.inl hnone) fun r hr => ?_)
        exact hok r (.inner hq hr)
      · exact absurd hq (quiet_atoms hquiet)
    simp only [executeSelect, selectStep]
    split
    case h_1 op rhs hunion =>
      refine closed.bind (nested (fun h => quiet_withoutUnion h) (fun r hr => hr.of_withoutUnion) _)
        fun left => ?_
      refine closed.bind (nested (fun h => quiet_rhs h hunion) (fun r hr => .union hunion hr) _)
        fun right => ?_
      exact closed.pure _
    case h_2 =>
      refine closed.bind (closed.foldlM (fun cte hcte ctes => ?_) ctes) fun ctes => ?_
      · refine materializeCte_closed closed (fun ctes => ?_) (fun ctes => ?_)
          (fun op q hunion ctes => ?_)
        · exact nested (fun h => quiet_cte h hcte) (fun r hr => .cte hcte hr) ctes
        · exact nested (fun h => quiet_withoutUnion (quiet_cte h hcte))
            (fun r hr => .cte hcte hr.of_withoutUnion) ctes
        · exact nested (fun h => quiet_rhs (quiet_cte h hcte) hunion)
            (fun r hr => .cte hcte (.union hunion hr)) ctes
      · split
        · exact closed.map (projectOnce_closed closed handles)
        · rename_i table joins hfrom
          have hmem t (ht : t ∈ table :: joins.map Join.table) : t ∈ fromTables s := by
            simpa [fromTables, hfrom] using ht
          refine runFrom_closed closed serving handles (fun t ht hstored r hr => ?_)
            (fun q hq ctes => ?_) fun j hj q hq ctes => ?_
          · exact hok r (.here (hmem t ht) hstored hr)
          · exact nested (fun h => (quiet_from h hfrom).1 q hq)
              (fun r hr => .derived (hmem table (by simp)) hq hr) ctes
          · exact nested (fun h => (quiet_from h hfrom).2 j hj q hq)
              (fun r hr => .derived (hmem j.table (by simpa using .inr ⟨j, hj, rfl⟩)) hq hr) ctes

omit serving in
theorem executeSelect_closed [LawfulMonad m] (serving : Serving P db txn)
    (inner : Serving P db none ∨ quiet s = true) :
    P _ (executeSelect db depth s ctes outer params txn) :=
  executeSelect_closedFor closed depth s ctes outer params txn serving.all
    (inner.imp_left Serving.all) fun _ _ => trivial

end Select

end Effects

end ExecutorEffects
