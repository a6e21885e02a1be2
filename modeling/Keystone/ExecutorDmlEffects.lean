import Keystone.ExecutorDml
import Keystone.ExecutorEffects

/-! # What a statement can do to the database

The statements that write are put together from evaluations, reads, checks, writes and
announcements; a property that composition keeps holds of the statement if it holds of these. -/
namespace ExecutorDmlEffects

open EffectPredicates ExecutorDml ExecutorEffects ExecutorEval ExecutorSelect ExecutorValue
  List SqlAst
  StorageInternalKey

variable {F τ : Type} [Scalars F] {m : Type → Type} [Monad m] 
  [MonadExceptOf EvalError m] {P : (α : Type) → m α → Prop} (closed : Closed EvalError P)
  {db : WriteDb m F τ} {env : EvalEnv m F} {txn : Option τ}

structure Reading (P : (α : Type) → m α → Prop) (db : WriteDb m F τ) (txn : Option τ) : Prop where
  getTable : ∀ name, P _ (db.getTable name)
  txnScan : ∀ name, P _ (db.txnScan txn name)
  txnRead : ∀ name key, P _ (db.txnRead txn name key)
  randomKey : P _ db.randomKey

structure Checking (P : (α : Type) → m α → Prop) (db : WriteDb m F τ) (txn : Option τ)
    (schema : TableSchema) : Prop where
  rows : P _ (db.txnScan txn schema.name)
  refTable : ∀ fk ∈ schema.foreignKeys, P _ (db.getTable fk.refTable)
  refRows : ∀ fk ∈ schema.foreignKeys, P _ (db.txnScan txn fk.refTable)

omit [Monad m] [MonadExceptOf EvalError m] [Scalars F] in
theorem Reading.checking (reading : Reading P db txn) (schema : TableSchema) :
    Checking P db txn schema :=
  ⟨reading.txnScan _, fun _ _ => reading.getTable _, fun _ _ => reading.txnScan _⟩

include closed

variable {schema : TableSchema}

theorem checkUniqueConstraints_closed (hscan : P _ (db.txnScan txn schema.name)) (cells : Row)
    (excludeKey : Option Bytes) :
    P _ (checkUniqueConstraints db txn schema cells excludeKey) := by
  unfold checkUniqueConstraints
  split
  · exact closed.pure _
  · refine closed.bind hscan fun rows => ?_
    split
    · exact closed.pure _
    · exact closed.throw _

theorem checkForeignKey_closed (href : P _ (db.getTable fk.refTable))
    (hscan : P _ (db.txnScan txn fk.refTable)) (schema : TableSchema) (cells : Row) :
    P _ (checkForeignKey db txn schema cells fk) := by
  unfold checkForeignKey
  split
  · exact closed.pure _
  · refine closed.bind_found href rfl fun ref => ?_
    dsimp only
    split
    · exact closed.throw _
    · refine closed.bind hscan fun rows => ?_
      split
      · exact closed.pure _
      · exact closed.throw _

theorem checkForeignKeys_closed (href : ∀ fk ∈ fks, P _ (db.getTable fk.refTable))
    (hscan : ∀ fk ∈ fks, P _ (db.txnScan txn fk.refTable)) :
    P _ (checkForeignKeys db txn schema cells fks) := by
  induction fks with
  | nil => exact closed.pure _
  | cons fk fks ih =>
    refine closed.bind (checkForeignKey_closed closed (href fk (by simp))
      (hscan fk (by simp)) schema
      cells) fun _ => ?_
    exact ih (fun k hk => href k (by simp [hk])) fun k hk => hscan k (by simp [hk])

theorem checkRow_closed (checking : Checking P db txn schema) (cells : Row)
    (excludeKey : Option Bytes) :
    P _ (checkRow db txn schema cells excludeKey) := by
  refine closed.bind (checkUniqueConstraints_closed closed checking.rows ..) fun _ => ?_
  refine closed.bind (checkForeignKeys_closed closed checking.refTable checking.refRows ..) fun _ =>
    ?_
  unfold checkJsonSchemas
  split
  · exact closed.pure _
  · exact closed.throw _

omit [Scalars F] in
theorem rowKeyFor_closed (hrandom : P _ db.randomKey) (schema : TableSchema) (cells : Row) :
    P _ (rowKeyFor db schema cells) := by
  unfold rowKeyFor
  split
  · exact hrandom
  · exact closed.pure _

variable {table : String}

omit [Scalars F] in
theorem checkNewKey_closed (hread : P _ (db.txnRead txn table key)) (schema : TableSchema) :
    P _ (checkNewKey db txn table schema key) := by
  unfold checkNewKey
  split
  · exact closed.pure _
  · refine closed.bind hread fun found => ?_
    split
    · exact closed.throw _
    · exact closed.pure _

theorem insertSlots_closed [LawfulMonad m] (hvalues : ∀ e ∈ values, ∀ ctx, P _ (eval env ctx e)) :
    P _ (insertSlots env ctx schema columns values) := by
  have provide named (hnamed : ∀ p ∈ named, p.2 ∈ values)
      slots : P _ (provideCells env ctx schema named slots) := by
    induction named generalizing slots with
    | nil => exact closed.pure _
    | cons p named ih =>
      obtain ⟨name, e⟩ := p
      have he : e ∈ values := hnamed (name, e) (by simp)
      unfold provideCells
      split
      · exact closed.throw _
      · exact closed.bind (hvalues e he ctx) fun _ => ih (fun q hq => hnamed q (by simp [hq])) _
  unfold insertSlots
  split
  · split
    · exact closed.throw _
    · exact closed.mapM fun e he => closed.map (hvalues e he ctx)
  · split
    · exact closed.throw _
    · exact provide _ (fun p hp => (of_mem_zip hp).2) _

theorem resolveInsertRow_closed [LawfulMonad m]
    (hvalues : ∀ e ∈ values, ∀ ctx, P _ (eval env ctx e))
    (hdefaults : ∀ col ∈ schema.columns, ∀ text ∈ col.default, ∀ e, db.parseExprText text = .ok e →
      ∀ ctx, P _ (eval env ctx e))
    (params : List (Value F)) : P _ (resolveInsertRow db env schema columns values params) := by
  refine closed.bind (insertSlots_closed closed hvalues) fun slots => ?_
  refine closed.map (closed.mapM fun p hp => ?_)
  obtain ⟨col, slot⟩ := p
  have hcol : col ∈ schema.columns := (of_mem_zip hp).1
  cases slot with
  | some cell => exact closed.pure _
  | none =>
    simp only [fillCell]
    split
    case h_1 text hdefault =>
      cases hparse : db.parseExprText text with
      | error err => exact closed.throw _
      | ok e =>
        exact closed.map (hdefaults col hcol text hdefault e hparse _)
    case h_2 =>
      split
      · exact closed.pure _
      · exact closed.throw _

theorem matchesRow_closed (h : ∀ e ∈ where_, ∀ ctx, P _ (eval env ctx e))
    (ctx : RowContext F) : P _ (matchesRow env ctx where_) := by
  cases where_ with
  | none => exact closed.pure _
  | some e => exact closed.map (h e rfl ctx)

theorem assignCells_closed (h : ∀ p ∈ assignments, ∀ ctx, P _ (eval env ctx p.2))
    (ctx : RowContext F)
    (schema : TableSchema) (row : Row) : P _ (assignCells env ctx schema assignments row) := by
  induction assignments generalizing row with
  | nil => exact closed.pure _
  | cons p assignments ih =>
    obtain ⟨name, e⟩ := p
    unfold assignCells
    split
    · exact closed.throw _
    · refine closed.bind (h (name, e) (by simp) ctx) fun v => ?_
      split
      · exact ih (fun q hq => h q (by simp [hq])) _
      · exact closed.throw _

/-- The reads and writes of a statement in the transaction `txn`. -/
structure Writing (P : (α : Type) → m α → Prop) (db : WriteDb m F τ) (txn : Option τ) : Prop
    extends Reading P db txn where
  writeRow : ∀ table schema key cells, P _ (db.writeRow txn table schema key cells)
  txnDelete : ∀ table key, P _ (db.txnDelete txn table key)
  publishCdc : ∀ e, P _ (db.publishCdc e)

structure WritingTo (P : (α : Type) → m α → Prop) (db : WriteDb m F τ) (txn : Option τ)
    (table : String) (schema : TableSchema) : Prop extends Checking P db txn schema where
  txnRead : ∀ key, P _ (db.txnRead txn table key)
  randomKey : P _ db.randomKey
  writeRow : ∀ key cells, P _ (db.writeRow txn table schema key cells)
  publishCdc : ∀ e, P _ (db.publishCdc e)

omit closed [Monad m] [MonadExceptOf EvalError m] [Scalars F] in
theorem Writing.to (writing : Writing P db txn) (table : String) (schema : TableSchema) :
    WritingTo P db txn table schema where
  toChecking := writing.checking schema
  txnRead := writing.txnRead table
  randomKey := writing.randomKey
  writeRow := writing.writeRow table schema
  publishCdc := writing.publishCdc

variable {run : Runner m F τ}

theorem insertRows_closed [LawfulMonad m] (writing : WritingTo P db txn table schema)
    (hvalues : ∀ values ∈ rows, ∀ e ∈ values, ∀ ctx, P _ (eval (evalEnv db.toDb run) ctx e))
    (hdefaults : ∀ col ∈ schema.columns, ∀ text ∈ col.default, ∀ e, db.parseExprText text = .ok e →
      ∀ ctx, P _ (eval (evalEnv db.toDb run) ctx e))
    (columns : List String) (params : List (Value F)) :
    P _ (insertRows db run txn table schema columns params rows) := by
  have one values (hmem : values ∈ rows) :
    P _ (insertRow db run txn table schema columns params values) := by
    refine closed.bind (resolveInsertRow_closed closed (hvalues values hmem) hdefaults _)
      fun cells => ?_
    refine closed.bind (checkRow_closed closed writing.toChecking ..) fun _ => ?_
    refine closed.bind (rowKeyFor_closed closed writing.randomKey ..) fun key => ?_
    refine closed.bind (checkNewKey_closed closed (writing.txnRead key) _) fun _ => ?_
    exact closed.bind (writing.writeRow ..) fun _ => writing.publishCdc _
  induction rows with
  | nil => exact closed.pure _
  | cons values rows ih =>
    refine closed.bind (one values (by simp)) fun _ => ?_
    refine closed.map (ih (fun v hv => hvalues v (by simp [hv])) fun v hv => ?_)
    exact one v (by simp [hv])

theorem countRows_closed (h : ∀ kv ∈ rows, P _ (visit kv)) : P _ (countRows visit rows) := by
  induction rows with
  | nil => exact closed.pure _
  | cons kv rows ih =>
    exact closed.bind (h kv (by simp)) fun _ =>
      closed.map (ih fun x hx => h x (by simp [hx]))

theorem deleteRow_closed (hdelete : ∀ key, P _ (db.txnDelete txn stmt.table key))
    (hcdc : ∀ e, P _ (db.publishCdc e))
    (hwhere : ∀ e ∈ stmt.where_, ∀ ctx, P _ (eval (evalEnv db.toDb run) ctx e))
    (schema : Option TableSchema) (params : List (Value F)) (kv : KeyValue) :
    P _ (deleteRow db run stmt txn schema params kv) := by
  refine closed.bind (matchesRow_closed closed hwhere _) fun found => ?_
  split
  · refine closed.bind (hdelete _) fun _ => ?_
    cases schema with
    | none => exact closed.pure _
    | some schema => exact closed.map (hcdc _)
  · exact closed.pure _

theorem updateRow_closed (writing : WritingTo P db txn stmt.table schema)
    (hwhere : ∀ e ∈ stmt.where_, ∀ ctx, P _ (eval (evalEnv db.toDb run) ctx e))
    (hassign : ∀ p ∈ stmt.assignments, ∀ ctx, P _ (eval (evalEnv db.toDb run) ctx p.2))
    (params : List (Value F)) (kv : KeyValue) :
    P _ (updateRow db run stmt txn schema params kv) := by
  refine closed.bind (matchesRow_closed closed hwhere _) fun found => ?_
  split
  · refine closed.bind (assignCells_closed closed hassign ..) fun assigned => ?_
    refine closed.bind (checkRow_closed closed writing.toChecking ..) fun _ => ?_
    refine closed.bind (writing.writeRow ..) fun _ => ?_
    exact closed.map (writing.publishCdc _)
  · exact closed.pure _

omit [Scalars F] in
/-- Each line is looked up under its key and written, without the transaction. -/
theorem insertCopyLine_closed (hrandom : P _ db.randomKey)
    (hread : ∀ key, P _ (db.txnRead none table key))
    (hwrite : ∀ key cells, P _ (db.writeRow none table schema key cells)) (target : List ℕ)
      (line : Bytes) :
    P _ (insertCopyLine db table schema target line) := by
  simp only [insertCopyLine]
  split
  · exact closed.throw _
  · refine closed.bind (rowKeyFor_closed closed hrandom ..) fun key => ?_
    exact closed.bind (checkNewKey_closed closed (hread key) _) fun _ => hwrite _ _

theorem copyOut_closed (hget : P _ (db.getTable stmt.table))
    (hscan : P _ (db.txnScan none stmt.table)) :
    P _ (copyOut db stmt) := by
  refine closed.bind_found hget rfl fun schema => ?_
  refine closed.bind (ofResult_closed closed _) fun target => ?_
  exact closed.map (closed.map hscan)

end ExecutorDmlEffects
