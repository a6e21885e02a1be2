import Keystone.ExecutorDmlEffects
import Keystone.WireSession

/-! # What a transaction reads

Every read that is given the handle of the transaction returns the commits before BEGIN with the
transaction's own changes behind them, whatever other sessions commit in the meantime. -/
namespace WireSessionReads

open EffectPredicates ExecutorDml ExecutorDmlEffects ExecutorEffects ExecutorEval ExecutorSelect
  ExecutorValue SqlAst StorageInternalKey WireSession

variable {F ρ : Type}

def Untouched (w w' : World ρ) : Prop := ∃ rest, w' = { w with rest := rest }

theorem Untouched.refl (w : World ρ) : Untouched w w := ⟨w.rest, rfl⟩

/-- The operations that do not concern the tables leave them alone; a call runs its arguments
and changes nothing else. Nothing is said of the table functions, some of which read tables past
the transaction or create them. -/
structure Beside (db : WriteDb (M ρ) F Unit) : Prop where
  rowCountEstimate : ∀ name, Steps Untouched _ (db.rowCountEstimate name)
  virtualTable : ∀ name, Steps Untouched _ (db.virtualTable name)
  randomKey : Steps Untouched _ db.randomKey
  call : ∀ R : World ρ → World ρ → Prop, (∀ a, R a a) → (∀ {a b c}, R a b → R b c → R a c) →
    (∀ {a b}, Untouched a b → R a b) →
    ∀ norm args, (∀ x ∈ args, Steps R _ x) → Steps R _ (db.call norm args)
  indexedColumn : ∀ name col, Steps Untouched _ (db.indexedColumn name col)
  indexLookup : ∀ name col text, Steps Untouched _ (db.indexLookup name col text)
  indexedColumnSpatial : ∀ name col, Steps Untouched _ (db.indexedColumnSpatial name col)
  spatialQuery : ∀ name predicate, Steps Untouched _ (db.spatialQuery name predicate)
  indexedColumnTime : ∀ name col, Steps Untouched _ (db.indexedColumnTime name col)
  timeRangeQuery : ∀ name col t0 t1, Steps Untouched _ (db.timeRangeQuery name col t0 t1)

/-- The table functions leave the tables alone too. -/
structure Apart (db : WriteDb (M ρ) F Unit) : Prop extends Beside db where
  graphFunction : ∀ name args params, Steps Untouched _ (db.graphFunction name args params)

def IsTable : Ref F → Prop
  | .table _ => True
  | .function _ _ => False

/-- What the tables' own operations do, a query without table functions does. -/
theorem Beside.serving [Scalars F] {db : WriteDb (M ρ) F Unit} (beside : Beside db) (json : Bool)
    (hrefl : ∀ a, R a a) (htrans : ∀ {a b c}, R a b → R b c → R a c)
    (huntouched : ∀ {a b}, Untouched a b → R a b)
    (hget : ∀ name, Steps R _ ((sessionDb json db).getTable name))
    (hscan : ∀ name, Steps R _ ((sessionDb json db).txnScan handle name)) :
    ServingFor (Steps R) (sessionDb json db).toDb handle IsTable where
  getTable := hget
  txnScan name _ := hscan name
  rowCountEstimate name _ w := huntouched (beside.rowCountEstimate name w)
  virtualTable name w := huntouched (beside.virtualTable name w)
  graphFunction _ _ h := h.elim
  call := beside.call R hrefl htrans huntouched
  indexedColumn _ name _ col w := huntouched (beside.indexedColumn name col w)
  indexLookup _ name _ col text w := huntouched (beside.indexLookup name col text w)
  indexedColumnSpatial _ name _ col w := huntouched (beside.indexedColumnSpatial name col w)
  spatialQuery _ name _ predicate w := huntouched (beside.spatialQuery name predicate w)
  indexedColumnTime _ name _ col w := huntouched (beside.indexedColumnTime name col w)
  timeRangeQuery _ name _ col t0 t1 w := huntouched (beside.timeRangeQuery name col t0 t1 w)

theorem Apart.serving [Scalars F] {db : WriteDb (M ρ) F Unit} (apart : Apart db) (json : Bool)
    (hrefl : ∀ a, R a a) (htrans : ∀ {a b c}, R a b → R b c → R a c)
    (huntouched : ∀ {a b}, Untouched a b → R a b)
    (hget : ∀ name, Steps R _ ((sessionDb json db).getTable name))
    (hscan : ∀ name, Steps R _ ((sessionDb json db).txnScan handle name)) :
    Serving (Steps R) (sessionDb json db).toDb handle :=
  (apart.toBeside.serving json hrefl htrans huntouched hget hscan).toServing (fun _ => trivial)
    fun name args params w => huntouched (apart.graphFunction name args params w)

/-- A read in the view of the transaction: the commits before BEGIN and some of its own changes,
in order from the first. -/
def InView (begun : List (List Change)) (staged : List Change) : Event → Prop
  | .read table key rows seen =>
    rows = rowsOf seen table key ∧ ∃ own, own <+: staged ∧ seen = tablesAfter (begun.flatten ++ own)
  | .wrote _ _ _ _ _ => True

theorem InView.mono (h : InView begun staged e) (hmore : staged <+: more) :
    InView begun more e := by
  cases e with
  | wrote => trivial
  | read table key rows seen =>
    obtain ⟨hrows, own, hown, hseen⟩ := h
    exact ⟨hrows, own, hown.trans hmore, hseen⟩

structure Since (schemas : String → Option TableSchema) (begun : List (List Change))
    (past : List Event) (w : World ρ) (t : Txn) (new : List Event) : Prop where
  schemas_eq : w.schemas = schemas
  commits : begun <+: w.commits
  txn : w.txn = some t
  snapshot : t.snapshot = begun.length
  trace : w.trace = past ++ new
  inView : ∀ e ∈ new, InView begun t.staged e

def Open (schemas : String → Option TableSchema) (begun : List (List Change)) (past : List Event)
    (w : World ρ) : Prop :=
  ∃ t new, Since schemas begun past w t new

section Since

variable {schemas : String → Option TableSchema} {begun : List (List Change)}
  {past new : List Event}
  {w : World ρ} {t : Txn}

section Since

variable (h : Since schemas begun past w t new)

include h

theorem Since.txnView : w.txnView = tablesAfter (begun.flatten ++ t.staged) := by
  obtain ⟨later, hlater⟩ := h.commits
  simp [World.txnView, h.txn, h.snapshot, ← hlater]

theorem Since.interfere : Since schemas begun past w.interfere t new := by
  unfold World.interfere
  split
  · exact h
  · exact ⟨h.schemas_eq, h.commits.trans (List.prefix_append ..), h.txn, h.snapshot,
      h.trace, h.inView⟩

theorem Since.observe
    (he : InView begun t.staged e) : Since schemas begun past (w.observe e) t (new ++ [e]) where
  schemas_eq := h.schemas_eq
  commits := h.commits
  txn := h.txn
  snapshot := h.snapshot
  trace := by simp [World.observe, h.trace]
  inView := by
    intro x hx
    rcases List.mem_append.mp hx with hx | hx
    · exact h.inView x hx
    · exact List.mem_singleton.mp hx ▸ he

theorem Since.read (table : String) (key : Option Bytes) :
    InView begun t.staged (readEvent w (some ()) table key) :=
  ⟨rfl, t.staged, List.prefix_refl _, h.txnView⟩

theorem Since.change (c : Change) :
    Since schemas begun past (w.change (some ()) c) { t with staged := t.staged ++ [c] } new := by
  have hstaged :
    w.change (some ()) c = { w with txn := some { t with staged := t.staged ++ [c] } } := by
    simp [World.change, h.txn]
  rw [hstaged]
  exact ⟨h.schemas_eq, h.commits, rfl, h.snapshot, h.trace,
    fun e he => (h.inView e he).mono (List.prefix_append ..)⟩

end Since

theorem Open.of_untouched (h : Open schemas begun past w) (hw : Untouched w w') :
    Open schemas begun past w' := by
  obtain ⟨t, new, h⟩ := h
  obtain ⟨rest, rfl⟩ := hw
  exact ⟨t, new, h.schemas_eq, h.commits, h.txn, h.snapshot, h.trace, h.inView⟩

variable {α : Type}

theorem keeps_op {f : World ρ → α × World ρ}
    (h : ∀ w, Open schemas begun past w → Open schemas begun past (f w).2) :
    Keeps (Open schemas begun past) _ (op f) := by
  rintro w ⟨t, new, hw⟩
  exact h _ ⟨t, new, hw.interfere⟩

/-- Behind BEGIN the handle is at hand. -/
theorem keeps_withHandle (h : Keeps (Open schemas begun past) _ (f (some ()))) :
    Keeps (Open schemas begun past) _ (currentTxn >>= f) := by
  refine Keeps.bind (Q := fun txn => txn = some ()) (fun w hw => hw) ?_ (fun txn htxn => htxn ▸ h)
  rintro w ⟨t, new, hw⟩ txn w' hrun
  have hhandle : w.handle = txn := Except.ok.inj (congrArg Prod.fst hrun)
  rw [← hhandle, World.handle, hw.txn]
  rfl

end Since

section Operations

variable [Scalars F] {schemas : String → Option TableSchema} {begun : List (List Change)}
  {past : List Event} {rest : WriteDb (M ρ) F Unit} (beside : Beside rest) (json : Bool)

theorem keeps_getTable (hnone : f none = throw e)
    (h : ∀ schema, schemas name = some schema →
      Keeps (Open schemas begun past) _ (f (some schema))) :
    Keeps (Open schemas begun past) _ ((sessionDb json rest).getTable name >>= f) := by
  refine Keeps.bind (Q := fun found => found = schemas name) (keeps_op fun w hw => hw) ?_ ?_
  · rintro w ⟨t, new, hw⟩ found w' hrun
    have hfound : w.interfere.schemas name = found := Except.ok.inj (congrArg Prod.fst hrun)
    rw [← hfound, hw.interfere.schemas_eq]
  · rintro (_ | schema) hfound
    · exact hnone ▸ closed_keeps.throw _
    · exact h schema hfound.symm

include beside

theorem serving_session :
    ServingFor (Keeps (Open schemas begun past)) (sessionDb json rest).toDb (some ()) IsTable := by
  refine beside.serving json (fun _ h => h) (fun hab hbc h => hbc (hab h))
    (fun hab h => h.of_untouched hab) (fun name => keeps_op fun w hw => hw) fun name => keeps_op ?_
  rintro w ⟨t, new, hw⟩
  exact ⟨t, _, hw.observe (hw.read name none)⟩

theorem writing_session : Writing (Keeps (Open schemas begun past)) (sessionDb json rest)
    (some ()) where
  getTable name := keeps_op fun w hw => hw
  txnScan name := (serving_session beside json).txnScan name trivial
  txnRead name key := by
    refine keeps_op fun w ⟨t, new, hw⟩ => ?_
    exact ⟨t, _, hw.observe (hw.read name (some key))⟩
  randomKey := fun w hw => hw.of_untouched (beside.randomKey w)
  writeRow table schema key cells := by
    refine keeps_op fun w ⟨t, new, hw⟩ => ?_
    exact ⟨_, _, (hw.observe (e := .wrote table schema key cells _) trivial).change _⟩
  txnDelete table key := by
    refine keeps_op fun w ⟨t, new, hw⟩ => ?_
    exact ⟨_, _, hw.change _⟩
  publishCdc e := by
    refine keeps_op fun w ⟨t, new, hw⟩ => ?_
    exact ⟨t, new, hw.schemas_eq, hw.commits, hw.txn, hw.snapshot, hw.trace, hw.inView⟩

/-- An expression without queries reads nothing that is not in the view. -/
theorem eval_inView (he : subqueries e = []) (run : Runner (M ρ) F Unit) :
    Keeps (Open schemas begun past) _ (eval (evalEnv (sessionDb json rest).toDb run) ctx e) := by
  refine eval_closed closed_keeps ctx e ⟨(serving_session beside json).call, ?_⟩
  intro q hq
  have hmem : q ∈ subqueries e := List.mem_filterMap.mpr ⟨.inr q, hq, rfl⟩
  simp [he] at hmem

end Operations

/-- A statement all of whose reads get the handle: a query without queries inside expressions and
without table functions, or a change whose expressions, the defaults of the table included, hold no
query. -/
def ThroughHandle [Scalars F] (db : WriteDb (M ρ) F Unit) (schemas : String → Option TableSchema) :
    Stmt F → Prop
  | .select query => quiet query = true ∧ ∀ r, Reaches query r → IsTable r
  | .insert stmt => (∀ values ∈ stmt.values, ∀ e ∈ values, subqueries e = []) ∧
      ∀ schema, schemas stmt.table = some schema → ∀ col ∈ schema.columns, ∀ text ∈ col.default,
        ∀ e, db.parseExprText text = .ok e → subqueries e = []
  | .delete stmt => ∀ e ∈ stmt.where_, subqueries e = []
  | .update stmt => (∀ e ∈ stmt.where_, subqueries e = []) ∧
      ∀ p ∈ stmt.assignments, subqueries p.2 = []
  | .fetch _ _ => True
  | .begin => True
  | _ => False

section Statements

variable [Scalars F] {schemas : String → Option TableSchema} {begun : List (List Change)}
  {past : List Event} {rest : WriteDb (M ρ) F Unit} (beside : Beside rest) (json : Bool)

include beside

theorem keeps_execute (h : ThroughHandle (sessionDb json rest) schemas stmt) :
    Keeps (Open schemas begun past) _ (execute (sessionDb json rest) depth params stmt) := by
  set db := sessionDb json rest
  have closed : Closed EvalError (Keeps (Open (ρ := ρ) schemas begun past)) :=
    closed_keeps
  have serving : ServingFor (Keeps (Open schemas begun past)) db.toDb (some ()) IsTable :=
    serving_session beside json
  have writing : Writing (Keeps (Open schemas begun past)) db (some ()) :=
    writing_session beside json
  have evals {e : Expr F} he ctx :
      Keeps (Open schemas begun past) _ (eval
        (evalEnv db.toDb (executeSelect db.toDb depth)) ctx e) :=
    eval_inView beside json he _
  match stmt with
  | .select query =>
    refine keeps_withHandle ?_
    exact closed.map
      (executeSelect_closedFor closed _ _ _ _ _ _ serving (.inr h.1) h.2)
  | .insert stmt =>
    refine keeps_withHandle (closed.map ?_)
    refine keeps_getTable json rfl fun schema hschema => ?_
    refine insertRows_closed closed (writing.to ..)
      (fun values hv e he => evals (h.1 values hv e he)) ?_ _ _
    intro col hcol text htext e hparse
    exact evals (h.2 schema hschema col hcol text htext e hparse)
  | .delete stmt =>
    refine keeps_withHandle (closed.map ?_)
    refine closed.bind (writing.getTable _) fun schema =>
      closed.bind (writing.txnScan _) fun rows => ?_
    exact countRows_closed closed fun kv _ =>
      deleteRow_closed closed (writing.txnDelete _) writing.publishCdc
        (fun e he => evals (h e he)) _ _ _
  | .update stmt =>
    refine keeps_withHandle (closed.map ?_)
    refine closed.bind_found (writing.getTable _) rfl fun schema => ?_
    refine closed.bind (writing.txnScan _) fun rows => countRows_closed closed fun kv _ => ?_
    exact updateRow_closed closed (writing.to ..) (fun e he => evals (h.1 e he))
      (fun p hp => evals (h.2 p hp)) _ _
  | .fetch name count =>
    rintro w ⟨t, new, hw⟩
    change Open schemas begun past (fetch name count w).2
    unfold fetch
    split
    · exact ⟨t, new, hw⟩
    · exact ⟨t, new, hw.schemas_eq, hw.commits, hw.txn, hw.snapshot, hw.trace, hw.inView⟩
  | .begin =>
    refine keeps_op fun w ⟨t, new, hw⟩ => ?_
    simp only [hw.txn]
    exact ⟨t, new, hw⟩

omit beside in
/-- Right behind BEGIN the transaction sees every commit. -/
theorem since_begin (hidle : w.txn = none) :
    let begun := after (sessionDb json rest) depth params w .begin
    Since w.schemas begun.commits w.trace begun ⟨begun.commits.length, []⟩ [] := by
  have hbegun : after (sessionDb json rest) depth params w .begin =
      { w.interfere with txn := some ⟨w.interfere.commits.length, []⟩ } := by
    have hidle' : w.interfere.txn = none := by
      unfold World.interfere
      split <;> exact hidle
    simp [after, execute, begin, run_op, hidle']
  have hsame : w.interfere.schemas = w.schemas ∧ w.interfere.trace = w.trace := by
    unfold World.interfere
    split <;> exact ⟨rfl, rfl⟩
  rw [hbegun]
  exact ⟨hsame.1, List.prefix_refl _, rfl, rfl, by simp [hsame.2], by simp⟩

end Statements

def tablesOnly (F : Type) : WriteDb (M Unit) F Unit where
  getTable _ := pure none
  txnScan _ _ := pure []
  indexedColumn _ _ := pure false
  indexLookup _ _ _ := pure none
  indexedColumnSpatial _ _ := pure false
  spatialQuery _ _ := pure none
  indexedColumnTime _ _ := pure false
  timeRangeQuery _ _ _ _ := pure none
  rowCountEstimate _ := pure none
  virtualTable _ := pure none
  graphFunction _ _ _ := throw .panic
  call _ _ := throw .panic
  gpu := ExecutorJoin.noGpu
  txnRead _ _ _ := pure none
  writeRow _ _ _ _ _ := pure ()
  txnDelete _ _ _ := pure ()
  publishCdc _ := pure ()
  randomKey := pure []
  parseExprText _ := .error .panic
  canonicalVector _ := none
  isJson _ := true
  jsonViolations _ _ := []

theorem apart_tablesOnly : Apart (tablesOnly F) := by
  constructor
  constructor
  case toBeside.call =>
    intro R hrefl _ _ norm args _ w
    exact hrefl w
  all_goals
    intros
    exact fun w => .refl w

def insertedBehind : World Unit where
  schemas name := if name = "t" then some (.plain "t" ["id"]) else none
  commits := []
  others := [[], [[⟨"t", DecimalText.utf8 "1",
    some (buildRowValue Unit false (.plain "t" ["id"]) [some (DecimalText.utf8 "1")])⟩]]]
  txn := none
  cdc := []
  trace := []
  cursors := []
  rest := ()

def tableDb : WriteDb (M Unit) Unit Unit := sessionDb false (tablesOnly Unit)

def fromT : SelectStmt Unit :=
  ⟨[], false, [.wildcard], some (⟨"t", none, none, none⟩, []), none, [], none, [], none, none, none⟩

theorem reaches_fromT (r : Ref Unit) (h : Reaches fromT r) : IsTable r := by
  cases h with
  | here ht hstored hr =>
    obtain rfl := List.mem_singleton.mp ht
    obtain rfl := List.mem_singleton.mp hr
    trivial
  | derived ht hq h =>
    obtain rfl := List.mem_singleton.mp ht
    cases hq
  | cte hc h => cases hc
  | union hunion h => cases hunion
  | inner hq h => cases hq

/-- `SELECT EXISTS (SELECT * FROM t)` -/
def existsT : SelectStmt Unit :=
  ⟨[], false, [.expr (.exists fromT false) (some "found")], none, none, [], none, [], none,
    none, none⟩

def replyTo (w : World Unit) (stmt : Stmt Unit) : Except EvalError Reply :=
  ((execute tableDb 3 [] stmt).run.run w).1

end WireSessionReads
