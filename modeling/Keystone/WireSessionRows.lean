import Keystone.WireSessionReads

/-! # Statements row by row

With no other session at work, each row of a statement is all or nothing: if it fails, neither
tables nor published changes differ, and if it succeeds, one row was changed, checked against
the tables as they were right before. -/
namespace WireSessionRows

open EffectPredicates ExecutorDml ExecutorDmlEffects ExecutorEffects ExecutorEval ExecutorSelect
  ExecutorValue List SqlAst StorageInternalKey WireSession WireSessionReads

variable {F ρ : Type}

def IsRead (e : Event) : Prop := ∃ table key rows seen, e = .read table key rows seen

structure Same (w w' : World ρ) : Prop where
  schemas : w'.schemas = w.schemas
  commits : w'.commits = w.commits
  others : w'.others = w.others
  txn : w'.txn = w.txn
  cdc : w'.cdc = w.cdc
  trace : ∃ reads, w'.trace = w.trace ++ reads ∧ ∀ e ∈ reads, IsRead e

theorem Same.refl (w : World ρ) : Same w w := ⟨rfl, rfl, rfl, rfl, rfl, [], by simp, by simp⟩

theorem Same.trans (hab : Same a b) (hbc : Same b c) : Same a c := by
  obtain ⟨r₁, h₁, hr₁⟩ := hab.trace
  obtain ⟨r₂, h₂, hr₂⟩ := hbc.trace
  refine ⟨hbc.schemas.trans hab.schemas, hbc.commits.trans hab.commits, hbc.others.trans hab.others,
    hbc.txn.trans hab.txn, hbc.cdc.trans hab.cdc, r₁ ++ r₂, by rw [h₂, h₁, append_assoc], ?_⟩
  simp only [forall_mem_append]
  exact ⟨hr₁, hr₂⟩

theorem Same.view (h : Same w w') (handle : Option Unit) : w'.view handle = w.view handle := by
  simp [World.view, World.txnView, World.latest, h.commits, h.txn]

theorem same_observe (w : World ρ) (he : IsRead e) : Same w (w.observe e) :=
  ⟨rfl, rfl, rfl, rfl, rfl, [e], rfl, by simpa using he⟩

theorem Same.of_untouched (h : Untouched w w') : Same w w' := by
  obtain ⟨rest, rfl⟩ := h
  exact ⟨rfl, rfl, rfl, rfl, rfl, [], by simp, by simp⟩

def Looks (w w' : World ρ) : Prop := w.others = [] → Same w w'

theorem Looks.trans (hab : Looks a b) (hbc : Looks b c) : Looks a c := by
  intro ha
  have hb := hab ha
  exact hb.trans (hbc (hb.others.trans ha))

theorem closed_looks : Closed EvalError (Steps (ε := EvalError) (Looks (ρ := ρ))) :=
  closed_steps (fun w _ => .refl w) .trans

variable {α : Type}

theorem looks_op {f : World ρ → α × World ρ} (h : ∀ w, Same w (f w).2) : Steps Looks _ (op f) := by
  intro w hw
  rw [run_op, interfere_alone hw]
  exact h w

section Database

variable [Scalars F] {rest : WriteDb (M ρ) F Unit} (apart : Apart rest) (json : Bool)

include apart

omit apart in
theorem tables_looks (beside : Beside rest) (handle : Option Unit) :
    ServingFor (Steps Looks) (sessionDb json rest).toDb handle IsTable :=
  beside.serving json (fun w _ => .refl w) .trans (fun h _ => .of_untouched h)
    (fun _ => looks_op fun w => .refl w) fun _ => looks_op fun w => same_observe w ⟨_, _, _, _, rfl⟩

theorem serving_looks (handle : Option Unit) :
    Serving (Steps Looks) (sessionDb json rest).toDb handle :=
  apart.serving json (fun w _ => .refl w) .trans (fun h _ => .of_untouched h)
    (fun _ => looks_op fun w => .refl w) fun _ => looks_op fun w => same_observe w ⟨_, _, _, _, rfl⟩

omit apart in
theorem tables_reading (beside : Beside rest) (handle : Option Unit) :
    Reading (Steps Looks) (sessionDb json rest) handle where
  getTable := (tables_looks json beside handle).getTable
  txnScan name := (tables_looks json beside handle).txnScan name trivial
  txnRead _ _ := looks_op fun w => same_observe w ⟨_, _, _, _, rfl⟩
  randomKey := fun w _ => .of_untouched (beside.randomKey w)

theorem reading_looks (handle : Option Unit) :
    Reading (Steps Looks) (sessionDb json rest) handle :=
  tables_reading json apart.toBeside handle

omit apart in
/-- An expression whose queries reach no table function only looks. -/
theorem tables_eval (beside : Beside rest) (depth : ℕ)
    (he : ∀ q ∈ subqueries e, ∀ r, Reaches q r → IsTable r) (ctx : RowContext F) :
    Steps Looks _ (eval (evalEnv (sessionDb json rest).toDb
      (executeSelect (sessionDb json rest).toDb depth)) ctx e) := by
  have serving := tables_looks json beside none
  refine eval_closed closed_looks ctx e ⟨serving.call, fun q hq ctx => closed_looks.map ?_⟩
  exact executeSelect_closedFor closed_looks _ _ _ _ _ _ serving (.inl serving)
    (he q (List.mem_filterMap.mpr ⟨.inr q, hq, rfl⟩))

theorem eval_looks (depth : ℕ) (ctx : RowContext F) (e : Expr F) :
    Steps Looks _ (eval (evalEnv (sessionDb json rest).toDb
      (executeSelect (sessionDb json rest).toDb depth)) ctx e) := by
  have serving := serving_looks apart json none
  refine eval_closed closed_looks ctx e ⟨serving.call, fun q _ ctx => ?_⟩
  refine closed_looks.map ?_
  exact executeSelect_closed closed_looks serving (.inl serving)

end Database

def Outcome {α : Type} (w : World ρ) (out : Except EvalError α × World ρ)
    (Q : α → World ρ → Prop) : Prop :=
  match out with
  | (.error _, w') => Same w w'
  | (.ok a, w') => Q a w'

variable {w : World ρ}

theorem Outcome.imp (h : Outcome w out Q) (hQR : ∀ a w', Q a w' → R a w') : Outcome w out R := by
  rcases out with ⟨e | a, w'⟩
  · exact h
  · exact hQR a w' h

theorem Outcome.state {P : World ρ → Prop} (h : Outcome w out Q)
    (hsame : ∀ {w'}, Same w w' → P w') (hQ : ∀ a w', Q a w' → P w') : P out.2 := by
  rcases out with ⟨e | a, w'⟩
  · exact hsame h
  · exact hQ a w' h

theorem outcome_returning {x : M ρ α} {b : β} {Q : α → World ρ → Prop} {R : β → World ρ → Prop}
    (h : Outcome w (x.run.run w) Q) (hQR : ∀ a w', Q a w' → R b w') :
    Outcome w ((x >>= fun _ => pure b).run.run w) R := by
  rw [run_bind]
  rcases hrun : x.run.run w with ⟨e | a, w'⟩
  · rw [hrun] at h
    exact h
  · rw [hrun] at h
    exact hQR a w' h

/-- Behind a part that only looks, what is left starts from the same tables. -/
theorem outcome_bind (hw : w.others = []) {f : α → M ρ β} {Q : β → World ρ → Prop}
    (hx : Steps Looks _ x)
    (hf : ∀ a w₁, x.run.run w = (.ok a, w₁) → Same w w₁ → Outcome w₁ ((f a).run.run w₁) Q) :
    Outcome w ((x >>= f).run.run w) Q := by
  have hsame := hx w hw
  rw [run_bind]
  rcases hrun : x.run.run w with ⟨e | a, w₁⟩
  · simpa [Outcome, hrun] using hsame
  · rw [hrun] at hsame
    have h := hf a w₁ hrun hsame
    dsimp only
    rcases hrest : (f a).run.run w₁ with ⟨e | b, w₂⟩
    · rw [hrest] at h
      exact hsame.trans h
    · rw [hrest] at h
      exact h

structure Checked [Scalars F] (db : WriteDb (M ρ) F Unit) (schemas : String → Option TableSchema)
    (t : Tables) (schema : TableSchema) (cells : Row) (excludeKey : Option Bytes) : Prop where
  unique : ∀ group ∈ schema.uniqueGroups,
    violatesGroup F (t schema.name).entries cells excludeKey group = false
  referenced : ∀ fk ∈ schema.foreignKeys, ∀ val, cellAt cells fk.column = some val →
    ∃ ref idx, schemas fk.refTable = some ref ∧ ref.columnIndex fk.refColumn = some idx ∧
      ∃ kv ∈ (t fk.refTable).entries, cellAt (parseRow F kv.2) idx = some val
  json : ∀ rule ∈ schema.jsonSchemas, jsonRuleError db schema cells rule = none

section Checks

variable [Scalars F] {rest : WriteDb (M ρ) F Unit} (apart : Apart rest) {json : Bool}
  {handle : Option Unit} {schema : TableSchema} {cells : Row} {w w' : World ρ}

variable (hw : w.others = [])

include hw

theorem run_txnScan : (txnScan handle table).run.run w =
      (.ok (w.view handle table).entries, w.observe (readEvent w handle table none)) := by
  rw [txnScan, run_op, interfere_alone hw]
  rfl

theorem run_getTable : ((sessionDb json rest).getTable name).run.run w =
    (.ok (w.schemas name), w) := by
  simp [sessionDb, run_op, interfere_alone hw]

theorem checkUniqueConstraints_ok
    (h : (checkUniqueConstraints (sessionDb json rest) handle schema cells excludeKey).run.run w =
      (.ok (), w')) :
    ∀ group ∈ schema.uniqueGroups,
      violatesGroup F (w.view handle schema.name).entries cells excludeKey group = false := by
  unfold checkUniqueConstraints at h
  split at h
  · simp_all
  · obtain ⟨rows, w₁, hscan, h⟩ := run_bind_eq_ok.mp h
    have hrows : (w.view handle schema.name).entries = rows :=
      Except.ok.inj (congrArg Prod.fst ((run_txnScan hw).symm.trans hscan))
    subst hrows
    split at h
    · rename_i hfind
      simpa using hfind
    · cases h

theorem checkForeignKey_ok
    (h : (checkForeignKey (sessionDb json rest) handle schema cells fk).run.run w = (.ok (), w'))
    (hval : cellAt cells fk.column = some val) :
    ∃ ref idx, w.schemas fk.refTable = some ref ∧ ref.columnIndex fk.refColumn = some idx ∧
      ∃ kv ∈ (w.view handle fk.refTable).entries, cellAt (parseRow F kv.2) idx = some val := by
  simp only [checkForeignKey, hval] at h
  obtain ⟨found, w₁, hget, h⟩ := run_bind_eq_ok.mp h
  cases (run_getTable hw).symm.trans hget
  cases href : w.schemas fk.refTable with
  | none =>
    rw [href] at h
    cases h
  | some ref =>
    rw [href] at h
    dsimp only at h
    cases hidx : ref.columnIndex fk.refColumn with
    | none =>
      rw [hidx] at h
      cases h
    | some idx =>
      rw [hidx] at h
      obtain ⟨rows, w₂, hscan, h⟩ := run_bind_eq_ok.mp h
      have hrows : (w.view handle fk.refTable).entries = rows :=
        Except.ok.inj (congrArg Prod.fst ((run_txnScan hw).symm.trans hscan))
      subst hrows
      split at h
      case isFalse => cases h
      case isTrue hany =>
        simp only [parseRows, any_map, any_eq_true, Function.comp_apply, decide_eq_true_eq] at hany
        exact ⟨ref, idx, rfl, hidx, hany⟩

include apart

theorem checkForeignKeys_ok
    (h : (checkForeignKeys (sessionDb json rest) handle schema cells fks).run.run w =
      (.ok (), w')) :
    ∀ fk ∈ fks, ∀ val, cellAt cells fk.column = some val →
      ∃ ref idx, w.schemas fk.refTable = some ref ∧ ref.columnIndex fk.refColumn = some idx ∧
        ∃ kv ∈ (w.view handle fk.refTable).entries, cellAt (parseRow F kv.2) idx = some val := by
  induction fks generalizing w with
  | nil => simp
  | cons fk fks ih =>
    obtain ⟨_, w₁, hfirst, hrest⟩ := run_bind_eq_ok.mp h
    have hsame : Same w w₁ := by
      have reading := reading_looks apart json handle
      have := checkForeignKey_closed closed_looks (reading.getTable fk.refTable)
        (reading.txnScan fk.refTable) schema cells w hw
      rwa [hfirst] at this
    have hothers := ih (hsame.others.trans hw) hrest
    simp only [hsame.schemas, hsame.view] at hothers
    exact forall_mem_cons.mpr ⟨fun val hval => checkForeignKey_ok hw hfirst hval, hothers⟩

theorem checkRow_ok (h : (checkRow (sessionDb json rest) handle schema cells excludeKey).run.run w =
      (.ok (), w')) :
    Checked (sessionDb json rest) w.schemas (w.view handle) schema cells excludeKey := by
  have reading := reading_looks apart json handle
  obtain ⟨_, w₁, hunique, h⟩ := run_bind_eq_ok.mp h
  obtain ⟨_, w₂, hforeign, hjson⟩ := run_bind_eq_ok.mp h
  have hsame : Same w w₁ := by
    have := checkUniqueConstraints_closed closed_looks
      (reading.txnScan schema.name) cells excludeKey w hw
    rwa [hunique] at this
  have hreferenced := checkForeignKeys_ok apart (hsame.others.trans hw) hforeign
  simp only [hsame.schemas, hsame.view] at hreferenced
  refine ⟨checkUniqueConstraints_ok hw hunique, hreferenced, ?_⟩
  unfold checkJsonSchemas at hjson
  split at hjson
  case h_1 hfind => exact List.findSome?_eq_none_iff.mp hfind
  case h_2 => cases hjson

end Checks

def written (F : Type) [Scalars F] (binaryJson : Bool) (handle : Option Unit) (table : String)
    (schema : TableSchema) (key : Bytes) (cells : Row) (events : List CdcEvent) (w : World ρ) :
    World ρ :=
  { (w.observe (.wrote table schema key cells (w.view handle))).change handle
      ⟨table, key, some (buildRowValue F binaryJson schema cells)⟩ with cdc := w.cdc ++ events }

def deleted (handle : Option Unit) (table : String) (key : Bytes) (events : List CdcEvent)
    (w : World ρ) : World ρ :=
  { w.change handle ⟨table, key, none⟩ with cdc := w.cdc ++ events }

theorem change_keeps (w : World ρ) (handle : Option Unit) (c : Change) :
    (w.change handle c).schemas = w.schemas ∧ (w.change handle c).others = w.others ∧
      (w.change handle c).cdc = w.cdc ∧ (w.change handle c).trace = w.trace := by
  unfold World.change
  split <;> exact ⟨rfl, rfl, rfl, rfl⟩

section Rows

variable [Scalars F] {rest : WriteDb (M ρ) F Unit} {json : Bool}
  {handle : Option Unit} {schema : TableSchema} {table : String} {w : World ρ}

theorem written_schemas : (written F json handle table schema key cells events w).schemas =
    w.schemas :=
  (change_keeps (w.observe _) handle _).1

theorem written_others : (written F json handle table schema key cells events w).others =
    w.others :=
  (change_keeps (w.observe _) handle _).2.1

theorem written_trace : (written F json handle table schema key cells events w).trace =
      w.trace ++ [.wrote table schema key cells (w.view handle)] :=
  (change_keeps (w.observe _) handle _).2.2.2

theorem run_writeRow (hw : w.others = []) (key : Bytes) :
    ((sessionDb json rest).writeRow handle table schema key cells).run.run w =
      (.ok (), written F json handle table schema key cells [] w) := by
  have hcdc := (change_keeps (w.observe (.wrote table schema key cells (w.view handle))) handle
    ⟨table, key, some (buildRowValue F json schema cells)⟩).2.2.1
  simp only [sessionDb, writeRow, run_op, interfere_alone hw, written, append_nil]
  rw [← show _ = w.cdc from hcdc]

theorem run_txnDelete (hw : w.others = []) (key : Bytes) :
    ((sessionDb json rest).txnDelete handle table key).run.run w =
      (.ok (), deleted handle table key [] w) := by
  have hcdc := (change_keeps w handle ⟨table, key, none⟩).2.2.1
  simp only [sessionDb, txnDelete, run_op, interfere_alone hw, deleted, append_nil]
  rw [← hcdc]

theorem run_publishCdc (hw : w.others = []) (e : CdcEvent) :
    ((sessionDb json rest).publishCdc e).run.run w = (.ok (), { w with cdc := w.cdc ++ [e] }) := by
  simp [sessionDb, publishCdc, run_op, interfere_alone hw]

theorem run_publish_written (hw : w.others = []) (e : CdcEvent) :
    ((sessionDb json rest).publishCdc e).run.run
      (written F json handle table schema key cells [] w) =
        (.ok (), written F json handle table schema key cells [e] w) := by
  rw [run_publishCdc ((written_others).trans hw)]
  simp [written]

variable (apart : Apart rest) (hw : w.others = [])

include apart hw

omit apart in
theorem checkNewKey_ok (h : (checkNewKey (sessionDb json rest) handle table schema key).run.run w =
    (.ok (), w'))
    (hpk : schema.pkColumns ≠ []) : (w.view handle table).get? key = none := by
  unfold checkNewKey at h
  rw [if_neg (by simpa using hpk)] at h
  obtain ⟨found, w₁, hread, h⟩ := run_bind_eq_ok.mp h
  have hfound : (w.view handle table).get? key = found := by
    have hrun : ((sessionDb json rest).txnRead handle table key).run.run w =
        (.ok ((w.view handle table).get? key),
          w.observe (readEvent w handle table (some key))) := by
      simp [sessionDb, txnRead, run_op, interfere_alone hw]
    exact Except.ok.inj (congrArg Prod.fst (hrun.symm.trans hread))
  rw [hfound]
  cases found with
  | none => rfl
  | some v => cases h

def NewKey (t : Tables) (table : String) (schema : TableSchema) (cells : Row) (key : Bytes) :
    Prop :=
  schema.pkColumns ≠ [] → key = pkKey schema.pkColumns cells ∧ (t table).get? key = none

theorem newKey_of_run (hkey : (rowKeyFor (sessionDb json rest) schema cells).run.run w =
    (.ok key, w₁))
    (hfree : (checkNewKey (sessionDb json rest) handle table schema key).run.run w₁ =
      (.ok (), w₂)) :
    NewKey (w.view handle) table schema cells key := by
  intro hpk
  have hsame : Same w w₁ := by
    have := rowKeyFor_closed closed_looks (reading_looks apart json handle).randomKey
      schema cells w hw
    rwa [hkey] at this
  constructor
  · unfold rowKeyFor at hkey
    rw [if_neg (by simpa using hpk)] at hkey
    exact (Except.ok.inj (congrArg Prod.fst hkey)).symm
  · rw [← hsame.view]
    exact checkNewKey_ok (hsame.others.trans hw) hfree hpk

def Drawn (rest : WriteDb (M ρ) F Unit) (w : World ρ) (key : Bytes) : Prop :=
  ∃ w₁ w₂, Same w w₁ ∧ rest.randomKey.run.run w₁ = (.ok key, w₂)

omit apart hw in
structure Inserted (rest : WriteDb (M ρ) F Unit) (binaryJson : Bool) (depth : ℕ)
    (handle : Option Unit)
    (table : String) (schema : TableSchema) (columns : List String) (params : List (Value F))
    (values : List (Expr F)) (w mid : World ρ) (key : Bytes) (cells : Row) : Prop where
  same : Same w mid
  resolved : ∃ w₁, (resolveInsertRow (sessionDb binaryJson rest)
    (evalEnv (sessionDb binaryJson rest).toDb
      (executeSelect (sessionDb binaryJson rest).toDb depth))
    schema columns values params).run.run w = (.ok cells, w₁)
  checked : Checked (sessionDb binaryJson rest) w.schemas (w.view handle) schema cells none
  newKey : NewKey (w.view handle) table schema cells key
  drawn : schema.pkColumns = [] → Drawn rest w key

theorem insertRow_outcome (depth : ℕ) (columns : List String)
    (params : List (Value F)) (values : List (Expr F)) :
    Outcome w ((insertRow (sessionDb json rest) (executeSelect (sessionDb json rest).toDb depth)
      handle table schema columns params values).run.run w) fun _ w' => ∃ mid key cells,
        Inserted rest json depth handle table schema columns params values w mid key cells ∧
          w' = written F json handle table schema key cells
            [cdcEvent .insert table key none (some cells) schema] mid := by
  have reading := reading_looks apart json handle
  have evals := eval_looks apart json depth
  refine outcome_bind hw (resolveInsertRow_closed closed_looks (fun e _ ctx => evals ctx e)
    (fun _ _ _ _ e _ ctx => evals ctx e) params) fun cells w₁ hcells h₁ => ?_
  have hw₁ := h₁.others.trans hw
  refine outcome_bind hw₁ (checkRow_closed closed_looks (reading.checking schema) cells none)
    fun _ w₂ hcheck h₂ => ?_
  have hw₂ := h₂.others.trans hw₁
  refine outcome_bind hw₂ (rowKeyFor_closed closed_looks reading.randomKey schema cells)
    fun key w₃ hkey h₃ => ?_
  have hw₃ := h₃.others.trans hw₂
  refine outcome_bind hw₃ (checkNewKey_closed closed_looks (reading.txnRead table key) schema)
    fun _ w₄ hfree h₄ => ?_
  have hw₄ := h₄.others.trans hw₃
  have hchecked := checkRow_ok apart hw₁ hcheck
  have hnew := newKey_of_run apart hw₂ hkey hfree
  rw [h₁.view, h₁.schemas] at hchecked
  rw [h₂.view, h₁.view] at hnew
  have hdrawn (hpk : schema.pkColumns = []) : Drawn rest w key := by
    rw [rowKeyFor, if_pos (by simp [hpk])] at hkey
    exact ⟨w₂, w₃, h₁.trans h₂, hkey⟩
  rw [run_bind, run_writeRow hw₄]
  dsimp only
  rw [run_publish_written hw₄]
  exact ⟨w₄, key, cells, ⟨((h₁.trans h₂).trans h₃).trans h₄, ⟨w₁, hcells⟩, hchecked, hnew, hdrawn⟩,
    rfl⟩

omit apart hw in
structure Updated (rest : WriteDb (M ρ) F Unit) (binaryJson : Bool) (depth : ℕ)
    (handle : Option Unit)
    (stmt : UpdateStmt F) (schema : TableSchema) (params : List (Value F)) (kv : KeyValue)
    (w mid : World ρ) (cells : Row) : Prop where
  same : Same w mid
  assigned : ∃ row w₁ w₂, Same w w₁ ∧ cells =
    normalizeVectorCells (sessionDb binaryJson rest) schema row ∧
    (assignCells (evalEnv (sessionDb binaryJson rest).toDb
        (executeSelect (sessionDb binaryJson rest).toDb depth))
      { RowContext.new (parseRow F kv.2) (some schema) with params } schema stmt.assignments
      (parseRow F kv.2)).run.run w₁ = (.ok row, w₂)
  checked : Checked (sessionDb binaryJson rest) w.schemas (w.view handle) schema cells (some kv.1)

theorem updateRow_outcome (depth : ℕ) (stmt : UpdateStmt F)
    (params : List (Value F)) (kv : KeyValue) :
    Outcome w ((updateRow (sessionDb json rest) (executeSelect (sessionDb json rest).toDb depth)
      stmt handle schema params kv).run.run w) fun hit w' =>
        if hit then
          ∃ mid cells, Updated rest json depth handle stmt schema params kv w mid cells ∧
            w' = written F json handle stmt.table schema kv.1 cells
              [cdcEvent .update stmt.table kv.1 (some (parseRow F kv.2)) (some cells) schema] mid
        else Same w w' := by
  have reading := reading_looks apart json handle
  have evals := eval_looks apart json depth
  refine outcome_bind hw (matchesRow_closed closed_looks (fun e _ ctx => evals ctx e) _)
    fun found w₁ _ h₁ => ?_
  have hw₁ := h₁.others.trans hw
  cases found with
  | false => exact h₁
  | true =>
    refine outcome_bind hw₁ (assignCells_closed closed_looks (fun p _ ctx => evals ctx p.2) _ _ _)
      fun assigned w₂ hassigned h₂ => ?_
    have hw₂ := h₂.others.trans hw₁
    refine outcome_bind hw₂ (checkRow_closed closed_looks (reading.checking schema) _ _) fun _ w₃
      hcheck h₃ => ?_
    have hw₃ := h₃.others.trans hw₂
    have hchecked := checkRow_ok apart hw₂ hcheck
    rw [h₂.view, h₂.schemas, h₁.view, h₁.schemas] at hchecked
    rw [run_bind, run_writeRow hw₃]
    dsimp only
    rw [run_bind, run_publish_written hw₃]
    exact ⟨w₃, _, ⟨(h₁.trans h₂).trans h₃, ⟨assigned, w₁, w₂, h₁, rfl, hassigned⟩, hchecked⟩, rfl⟩

theorem deleteRow_outcome (depth : ℕ) (stmt : DeleteStmt F)
    (schema : Option TableSchema) (params : List (Value F)) (kv : KeyValue) :
    Outcome w ((deleteRow (sessionDb json rest) (executeSelect (sessionDb json rest).toDb depth)
      stmt handle schema params kv).run.run w) fun hit w' =>
        if hit then
          ∃ mid, Same w mid ∧ w' = deleted handle stmt.table kv.1
            (schema.map (cdcEvent .delete stmt.table kv.1 (some (parseRow F kv.2)) none)).toList mid
        else Same w w' := by
  have evals := eval_looks apart json depth
  refine outcome_bind hw (matchesRow_closed closed_looks (fun e _ ctx => evals ctx e) _)
    fun found w₁ _ h₁ => ?_
  have hw₁ := h₁.others.trans hw
  cases found with
  | false => exact h₁
  | true =>
    have halone : (deleted handle stmt.table kv.1 [] w₁).others = [] :=
      (change_keeps w₁ handle ⟨stmt.table, kv.1, none⟩).2.1.trans hw₁
    rw [if_pos rfl, run_bind, run_txnDelete hw₁]
    cases schema with
    | none => exact ⟨w₁, h₁, rfl⟩
    | some schema =>
      dsimp only
      rw [run_bind, run_publishCdc halone]
      exact ⟨w₁, h₁, by simp [deleted]⟩

omit [Scalars F] apart hw in
/-- The row that COPY makes of a line. -/
def copiedCells (schema : TableSchema) (target : List ℕ) (line : Bytes) : Row :=
  placeCells schema.columns.length target ((line.splitOn 9).map decodeCopyCell)

theorem insertCopyLine_outcome (target : List ℕ) (line : Bytes) :
    Outcome w ((insertCopyLine (sessionDb json rest) table schema target line).run.run w)
      fun _ w' => ((line.splitOn 9).map decodeCopyCell).length = target.length ∧
        ∃ key mid, Same w mid ∧ NewKey w.latest table schema (copiedCells schema target line) key ∧
          w' = written F json none table schema key (copiedCells schema target line) [] mid := by
  have reading := reading_looks apart json none
  unfold insertCopyLine
  dsimp only
  split
  · exact .refl w
  · rename_i hlength
    refine outcome_bind hw (rowKeyFor_closed closed_looks reading.randomKey schema _)
      fun key w₁ hkey h₁ => ?_
    have hw₁ := h₁.others.trans hw
    refine outcome_bind hw₁ (checkNewKey_closed closed_looks (reading.txnRead table key) schema)
      fun _ w₂ hfree h₂ => ?_
    have hnew := newKey_of_run apart hw hkey hfree
    rw [run_writeRow (h₂.others.trans hw₁)]
    exact ⟨not_not.mp hlength, key, w₂, h₁.trans h₂, hnew, rfl⟩

end Rows

/-- `CREATE TABLE t (id TEXT PRIMARY KEY, v TEXT NOT NULL UNIQUE)` -/
def keyed : TableSchema :=
  ⟨"t", [⟨"id", .text, false, none, true⟩, ⟨"v", .text, false, none, false⟩], [0], [[1]], [], []⟩

def keyedWorld : World Unit where
  schemas name := if name = "t" then some keyed else none
  commits := []
  others := []
  txn := none
  cdc := []
  trace := []
  cursors := []
  rest := ()

def text (s : String) : Expr Unit := .literal (.text (DecimalText.utf8 s))

def insertT (rows : List (List (Expr Unit))) : Stmt Unit := .insert ⟨"t", [], rows⟩

end WireSessionRows
