import Keystone.DatabaseAlterTable
import Keystone.GuardedRuns
import Keystone.WireSessionRows

/-! # ALTER TABLE among other sessions

The rows are read in one scan, rewritten one by one, and the schema changes last. -/
namespace WireSessionAlter

open DatabaseAlterTable DecimalText EffectPredicates ExecutorDml ExecutorEffects ExecutorEval
  ExecutorRowCodecs ExecutorSelect ExecutorValue GuardedRuns List OrderedMaps SqlAst
  StorageInternalKey WireSession WireSessionReads WireSessionRows

variable {F ρ : Type}

inductive ColumnAction where
  | setDefault (text : String)
  | dropDefault
  | setNotNull
  | dropNotNull
  deriving DecidableEq

inductive AlterTableAction where
  | alterColumn (name : String) (action : ColumnAction)
  | addColumn (column : ColumnDef)
  | dropColumn (name : String)
  deriving DecidableEq

structure AlterTableStmt where
  table : String
  action : AlterTableAction
  deriving DecidableEq

def ColumnAction.apply (action : ColumnAction) (c : ColumnDef) : ColumnDef :=
  match action with
  | .setDefault text => { c with default := some text }
  | .dropDefault => { c with default := none }
  | .setNotNull => { c with nullable := false }
  | .dropNotNull => { c with nullable := true }

def alterInSchema (schema : TableSchema) (idx : ℕ) (action : ColumnAction) : TableSchema :=
  { schema with columns := schema.columns.modify idx action.apply }

/-- A write that fails may have taken effect. -/
inductive WriteIo where
  | ok
  | failed (applied : Bool) (e : EvalError)

/-- How the writes of one statement end: those of the rows, by their number, and of the schema. -/
structure StoreIo where
  row : ℕ → WriteIo
  schema : Option EvalError

def StoreIo.allOk : StoreIo := ⟨fun _ => .ok, none⟩

def writeRewritten (table : String) (key value : Bytes) : M ρ Unit := op fun w =>
  ((), w.change none ⟨table, key, some value⟩)

def rewriteRow (io : WriteIo) (table : String) (key value : Bytes) : M ρ Unit :=
  match io with
  | .ok => writeRewritten table key value
  | .failed applied e => do
    if applied then writeRewritten table key value
    throw e

def saveSchema (schema : TableSchema) : M ρ Unit := op fun w =>
  ((), { w with schemas := Function.update w.schemas schema.name (some schema) })

def updateTableSchema (io : StoreIo) (schema : TableSchema) : M ρ Unit :=
  match io.schema with
  | none => saveSchema schema
  | some e => throw e

section Programs

variable [Scalars F] (db : WriteDb (M ρ) F Unit) (io : StoreIo)

def rewriteRows (F : Type) [Scalars F] (io : StoreIo) (table : String) (f : Row → Option Row) :
    ℕ → List KeyValue → M ρ Unit
  | _, [] => pure ()
  | n, kv :: rest =>
    match f (decodeRowCells F kv.2) with
    | none => throw .panic
    | some cells => do
      rewriteRow (io.row n) table kv.1 (encodeRowCells cells)
      rewriteRows F io table f (n + 1) rest

def columnMissing (name : String) : EvalError :=
  .other (utf8 ("column \"" ++ name ++ "\" does not exist"))

def cannotDrop (name reason : String) : EvalError :=
  .other (utf8 ("cannot drop column \"" ++ name ++ "\" because " ++ reason))

def addColumnTo (table : String) (column : ColumnDef) (cell : Cell) (schema : TableSchema) :
    M ρ Unit :=
  if schema.columns.any (·.name = column.name) then
    throw (.other (utf8 ("column \"" ++ column.name ++ "\" of relation \"" ++ table ++
      "\" already exists")))
  else do
    let rows ← db.txnScan none table
    rewriteRows F io table (fun cells => some (cells ++ [cell])) 0 rows
    updateTableSchema io (addToSchema schema column)

def dropColumnFrom (table column : String) (schema : TableSchema) : M ρ Unit :=
  match schema.columnIndex column with
  | none => throw (columnMissing column)
  | some idx =>
    if idx ∈ schema.pkColumns then throw (cannotDrop column "it is part of the primary key")
    else if schema.uniqueGroups.any (idx ∈ ·) then
      throw (cannotDrop column "it is part of a UNIQUE constraint")
    else if schema.foreignKeys.any (·.column = idx) then
      throw (cannotDrop column "it is part of a FOREIGN KEY constraint")
    else do
      -- the other kinds of indexes are not asked
      let indexed ← db.indexedColumn table column
      if indexed then throw (cannotDrop column "an index depends on it")
      else do
        let rows ← db.txnScan none table
        rewriteRows F io table (removeCell idx) 0 rows
        updateTableSchema io (dropFromSchema schema idx)

def alterColumnOf (column : String) (action : ColumnAction) (schema : TableSchema) : M ρ Unit :=
  match schema.columnIndex column with
  | none => throw (columnMissing column)
  | some idx => updateTableSchema io (alterInSchema schema idx action)

def withTable (table : String) (f : TableSchema → M ρ Unit) : M ρ Unit := do
  match ← db.getTable table with
  | none => throw (tableMissing table)
  | some schema => f schema

def defaultCell (depth : ℕ) (column : ColumnDef) : M ρ Cell :=
  match column.default with
  | some text => match db.parseExprText text with
    | .error e => throw e
    | .ok e => do
      let v ← eval (evalEnv db.toDb (executeSelect db.toDb depth)) RowContext.empty e
      pure v.toWireBytes
  | none =>
    if column.nullable then pure none
    else throw (.other (utf8 ("column \"" ++ column.name ++
      "\" is NOT NULL and has no default; existing rows cannot be backfilled")))

def executeAlterTable (depth : ℕ) (stmt : AlterTableStmt) : M ρ Unit :=
  match stmt.action with
  | .alterColumn column action => withTable db stmt.table (alterColumnOf io column action)
  | .addColumn column => do
    let cell ← defaultCell db depth column
    withTable db stmt.table (addColumnTo db io stmt.table column cell)
  | .dropColumn column => withTable db stmt.table (dropColumnFrom db io stmt.table column)

end Programs

def Seen (table : String) (w w' : World ρ) : Prop :=
  ∃ seen, w.others = seen ++ w'.others ∧ w'.schemas table = w.schemas table ∧
    w'.latest table = tablesAfter (w.commits ++ seen.flatten).flatten table

theorem Seen.refl (table : String) (w : World ρ) : Seen table w w :=
  ⟨[], rfl, rfl, by simp [World.latest]⟩

variable {table : String}

theorem Seen.trans (hab : Seen table a b) (hbc : Seen table b c) : Seen table a c := by
  obtain ⟨seen, hothers, hschemas, hlatest⟩ := hab
  obtain ⟨seen', hothers', hschemas', hlatest'⟩ := hbc
  refine ⟨seen ++ seen', by rw [hothers, hothers', append_assoc], hschemas'.trans hschemas, ?_⟩
  have hflatten : (a.commits ++ (seen ++ seen').flatten).flatten =
      (a.commits ++ seen.flatten).flatten ++ seen'.flatten.flatten := by simp
  rw [hlatest', flatten_append, hflatten, tablesAfter_more, tablesAfter_more]
  exact foldl_applyChange_congr _ hlatest

theorem seen_interfere (table : String) (w : World ρ) : Seen table w w.interfere := by
  unfold World.interfere
  split
  case h_1 => exact .refl table w
  case h_2 now later hothers => exact ⟨[now], hothers, rfl, by simp [World.latest]⟩

theorem interfere_schemas (w : World ρ) : w.interfere.schemas = w.schemas := by
  unfold World.interfere
  split <;> rfl

theorem seen_op {f : World ρ → α × World ρ} (h : ∀ w, Seen table w (f w).2) :
    Steps (Seen table) _ (op f) := by
  intro w
  exact (seen_interfere table w).trans (h _)

theorem Seen.of_untouched (h : Untouched w w') : Seen table w w' := by
  obtain ⟨rest, rfl⟩ := h
  exact ⟨[], rfl, rfl, by simp [World.latest]⟩

theorem closed_seen (table : String) :
    Closed EvalError (Steps (ε := EvalError) (Seen (ρ := ρ) table)) :=
  closed_steps (.refl table) .trans

def Quiet (table : String) (w : World ρ) : Prop :=
  ∀ batches ∈ w.others, ∀ batch ∈ batches, ∀ c ∈ batch, c.table ≠ table

theorem Seen.quiet (h : Seen table w w') (quiet : Quiet table w) :
    Quiet table w' ∧ w'.latest table = w.latest table := by
  obtain ⟨seen, hothers, -, hlatest⟩ := h
  refine ⟨fun batches hbatches => quiet batches (by simp [hothers, hbatches]), ?_⟩
  rw [hlatest, flatten_append, tablesAfter_other]
  · rfl
  · intro c hc
    obtain ⟨batch, hbatch, hc⟩ := mem_flatten.mp hc
    obtain ⟨batches, hbatches, hbatch⟩ := mem_flatten.mp hbatch
    exact quiet batches (by simp [hothers, hbatches]) batch hbatch c hc

section Database

variable [Scalars F] {rest : WriteDb (M ρ) F Unit} (apart : Apart rest) (json : Bool)
  (table : String)

include apart

theorem serving_seen (handle : Option Unit) :
    Serving (Steps (Seen table)) (sessionDb json rest).toDb handle :=
  apart.serving json (.refl table) .trans .of_untouched (fun _ => seen_op (.refl table))
    fun _ => seen_op fun w => .refl table w

theorem defaultCell_seen (depth : ℕ) (column : ColumnDef) :
    Steps (Seen table) _ (defaultCell (sessionDb json rest) depth column) := by
  have closed := closed_seen (ρ := ρ) table
  have serving := serving_seen apart json table none
  unfold defaultCell
  split
  case h_1 text _ =>
    split
    case h_1 e _ => exact closed.throw e
    case h_2 e _ =>
      refine closed.map (eval_closed closed _ e ⟨serving.call, fun q _ ctx => ?_⟩)
      refine closed.map ?_
      exact executeSelect_closed closed serving (.inl serving)
  case h_2 =>
    split
    · exact closed.pure none
    · exact closed.throw _

omit apart in
theorem rewriteRows_closed (closed : Closed EvalError P)
    (hwrite : ∀ key value, P _ (writeRewritten (ρ := ρ) table key value)) (io : StoreIo) (n : ℕ)
    (rows : List KeyValue) : P _ (rewriteRows F io table f n rows) := by
  have hrow io key value : P _ (rewriteRow (ρ := ρ) io table key value) := by
    unfold rewriteRow
    split
    · exact hwrite key value
    · split
      · exact closed.bind (hwrite key value) fun _ => closed.throw _
      · exact closed.throw _
  induction rows generalizing n with
  | nil => exact closed.pure ()
  | cons kv rows ih =>
    unfold rewriteRows
    split
    · exact closed.throw _
    · exact closed.bind (hrow _ _ _) fun _ => ih (n + 1)

omit apart in
theorem rewriteRows_seen (hne : other ≠ table) (io : StoreIo) (rows : List KeyValue) :
    Steps (Seen (ρ := ρ) table) _ (rewriteRows F io other f 0 rows) := by
  refine rewriteRows_closed other (closed_seen table)
    (fun key value => seen_op fun w => ?_) io 0 rows
  refine ⟨[], rfl, rfl, ?_⟩
  simp [World.latest, World.change, WireSession.tablesAfter_append, applyChange,
    Function.update_of_ne hne.symm]

omit apart in
theorem updateTableSchema_seen (io : StoreIo) (hne : schema.name ≠ table) :
    Steps (Seen (ρ := ρ) table) _ (updateTableSchema io schema) := by
  unfold updateTableSchema
  split
  · exact seen_op fun w => ⟨[], rfl, Function.update_of_ne hne.symm .., by simp [World.latest]⟩
  · exact (closed_seen table).throw _

omit apart in
theorem run_withTable : (withTable (sessionDb json rest) table f).run.run w =
      match w.schemas table with
      | none => (.error (tableMissing table), w.interfere)
      | some schema => (f schema).run.run w.interfere := by
  rw [withTable, run_bind]
  simp only [sessionDb, run_op, interfere_schemas]
  cases w.schemas table <;> rfl

omit apart in
theorem withTable_seen
    (h : ∀ schema, w.schemas other = some schema → Steps (Seen table) _ (f schema)) :
    Seen table w ((withTable (sessionDb json rest) other f).run.run w).2 := by
  rw [run_withTable]
  cases hschema : w.schemas other with
  | none => exact seen_interfere table w
  | some schema => exact (seen_interfere table w).trans (h schema hschema _)

theorem executeAlterTable_seen (io : StoreIo) (depth : ℕ) (hne : stmt.table ≠ table)
    (named : ∀ schema, w.schemas stmt.table = some schema → schema.name = stmt.table) :
    Seen table w ((executeAlterTable (sessionDb json rest) io depth stmt).run.run w).2 := by
  have closed := closed_seen (ρ := ρ) table
  have serving := serving_seen apart json table none
  obtain ⟨other, action⟩ := stmt
  cases action with
  | alterColumn column action =>
    refine withTable_seen json table fun schema hschema => ?_
    have hname : schema.name ≠ table := (named schema hschema).symm ▸ hne
    unfold alterColumnOf
    split
    · exact closed.throw _
    · exact updateTableSchema_seen table io hname
  | dropColumn column =>
    refine withTable_seen json table fun schema hschema => ?_
    have hname : schema.name ≠ table := (named schema hschema).symm ▸ hne
    unfold dropColumnFrom
    split
    · exact closed.throw _
    split_ifs
    iterate 3 exact closed.throw _
    refine closed.bind (serving.indexedColumn rfl other column) fun indexed => ?_
    split_ifs
    · exact closed.throw _
    refine closed.bind (serving.txnScan other) fun rows => ?_
    exact closed.bind (rewriteRows_seen table hne io rows) fun _ =>
      updateTableSchema_seen table io hname
  | addColumn column =>
    have hdefault := defaultCell_seen apart json table depth column w
    obtain ⟨-, -, hschemas, -⟩ := defaultCell_seen apart json other depth column w
    simp only [executeAlterTable, run_bind]
    cases hrun : (defaultCell (sessionDb json rest) depth column).run.run w with
    | mk result w₁ =>
      rw [hrun] at hdefault hschemas
      cases result with
      | error e => exact hdefault
      | ok cell =>
        refine hdefault.trans (withTable_seen json table fun schema hschema => ?_)
        have hname : schema.name ≠ table := by
          rw [named schema (hschemas ▸ hschema)]
          exact hne
        unfold addColumnTo
        split_ifs
        · exact closed.throw _
        refine closed.bind (serving.txnScan other) fun rows => ?_
        exact closed.bind (rewriteRows_seen table hne io rows) fun _ =>
          updateTableSchema_seen table io hname

end Database

def tableOf (w : World ρ) (table : String) : Option Table :=
  (w.schemas table).map fun schema => ⟨schema, (w.latest table).get?⟩

structure Ready (F : Type) [Scalars F] (table : String) (w : World ρ) : Prop where
  quiet : Quiet table w
  named : ∀ schema, w.schemas table = some schema → schema.name = table
  sound : ∀ t, tableOf w table = some t → Sound F t

def Evolved (F : Type) [Scalars F] (dropped : List String) (table : String) (w w' : World ρ) :
    Prop :=
  match tableOf w table, tableOf w' table with
  | none, none => True
  | some t, some t' => Kept F dropped t t'
  | _, _ => False

section Altered

variable [Scalars F] {table : String} {w w' : World ρ}

theorem Seen.tableOf (h : Seen table w w') (quiet : Quiet table w) :
    tableOf w' table = tableOf w table := by
  have hschemas : w'.schemas table = w.schemas table := h.choose_spec.2.1
  rw [WireSessionAlter.tableOf, WireSessionAlter.tableOf, hschemas, (h.quiet quiet).2]

theorem Seen.ready (h : Seen table w w') (ready : Ready F table w) : Ready F table w' := by
  have hschemas : w'.schemas table = w.schemas table := h.choose_spec.2.1
  refine ⟨(h.quiet ready.quiet).1, ?_, ?_⟩
  · rw [hschemas]
    exact ready.named
  · rw [h.tableOf ready.quiet]
    exact ready.sound

theorem evolved_of_tableOf (h : tableOf w' table = tableOf w table) : Evolved F [] table w w' := by
  unfold Evolved
  rw [h]
  cases tableOf w table with
  | none => trivial
  | some t => exact .refl t

theorem Evolved.trans (hab : Evolved F dropped table a b)
    (hbc : Evolved F dropped' table b c) : Evolved F (dropped ++ dropped') table a c := by
  unfold Evolved at *
  cases ha : WireSessionAlter.tableOf a table <;> cases hb : WireSessionAlter.tableOf b table <;>
    cases hc : WireSessionAlter.tableOf c table <;> simp_all only
  exact hab.trans hbc

theorem latest_change_none :
    (w.change none ⟨table, key, some value⟩).latest table = (w.latest table).insert key value := by
  simp [World.latest, World.change, WireSession.tablesAfter_append, applyChange, changeRows]

variable {f : Row → Option Row} {g : Row → Row}

theorem run_rewriteRows
    (hf : ∀ kv ∈ rows, f (decodeRowCells F kv.2) = some (g (decodeRowCells F kv.2)))
    (hnodup : (rows.map Prod.fst).Nodup) (quiet : Quiet table w) (n : ℕ) :
    ∃ w', (rewriteRows F .allOk table f n rows).run.run w = (.ok (), w') ∧
      w'.schemas = w.schemas ∧ Quiet table w' ∧
      (∀ key value, (key, value) ∈ rows →
        (w'.latest table).get? key = some (encodeRowCells (g (decodeRowCells F value)))) ∧
      ∀ key, key ∉ rows.map Prod.fst → (w'.latest table).get? key = (w.latest table).get? key := by
  induction rows generalizing w n with
  | nil => exact ⟨w, rfl, rfl, quiet, by simp, fun _ _ => rfl⟩
  | cons kv rows ih =>
    simp only [forall_mem_cons] at hf
    rw [map_cons, nodup_cons] at hnodup
    obtain ⟨hquiet, hlatest⟩ := (seen_interfere table w).quiet quiet
    set cells := encodeRowCells (g (decodeRowCells F kv.2))
    have hstep : (rewriteRow (StoreIo.allOk.row n) table kv.1 cells).run.run w =
      (.ok (), w.interfere.change none ⟨table, kv.1, some cells⟩) := rfl
    generalize hw₁ : w.interfere.change none ⟨table, kv.1, some cells⟩ = w₁ at hstep
    have hget key : (w₁.latest table).get? key =
        if key = kv.1 then some cells else (w.latest table).get? key := by
      rw [← hw₁, latest_change_none, hlatest, OrderedMap.get?_insert]
      by_cases hkey : key = kv.1
      · simp
      · simp
    have hschemas : w₁.schemas = w.schemas := by
      rw [← hw₁, (change_keeps ..).1, interfere_schemas]
    have hquiet₁ : Quiet table w₁ := by
      unfold Quiet
      rw [← hw₁, (change_keeps ..).2.1]
      exact hquiet
    obtain ⟨w', hrun, hschemas', hquiet', hrows, hothers⟩ := ih hf.2 hnodup.2 hquiet₁ (n + 1)
    refine ⟨w', ?_, hschemas'.trans hschemas, hquiet', ?_, ?_⟩
    · rw [rewriteRows, hf.1]
      exact run_bind_eq_ok.mpr ⟨(), w₁, hstep, hrun⟩
    · simp only [mem_cons]
      rintro key value (rfl | hmem)
      · rw [hothers key hnodup.1, hget, if_pos rfl]
      · exact hrows key value hmem
    · intro key hkey
      simp only [map_cons, mem_cons, not_or] at hkey
      rw [hothers key hkey.2, hget, if_neg hkey.1]

variable {schema : TableSchema}

theorem tableOf_eq_some (h : w.schemas table = some schema) :
    tableOf w table = some ⟨schema, (w.latest table).get?⟩ := by
  simp [tableOf, h]

theorem ready_evolved (quiet : Quiet table w') (htable : tableOf w' table = some t')
    (hname : t'.schema.name = table) (sound : Sound F t') (hold : tableOf w table = some t)
    (kept : Kept F dropped t t') :
    Ready F table w' ∧ Evolved F dropped table w w' := by
  refine ⟨⟨quiet, fun s hs => ?_, fun u hu => ?_⟩, ?_⟩
  · have heq : some ⟨s, (w'.latest table).get?⟩ = some t' := (tableOf_eq_some hs).symm.trans htable
    rw [← hname, ← Option.some.inj heq]
  · rw [htable] at hu
    exact Option.some.inj hu ▸ sound
  · unfold Evolved
    rw [htable, hold]
    exact kept

variable {schema' : TableSchema}

theorem run_updateTableSchema (hname : schema'.name = table) (quiet : Quiet table w) :
    ∃ w', (updateTableSchema .allOk schema').run.run w = (.ok (), w') ∧ Quiet table w' ∧
      tableOf w' table = some ⟨schema', (w.latest table).get?⟩ := by
  obtain ⟨hquiet, hlatest⟩ := (seen_interfere table w).quiet quiet
  refine ⟨_, rfl, hquiet, ?_⟩
  rw [← hlatest]
  exact tableOf_eq_some (by simp [hname])

theorem run_rewriteTable (hname : schema'.name = table) (quiet : Quiet table w)
    (hf : ∀ kv ∈ (w.latest table).entries,
      f (decodeRowCells F kv.2) = some (g (decodeRowCells F kv.2))) :
    ∃ w', (do rewriteRows F .allOk table f 0 (w.latest table).entries
              updateTableSchema .allOk schema').run.run w = (.ok (), w') ∧
      Quiet table w' ∧
      tableOf w' table = some (Table.mapRows (F := F) ⟨schema,
        (w.latest table).get?⟩ schema' g) := by
  obtain ⟨w₁, hrun, hschemas, hquiet, hrows, hothers⟩ :=
    run_rewriteRows hf (w.latest table).nodup_keys quiet 0
  obtain ⟨w₂, hupdate, hquiet', htable⟩ := run_updateTableSchema hname hquiet
  refine ⟨w₂, run_bind_eq_ok.mpr ⟨(), w₁, hrun, hupdate⟩, hquiet', htable.trans ?_⟩
  simp only [Table.mapRows, Option.some.injEq, Table.mk.injEq, true_and]
  funext key
  cases hkey : (w.latest table).get? key with
  | none =>
    rw [hothers key, hkey]
    · rfl
    · intro hmem
      obtain ⟨v, hv⟩ := OrderedMap.mem_keys.mp hmem
      rw [hkey] at hv
      cases hv
  | some value => exact hrows key value (OrderedMap.get?_eq_some.mp hkey)

def AlterTableStmt.dropped (stmt : AlterTableStmt) (table : String) : List String :=
  match stmt.action with
  | .dropColumn column => if stmt.table = table then [column] else []
  | _ => []

variable {rest : WriteDb (M ρ) F Unit} {json : Bool}

theorem rewriteTable_evolved (ready : Ready F table w) (hschema : w.schemas table = some schema)
    (hname : schema'.name = table)
    (hf : ∀ kv ∈ (w.latest table).entries,
      f (decodeRowCells F kv.2) = some (g (decodeRowCells F kv.2)))
    (sound : Sound F (Table.mapRows (F := F) ⟨schema, (w.latest table).get?⟩ schema' g))
    (kept : Kept F dropped ⟨schema, (w.latest table).get?⟩
      (Table.mapRows (F := F) ⟨schema, (w.latest table).get?⟩ schema' g)) :
    let w' := ((do let rows ← (sessionDb json rest).txnScan none table
                   rewriteRows F .allOk table f 0 rows
                   updateTableSchema .allOk schema').run.run w).2
    Ready F table w' ∧ Evolved F dropped table w w' := by
  intro w'
  obtain ⟨hquiet, hlatest⟩ := (seen_interfere table w).quiet ready.quiet
  -- the scan returns the rows and leaves a record of itself
  generalize hw₁ : w.interfere.observe (readEvent w.interfere none table none) = w₁
  have hscan : ((sessionDb json rest).txnScan none table).run.run w =
      (.ok (w₁.latest table).entries, w₁) := by
    subst hw₁
    rfl
  have hlatest₁ : w₁.latest table = w.latest table := by
    rw [← hw₁, ← hlatest]
    rfl
  have hquiet₁ : Quiet table w₁ := hw₁ ▸ hquiet
  obtain ⟨w₂, hrun, hquiet₂, htable⟩ := run_rewriteTable hname hquiet₁ (hlatest₁ ▸ hf)
  have hw' : w' = w₂ := by
    have hall : (do let rows ← (sessionDb json rest).txnScan none table
                    rewriteRows F .allOk table f 0 rows
                    updateTableSchema .allOk schema').run.run w = (.ok (), w₂) :=
      run_bind_eq_ok.mpr ⟨_, w₁, hscan, hrun⟩
    exact congrArg Prod.snd hall
  rw [hlatest₁] at htable
  rw [hw']
  exact ready_evolved hquiet₂ htable hname sound (tableOf_eq_some hschema) kept

theorem Seen.unchanged (h : Seen table w w') (ready : Ready F table w) :
    Ready F table w' ∧ Evolved F dropped table w w' := by
  refine ⟨h.ready ready, ?_⟩
  have hevolved := evolved_of_tableOf (F := F) (h.tableOf ready.quiet)
  unfold Evolved at *
  split at hevolved
  case h_1 => trivial
  case h_2 => exact hevolved.weaken
  case h_3 => exact hevolved

theorem addColumnTo_evolved (hcell : Rewritable F cell) (ready : Ready F table w)
    (hschema : w.schemas table = some schema) :
    let w' := ((addColumnTo (sessionDb json rest) .allOk table column cell schema).run.run w).2
    Ready F table w' ∧ Evolved F [] table w w' := by
  unfold addColumnTo
  have sound := ready.sound _ (tableOf_eq_some hschema)
  split
  case isTrue => exact (Seen.refl table w).unchanged ready
  case isFalse hnew =>
    have hnew' : column.name ∉ schema.columns.map ColumnDef.name := by
      intro hmem
      obtain ⟨c, hc, hname⟩ := mem_map.mp hmem
      exact hnew (any_eq_true.mpr ⟨c, hc, decide_eq_true hname⟩)
    exact rewriteTable_evolved ready hschema (ready.named schema hschema) (fun _ _ => rfl)
      (sound_addColumn sound hnew' hcell) (kept_addColumn sound hnew' hcell)

theorem dropColumnFrom_evolved (apart : Apart rest) (ready : Ready F table w)
    (hschema : w.schemas table = some schema)
    (hrules : ∀ rule ∈ schema.jsonSchemas, rule.column ≠ column) :
    let w' := ((dropColumnFrom (sessionDb json rest) .allOk table column schema).run.run w).2
    Ready F table w' ∧ Evolved F [column] table w w' := by
  have unchanged : Ready F table w ∧ Evolved F [column] table w w :=
    (Seen.refl table w).unchanged ready
  have sound := ready.sound _ (tableOf_eq_some hschema)
  unfold dropColumnFrom
  split
  case h_1 => exact unchanged
  case h_2 idx hidx =>
    split_ifs with hpk hunique hforeign
    · exact unchanged
    · exact unchanged
    · exact unchanged
    have hfree : idx ∉ positions schema := by
      simp only [positions, mem_append, mem_flatten, mem_map, not_or, not_exists, not_and]
      simp only [any_eq_true, decide_eq_true_eq, not_exists, not_and] at hunique hforeign
      exact ⟨hpk, hunique, hforeign⟩
    have hlt : idx < schema.columns.length :=
      lt_of_nameAt ((columnIndex_eq_some sound.names).mp hidx)
    have hindexed : Seen table w (((sessionDb json rest).indexedColumn table column).run.run w).2 :=
      .of_untouched (apart.indexedColumn table column w)
    rw [run_bind]
    generalize ((sessionDb json rest).indexedColumn table column).run.run w = outcome at hindexed
    obtain ⟨_ | indexed, w₁⟩ := outcome
    · exact hindexed.unchanged ready
    obtain ⟨ready₁, hevolved₁⟩ : Ready F table w₁ ∧ Evolved F [] table w w₁ :=
      hindexed.unchanged ready
    have hschema₁ : w₁.schemas table = some schema := hindexed.choose_spec.2.1.trans hschema
    dsimp only
    split
    case isTrue => exact hindexed.unchanged ready
    case isFalse =>
      have sound₁ := ready₁.sound _ (tableOf_eq_some hschema₁)
      have hremove : ∀ kv ∈ (w₁.latest table).entries, removeCell idx (decodeRowCells F kv.2) =
          some ((decodeRowCells F kv.2).eraseIdx idx) := by
        intro kv hkv
        have hlength := sound₁.length kv.1 kv.2 (OrderedMap.get?_eq_some.mpr hkv)
        rw [removeCell, if_pos (by rw [hlength]; exact hlt)]
      have hname : (dropFromSchema schema idx).name = table := ready.named schema hschema
      refine And.imp_right hevolved₁.trans ?_
      exact rewriteTable_evolved ready₁ hschema₁ hname hremove
        (sound_dropColumn sound₁ hidx hfree hrules) (kept_dropColumn sound₁ hidx hfree)

omit [Scalars F] in
theorem names_alterInSchema (schema : TableSchema) (idx : ℕ) (action : ColumnAction) :
    (alterInSchema schema idx action).columns.map ColumnDef.name =
      schema.columns.map ColumnDef.name := by
  refine ext_getElem? fun i => ?_
  rw [List.getElem?_map, List.getElem?_map, alterInSchema, List.getElem?_modify]
  by_cases heq : idx = i
  · cases action <;> cases schema.columns[i]? <;> simp [heq, ColumnAction.apply]
  · cases schema.columns[i]? <;> simp [heq]

theorem alterColumnOf_evolved (ready : Ready F table w) (hschema : w.schemas table = some schema) :
    let w' := ((alterColumnOf .allOk column action schema).run.run w).2
    Ready F table w' ∧ Evolved F [] table w w' := by
  have sound := ready.sound _ (tableOf_eq_some hschema)
  unfold alterColumnOf
  split
  case h_1 => exact (Seen.refl table w).unchanged ready
  case h_2 idx hidx =>
    have hcolumns := names_alterInSchema schema idx action
    have hpositions : positions (alterInSchema schema idx action) = positions schema := rfl
    have hname : (alterInSchema schema idx action).name = table := ready.named schema hschema
    obtain ⟨w', hrun, hquiet, htable⟩ := run_updateTableSchema hname ready.quiet
    have hsound : Sound F ⟨alterInSchema schema idx action, (w.latest table).get?⟩ :=
      sound_same (t := ⟨schema, _⟩) hcolumns hpositions rfl sound
    rw [hrun]
    exact ready_evolved hquiet htable hname hsound (tableOf_eq_some hschema)
      (kept_same hcolumns sound rfl rfl rfl rfl)

def Fits (db : WriteDb (M ρ) F Unit) (depth : ℕ) (stmt : AlterTableStmt) : Prop :=
  ∀ column, stmt.action = .addColumn column → ∀ w cell w',
    (defaultCell db depth column).run.run w = (.ok cell, w') → Rewritable F cell

theorem withTable_evolved {f : TableSchema → M ρ Unit} (ready : Ready F table w)
    (h : ∀ schema, w.schemas table = some schema → ∀ w, Ready F table w →
      w.schemas table = some schema →
      Ready F table ((f schema).run.run w).2 ∧ Evolved F dropped table w ((f schema).run.run w).2) :
    let w' := ((withTable (sessionDb json rest) table f).run.run w).2
    Ready F table w' ∧ Evolved F dropped table w w' := by
  have hseen := seen_interfere table w
  obtain ⟨hready, hevolved⟩ : Ready F table w.interfere ∧ Evolved F [] table w w.interfere :=
    hseen.unchanged ready
  rw [run_withTable]
  cases hschema : w.schemas table with
  | none => exact hseen.unchanged ready
  | some schema =>
    have hschema' : w.interfere.schemas table = some schema := by rw [interfere_schemas, hschema]
    exact And.imp_right hevolved.trans (h schema hschema w.interfere hready hschema')

/-- What a dropped column leaves behind is none of its rules, and no foreign key of any table
refers to it. -/
def Unreferred (w : World ρ) (stmt : AlterTableStmt) : Prop :=
  ∀ column, stmt.action = .dropColumn column → ∀ schema, w.schemas stmt.table = some schema →
    (∀ rule ∈ schema.jsonSchemas, rule.column ≠ column) ∧
      ∀ other s, w.schemas other = some s → ∀ fk ∈ s.foreignKeys, fk.refTable = stmt.table →
        fk.refColumn ≠ column

theorem executeAlterTable_evolved (apart : Apart rest)
    (fits : Fits (sessionDb json rest) depth stmt) (hfree : Unreferred w stmt)
    (ready : Ready F stmt.table w) :
    let w' := ((executeAlterTable (sessionDb json rest) .allOk depth stmt).run.run w).2
    Ready F stmt.table w' ∧ Evolved F (stmt.dropped stmt.table) stmt.table w w' := by
  obtain ⟨table, action⟩ := stmt
  cases action with
  | alterColumn column action =>
    exact withTable_evolved ready fun schema _ w hready hschema =>
      alterColumnOf_evolved hready hschema
  | dropColumn column =>
    have hdropped : AlterTableStmt.dropped ⟨table, .dropColumn column⟩ table = [column] :=
      if_pos rfl
    rw [hdropped]
    exact withTable_evolved ready fun schema hstart w hready hschema =>
      dropColumnFrom_evolved apart hready hschema (hfree column rfl schema hstart).1
  | addColumn column =>
    have hdefault := defaultCell_seen apart json table depth column w
    simp only [executeAlterTable, run_bind]
    cases hrun : (defaultCell (sessionDb json rest) depth column).run.run w with
    | mk result w₁ =>
      rw [hrun] at hdefault
      cases result with
      | error e => exact hdefault.unchanged ready
      | ok cell =>
        have hcell := fits column rfl w cell w₁ hrun
        obtain ⟨hready, hevolved⟩ : Ready F table w₁ ∧ Evolved F [] table w w₁ :=
          hdefault.unchanged ready
        refine And.imp_right hevolved.trans ?_
        exact withTable_evolved hready fun schema _ w hready hschema =>
          addColumnTo_evolved hcell hready hschema

/-! The foreign keys of all tables: a statement changes one schema, last. -/

def Referred (w : World ρ) : Prop :=
  ∀ table schema, w.schemas table = some schema → ∀ other s, w.schemas other = some s →
    ∀ fk ∈ s.foreignKeys, fk.refTable = table →
      fk.refColumn ∈ schema.columns.map ColumnDef.name

def SchemasKept (w w' : World ρ) : Prop := w'.schemas = w.schemas

omit [Scalars F] in
theorem closed_schemasKept :
    Closed EvalError (Steps (ε := EvalError) (SchemasKept (ρ := ρ))) :=
  closed_steps (fun _ => rfl) fun hab hbc => Eq.trans hbc hab

omit [Scalars F] in
theorem schemasKept_op {f : World ρ → α × World ρ} (h : ∀ w, (f w).2.schemas = w.schemas) :
    Steps SchemasKept _ (op f) :=
  fun w => (h _).trans (interfere_schemas w)

theorem serving_schemasKept (apart : Apart rest) :
    Serving (Steps SchemasKept) (sessionDb json rest).toDb none :=
  apart.serving json (fun _ => rfl) (fun hab hbc => Eq.trans hbc hab)
    (fun ⟨_, h⟩ => by rw [SchemasKept, h]) (fun _ => schemasKept_op fun _ => rfl)
    fun _ => schemasKept_op fun _ => rfl

theorem rewriteRows_schemasKept (io : StoreIo) (rows : List KeyValue) :
    Steps (SchemasKept (ρ := ρ)) _ (rewriteRows F io table f 0 rows) :=
  rewriteRows_closed table closed_schemasKept
    (fun _ _ => schemasKept_op fun _ => (change_keeps ..).1) io 0 rows

/-- The schema of the table is as it was, or the one that the action makes of it. -/
inductive Resulting (schema : TableSchema) : AlterTableAction → TableSchema → Prop where
  | added (column) : Resulting schema (.addColumn column) (addToSchema schema column)
  | dropped (column idx) (hidx : schema.columnIndex column = some idx) :
      Resulting schema (.dropColumn column) (dropFromSchema schema idx)
  | altered (column action idx) :
      Resulting schema (.alterColumn column action) (alterInSchema schema idx action)

def SchemaStep (table : String) (schema : TableSchema) (action : AlterTableAction)
    (w w' : World ρ) : Prop :=
  w'.schemas = w.schemas ∨ ∃ schema', Resulting schema action schema' ∧
    w'.schemas = Function.update w.schemas table (some schema')

omit [Scalars F] in
theorem schemaStep_save (hresult : Resulting schema action schema') (hname : schema'.name = table)
    (io : StoreIo) (w : World ρ) :
    SchemaStep table schema action w ((updateTableSchema io schema').run.run w).2 := by
  unfold updateTableSchema
  split
  · refine .inr ⟨schema', hresult, ?_⟩
    change Function.update w.interfere.schemas schema'.name (some schema') = _
    rw [interfere_schemas, hname]
  · exact .inl rfl

omit [Scalars F] in
theorem SchemaStep.after {x : M ρ α} {k : α → M ρ Unit} (hx : Steps SchemasKept _ x)
    (hk : ∀ a w, SchemaStep table schema action w ((k a).run.run w).2) (w : World ρ) :
    SchemaStep table schema action w ((x >>= k).run.run w).2 := by
  have hkept := hx w
  rw [run_bind]
  rcases hrun : x.run.run w with ⟨e | a, w₁⟩
  · rw [hrun] at hkept
    exact .inl hkept
  · rw [hrun] at hkept
    have hstep := hk a w₁
    unfold SchemaStep at hstep ⊢
    rwa [show w₁.schemas = w.schemas from hkept] at hstep

theorem executeAlterTable_schemas (apart : Apart rest) (io : StoreIo) (depth : ℕ)
    (stmt : AlterTableStmt) (w : World ρ)
    (named : ∀ schema, w.schemas stmt.table = some schema → schema.name = stmt.table) :
    let w' := ((executeAlterTable (sessionDb json rest) io depth stmt).run.run w).2
    w'.schemas = w.schemas ∨ ∃ schema, w.schemas stmt.table = some schema ∧
      SchemaStep stmt.table schema stmt.action w w' := by
  have serving := @serving_schemasKept F ρ _ rest json apart
  have within {f : TableSchema → M ρ Unit} {w : World ρ}
      (h : ∀ schema, w.schemas stmt.table = some schema → ∀ w,
        SchemaStep stmt.table schema stmt.action w ((f schema).run.run w).2) :
      let w' := ((withTable (sessionDb json rest) stmt.table f).run.run w).2
      w'.schemas = w.schemas ∨ ∃ schema, w.schemas stmt.table = some schema ∧
        SchemaStep stmt.table schema stmt.action w w' := by
    rw [run_withTable]
    cases hschema : w.schemas stmt.table with
    | none => exact .inl (interfere_schemas w)
    | some schema =>
      refine .inr ⟨schema, rfl, ?_⟩
      have hstep := h schema hschema w.interfere
      unfold SchemaStep at hstep ⊢
      rwa [interfere_schemas] at hstep
  obtain ⟨table, action⟩ := stmt
  cases action with
  | alterColumn column action =>
    refine within fun schema hschema w => ?_
    unfold alterColumnOf
    split
    · exact .inl rfl
    · rename_i idx _
      exact schemaStep_save (.altered column action idx) (named schema hschema) io w
  | dropColumn column =>
    refine within fun schema hschema w => ?_
    unfold dropColumnFrom
    split
    · exact .inl rfl
    rename_i idx hidx
    split_ifs
    · exact .inl rfl
    · exact .inl rfl
    · exact .inl rfl
    refine .after (serving.indexedColumn rfl table column) (fun indexed w => ?_) w
    split_ifs
    · exact .inl rfl
    refine .after (serving.txnScan table) (fun rows w => ?_) w
    exact .after (rewriteRows_schemasKept io rows)
      (fun _ w => schemaStep_save (.dropped column idx hidx) (named schema hschema) io w) w
  | addColumn column =>
    have hdefault :
      SchemasKept w ((defaultCell (sessionDb json rest) depth column).run.run w).2 := by
      have closed := closed_schemasKept (ρ := ρ)
      unfold defaultCell
      split
      · split
        · exact closed.throw _ w
        · rename_i e _
          refine closed.map (eval_closed closed _ e ⟨serving.call, fun q _ ctx => ?_⟩) w
          exact closed.map (executeSelect_closed closed serving (.inl serving))
      · split
        · exact closed.pure none w
        · exact closed.throw _ w
    simp only [executeAlterTable, run_bind]
    cases hrun : (defaultCell (sessionDb json rest) depth column).run.run w with
    | mk result w₁ =>
      rw [hrun] at hdefault
      cases result with
      | error e => exact .inl hdefault
      | ok cell =>
        have hadd := within (w := w₁) (f := addColumnTo (sessionDb json rest) io table column cell)
          fun schema hschema w => by
            rw [show w₁.schemas = _ from hdefault] at hschema
            unfold addColumnTo
            split_ifs
            · exact .inl rfl
            refine .after (serving.txnScan table) (fun rows w => ?_) w
            exact .after (rewriteRows_schemasKept io rows)
              (fun _ w => schemaStep_save (.added column) (named schema hschema) io w) w
        unfold SchemaStep at hadd ⊢
        rwa [show w₁.schemas = w.schemas from hdefault] at hadd

omit [Scalars F] in
theorem Resulting.keeps (h : Resulting schema action schema')
    (names : (schema.columns.map ColumnDef.name).Nodup) :
    (∀ fk' ∈ schema'.foreignKeys, ∃ fk ∈ schema.foreignKeys,
      fk.refTable = fk'.refTable ∧ fk.refColumn = fk'.refColumn) ∧
    ∀ name ∈ schema.columns.map ColumnDef.name, action ≠ .dropColumn name →
      name ∈ schema'.columns.map ColumnDef.name := by
  cases h with
  | added column =>
    refine ⟨fun fk hfk => ⟨fk, hfk, rfl, rfl⟩, fun name hname _ => ?_⟩
    simp only [addToSchema, map_append, mem_append]
    exact .inl hname
  | dropped column idx hidx =>
    refine ⟨fun fk hfk => ?_, fun name hname hne => ?_⟩
    · obtain ⟨old, hold, rfl⟩ := mem_map.mp hfk
      exact ⟨old, (mem_filter.mp hold).1, rfl, rfl⟩
    · refine mem_names_dropFromSchema ((columnIndex_eq_some names).mp hidx) hname ?_
      rintro rfl
      exact hne rfl
  | altered column action idx =>
    refine ⟨fun fk hfk => ⟨fk, hfk, rfl, rfl⟩, fun name hname _ => ?_⟩
    rw [names_alterInSchema]
    exact hname

omit [Scalars F] in
theorem Referred.step (h : Referred w) (hfree : Unreferred w stmt)
    (hschema : w.schemas stmt.table = some schema)
    (names : (schema.columns.map ColumnDef.name).Nodup)
    (hstep : SchemaStep stmt.table schema stmt.action w w') : Referred w' := by
  unfold Referred
  obtain hsame | ⟨schema', hresult, hupdate⟩ := hstep
  · rw [hsame]
    exact h
  obtain ⟨hforeign, hnames⟩ := hresult.keeps names
  -- every foreign key behind the statement was there before it
  have hbefore other s' (hs' : w'.schemas other = some s') fk' (hfk' : fk' ∈ s'.foreignKeys) :
      ∃ s, w.schemas other = some s ∧ ∃ fk ∈ s.foreignKeys,
        fk.refTable = fk'.refTable ∧ fk.refColumn = fk'.refColumn := by
    rw [hupdate] at hs'
    by_cases hother : other = stmt.table
    · subst hother
      rw [Function.update_self] at hs'
      obtain rfl := Option.some.inj hs'
      exact ⟨schema, hschema, hforeign fk' hfk'⟩
    · rw [Function.update_of_ne hother] at hs'
      exact ⟨s', hs', fk', hfk', rfl, rfl⟩
  intro table t' ht' other s' hs' fk' hfk' href
  obtain ⟨s, hs, fk, hfk, htable, hcolumn⟩ := hbefore other s' hs' fk' hfk'
  rw [← hcolumn]
  rw [hupdate] at ht'
  by_cases hself : table = stmt.table
  · subst hself
    rw [Function.update_self] at ht'
    obtain rfl := Option.some.inj ht'
    refine hnames _ (h _ schema hschema other s hs fk hfk (htable.trans href)) fun hdrop => ?_
    exact (hfree _ hdrop schema hschema).2 other s hs fk hfk (htable.trans href) rfl
  · rw [Function.update_of_ne hself] at ht'
    exact h table t' ht' other s hs fk hfk (htable.trans href)

def alterAfter (db : WriteDb (M ρ) F Unit) (depth : ℕ) (w : World ρ)
    (step : AlterTableStmt × StoreIo) : World ρ :=
  ((executeAlterTable db step.2 depth step.1).run.run w).2

/-- No write of the statement fails, and a column that it drops has no rule and is not referred
to. -/
def Undisturbed (w : World ρ) (step : AlterTableStmt × StoreIo) : Prop :=
  step.2 = .allOk ∧ Unreferred w step.1

theorem alterAfter_evolved (apart : Apart rest) (fits : Fits (sessionDb json rest) depth step.1)
    (hstep : Undisturbed w step) (ready : Ready F table w)
    (named : ∀ schema, w.schemas step.1.table = some schema → schema.name = step.1.table) :
    let w' := alterAfter (sessionDb json rest) depth w step
    Ready F table w' ∧ Evolved F (step.1.dropped table) table w w' := by
  obtain ⟨stmt, io⟩ := step
  obtain ⟨rfl, hfree⟩ := hstep
  by_cases heq : stmt.table = table
  · subst heq
    exact executeAlterTable_evolved apart fits hfree ready
  · exact (executeAlterTable_seen apart json table .allOk depth heq named).unchanged ready

theorem alterAfter_referred (apart : Apart rest) (hstep : Undisturbed w step)
    (ready : Ready F step.1.table w) (h : Referred w) :
    Referred (alterAfter (sessionDb json rest) depth w step) := by
  obtain hsame | ⟨schema, hschema, hchange⟩ :=
    executeAlterTable_schemas apart step.2 depth step.1 w ready.named
  · unfold Referred
    rw [alterAfter, hsame]
    exact h
  · exact h.step hstep.2 hschema (ready.sound _ (tableOf_eq_some hschema)).names hchange

end Altered

/-- `CREATE TABLE t (id TEXT PRIMARY KEY, a JSON, b TEXT)` with rules for some columns, and another
table that refers to one of them. -/
def wide (ruled : List String) : TableSchema :=
  ⟨"t", [⟨"id", .text, false, none, true⟩, ⟨"a", .json, true, none, false⟩,
    ⟨"b", .text, true, none, false⟩], [0], [], [], ruled.map fun c => ⟨c, "strict", utf8 "schema"⟩⟩

def referring (column : String) : TableSchema :=
  ⟨"u", [⟨"x", .text, true, none, false⟩], [], [], [⟨0, "t", column⟩], []⟩

def wideRow (a b : String) : Bytes := encodeRowCells [some (utf8 "1"), some (utf8 a), some (utf8 b)]

def wideWorld (column : String) (others : List (List (List Change))) : World Unit where
  schemas name :=
    if name = "t" then some (wide [column])
    else if name = "u" then some (referring column)
    else none
  commits := [[⟨"t", utf8 "1", some (wideRow "x" "y")⟩]]
  others := others
  txn := none
  cdc := []
  trace := []
  cursors := []
  rest := ()

def dropA : AlterTableStmt := ⟨"t", .dropColumn "a"⟩

def addC : AlterTableStmt := ⟨"t", .addColumn ⟨"c", .text, true, none, false⟩⟩

def rowsOfT (w : World Unit) : List Row :=
  (w.latest "t").entries.map fun kv => decodeRowCells Unit kv.2

theorem referred_wideWorld : Referred (wideWorld "id" []) := by
  intro table schema hschema other s hs fk hfk href
  have hs' : s = wide ["id"] ∨ s = referring "id" := by
    simp only [wideWorld] at hs
    split_ifs at hs
    · exact .inl (Option.some.inj hs).symm
    · exact .inr (Option.some.inj hs).symm
  obtain rfl | rfl := hs'
  · cases hfk
  · obtain rfl := mem_singleton.mp hfk
    subst href
    obtain rfl := Option.some.inj hschema
    decide

theorem ready_wideWorld : Ready Unit "t" (wideWorld "id" []) := by
  have hrows : (wideWorld "id" []).latest "t" =
      OrderedMap.insert .empty (utf8 "1") (wideRow "x" "y") := rfl
  refine ⟨by simp [Quiet, wideWorld], fun schema hschema => ?_, fun t ht => ?_⟩
  · obtain rfl : wide ["id"] = schema := Option.some.inj hschema
    rfl
  · obtain rfl := Option.some.inj ht
    have hdecode : decodeRowCells Unit (wideRow "x" "y") =
        [some (utf8 "1"), some (utf8 "x"), some (utf8 "y")] := by decide +kernel
    have hvalue {key value : Bytes} (h : ((wideWorld "id" []).latest "t").get? key = some value) :
        value = wideRow "x" "y" := by
      rw [hrows, OrderedMap.get?_insert] at h
      split at h
      · exact (Option.some.inj h).symm
      · cases h
    refine ⟨by decide, ?_, by decide, fun key value h => ?_, fun key value h => ?_⟩
    · intro rule hrule
      obtain rfl := mem_singleton.mp hrule
      decide
    · rw [hvalue h, hdecode]
      rfl
    · rw [hvalue h, hdecode]
      unfold Rewritable
      decide

end WireSessionAlter
