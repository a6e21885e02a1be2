import Keystone.WireSessionRows

/-! # Statements that fail

A statement goes through its rows one by one and keeps what it did when a later row fails: the rows
ahead of the failing one are committed, or staged for the next COMMIT, and their changes are
published. -/
namespace WireSessionAtomicity

open EffectPredicates ExecutorDml ExecutorSelect ExecutorValue List SqlAst WireSession
  WireSessionReads WireSessionRows
variable {F ρ : Type}

def Appended (handle : Option Unit) (changes : List Change) (w w' : World ρ) : Prop :=
  match handle, w.txn with
  | some _, some t =>
    w'.commits = w.commits ∧ w'.txn = some { t with staged := t.staged ++ changes }
  | _, _ => w'.commits = w.commits ++ changes.map ([·]) ∧ w'.txn = w.txn

structure Changed (handle : Option Unit) (n : ℕ) (w w' : World ρ) : Prop where
  others : w'.others = w.others
  changes : ∃ changes, changes.length = n ∧ Appended handle changes w w'
  cdc : n = 0 → w'.cdc = w.cdc

variable {handle : Option Unit}

theorem Appended.trans (hab : Appended handle cs a b) (hbc : Appended handle ds b c) :
    Appended handle (cs ++ ds) a c := by
  cases handle with
  | none =>
    obtain ⟨hcommits, htxn⟩ := hab
    obtain ⟨hcommits', htxn'⟩ := hbc
    exact ⟨by rw [hcommits', hcommits, map_append, append_assoc], htxn'.trans htxn⟩
  | some u =>
    cases ha : a.txn with
    | none =>
      simp only [Appended, ha] at hab ⊢
      obtain ⟨hcommits, htxn⟩ := hab
      simp only [Appended, htxn] at hbc
      obtain ⟨hcommits', htxn'⟩ := hbc
      exact ⟨by rw [hcommits', hcommits, map_append, append_assoc], htxn'⟩
    | some t =>
      simp only [Appended, ha] at hab ⊢
      obtain ⟨hcommits, htxn⟩ := hab
      simp only [Appended, htxn] at hbc
      obtain ⟨hcommits', htxn'⟩ := hbc
      exact ⟨hcommits'.trans hcommits, by rw [htxn', append_assoc]⟩

variable {n : ℕ}

theorem Changed.trans (hab : Changed handle n a b) (hbc : Changed handle k b c) :
    Changed handle (n + k) a c := by
  obtain ⟨cs, hcs, happ⟩ := hab.changes
  obtain ⟨ds, hds, happ'⟩ := hbc.changes
  refine ⟨hbc.others.trans hab.others, ⟨cs ++ ds, by simp [hcs, hds], happ.trans happ'⟩, ?_⟩
  intro hzero
  exact (hbc.cdc (by omega)).trans (hab.cdc (by omega))

variable {w w' : World ρ}

theorem appended_nil (hcommits : w'.commits = w.commits) (htxn : w'.txn = w.txn) :
    Appended handle [] w w' := by
  unfold Appended
  split
  · simp_all
  · simp_all

theorem Appended.unchanged_iff (h : Appended handle changes w w') :
    (w'.commits = w.commits ∧ w'.txn = w.txn) ↔ changes = [] := by
  unfold Appended at h
  split at h
  case h_1 t htxn =>
    obtain ⟨hcommits, htxn'⟩ := h
    rw [hcommits, htxn', htxn]
    cases t
    simp
  case h_2 =>
    obtain ⟨hcommits, htxn'⟩ := h
    rw [hcommits, htxn']
    simp

theorem Changed.unchanged_iff (h : Changed handle n w w') :
    (w'.commits = w.commits ∧ w'.txn = w.txn) ↔ n = 0 := by
  obtain ⟨changes, hlength, happ⟩ := h.changes
  rw [happ.unchanged_iff, ← length_eq_zero_iff, hlength]

theorem changed_of_same (h : Same w w') : Changed handle 0 w w' :=
  ⟨h.others, ⟨[], rfl, appended_nil h.commits h.txn⟩, fun _ => h.cdc⟩

theorem changed_change (c : Change) (hothers : w'.others = w.others)
    (hcommits : w'.commits = (w.change handle c).commits)
    (htxn : w'.txn = (w.change handle c).txn) : Changed handle 1 w w' := by
  refine ⟨hothers, ⟨[c], rfl, ?_⟩, by simp⟩
  unfold Appended
  unfold World.change at hcommits htxn
  split
  · simp_all
  · simp_all

variable {w : World ρ}

theorem changed_written [Scalars F] :
    Changed handle 1 w (written F json handle table schema key cells events w) := by
  refine changed_change ⟨table, key, some (buildRowValue F json schema cells)⟩
    (written_others) ?_ ?_
  · simp only [written, World.change, World.observe]
    split <;> rfl
  · simp only [written, World.change, World.observe]
    split <;> rfl

theorem changed_deleted : Changed handle 1 w (deleted handle table key events w) :=
  changed_change ⟨table, key, none⟩ (change_keeps w handle _).2.1 rfl rfl

section Visits

variable {α : Type} {handle : Option Unit} {visit : α → M ρ Bool}

/-- The rows one after the other, up to the first one that fails. -/
def sweep (visit : α → M ρ Bool) : List α → World ρ → World ρ
  | [], w => w
  | a :: rest, w =>
    match (visit a).run.run w with
    | (.error _, w') => w'
    | (.ok _, w') => sweep visit rest w'

/-- No row ahead of the first one that fails is hit. -/
def Spares (visit : α → M ρ Bool) : List α → World ρ → Prop
  | [], _ => True
  | a :: rest, w =>
    match (visit a).run.run w with
    | (.error _, _) => True
    | (.ok hit, w') => hit = false ∧ Spares visit rest w'

def Visits (handle : Option Unit) (visit : α → M ρ Bool) : Prop :=
  ∀ a w, w.others = [] → Outcome w ((visit a).run.run w) fun hit w' =>
    Changed handle (if hit then 1 else 0) w w'

theorem sweep_changed (visits : Visits handle visit) (rows : List α) (hw : w.others = []) :
    ∃ n, Changed handle n w (sweep visit rows w) ∧ (n = 0 ↔ Spares visit rows w) := by
  induction rows generalizing w with
  | nil => exact ⟨0, changed_of_same (.refl w), by simp [Spares]⟩
  | cons a rest ih =>
    have hout := visits a w hw
    rw [sweep, Spares]
    rcases hvisit : (visit a).run.run w with ⟨e | hit, w₁⟩
    · rw [hvisit] at hout
      exact ⟨0, changed_of_same hout, by simp⟩
    · rw [hvisit] at hout
      obtain ⟨n, hchanged, hn⟩ := ih (hout.others.trans hw)
      refine ⟨_, Changed.trans hout hchanged, ?_⟩
      cases hit with
      | false => simpa using hn
      | true => simp

theorem run_map_snd {x : M ρ α} {g : α → β} :
    ((x >>= fun a => pure (g a)).run.run w).2 = (x.run.run w).2 := by
  rw [run_bind]
  rcases x.run.run w with ⟨e | a, w'⟩ <;> rfl

theorem countRows_sweep {visit : KeyValue → M ρ Bool} (rows : List KeyValue) (w : World ρ) :
    ((countRows visit rows).run.run w).2 = sweep visit rows w := by
  induction rows generalizing w with
  | nil => rfl
  | cons kv rest ih =>
    rw [countRows, run_bind, sweep]
    rcases (visit kv).run.run w with ⟨e | hit, w₁⟩
    · rfl
    · exact run_map_snd.trans (ih w₁)

end Visits

section Statements

variable [Scalars F] {rest : WriteDb (M ρ) F Unit} {json : Bool}

def insertVisit (db : WriteDb (M ρ) F Unit) (depth : ℕ) (handle : Option Unit) (stmt : InsertStmt F)
    (schema : TableSchema) (params : List (Value F)) (values : List (Expr F)) : M ρ Bool := do
  insertRow db (executeSelect db.toDb depth) handle stmt.table schema stmt.columns params values
  pure true

/-- Every row ahead of the end, or of the first one that fails, does not match the WHERE clause; of
an INSERT, the first row fails. -/
def SparesRows (db : WriteDb (M ρ) F Unit) (depth : ℕ) (params : List (Value F)) (w : World ρ) :
    Stmt F → Prop
  | .insert stmt => ∀ schema, w.schemas stmt.table = some schema →
      Spares (insertVisit db depth w.handle stmt schema params) stmt.values w
  | .update stmt => ∀ schema, w.schemas stmt.table = some schema →
      Spares (updateRow db (executeSelect db.toDb depth) stmt w.handle schema params)
        (w.view w.handle stmt.table).entries (w.observe (readEvent w w.handle stmt.table none))
  | .delete stmt =>
      Spares (deleteRow db (executeSelect db.toDb depth) stmt w.handle
        (w.schemas stmt.table) params)
        (w.view w.handle stmt.table).entries (w.observe (readEvent w w.handle stmt.table none))
  | _ => True

def IsDml : Stmt F → Prop
  | .insert _ => True
  | .update _ => True
  | .delete _ => True
  | _ => False

variable {w w' : World ρ} {e : EvalError}

theorem insertRows_sweep {stmt : InsertStmt F} (values : List (List (Expr F))) (w : World ρ) :
    ((insertRows db (executeSelect db.toDb depth) handle stmt.table schema stmt.columns params
      values).run.run w).2 = sweep (insertVisit db depth handle stmt schema params) values w := by
  induction values generalizing w with
  | nil => rfl
  | cons row more ih =>
    rw [insertRows, run_bind, sweep, insertVisit, run_bind]
    rcases (insertRow db (executeSelect db.toDb depth) handle stmt.table schema stmt.columns params
      row).run.run w with ⟨e | u, w₁⟩
    · rfl
    · exact run_map_snd.trans (ih w₁)

variable (apart : Apart rest)

include apart

theorem visits_insert :
    Visits handle (insertVisit (sessionDb json rest) depth handle stmt schema params) := by
  intro values w hw
  refine outcome_returning (insertRow_outcome apart hw depth stmt.columns params values) ?_
  rintro _ w' ⟨mid, key, cells, hinserted, rfl⟩
  exact (changed_of_same hinserted.same).trans changed_written

theorem visits_update : Visits handle (updateRow (sessionDb json rest)
      (executeSelect (sessionDb json rest).toDb depth) stmt handle schema params) := by
  intro kv w hw
  refine (updateRow_outcome apart hw depth stmt params kv).imp ?_
  rintro (_ | _) w' hout
  · exact changed_of_same hout
  · obtain ⟨mid, cells, hupdated, rfl⟩ := hout
    exact (changed_of_same hupdated.same).trans changed_written

theorem visits_delete : Visits handle (deleteRow (sessionDb json rest)
      (executeSelect (sessionDb json rest).toDb depth) stmt handle schema params) := by
  intro kv w hw
  refine (deleteRow_outcome apart hw depth stmt schema params kv).imp ?_
  rintro (_ | _) w' hout
  · exact changed_of_same hout
  · obtain ⟨mid, hsame, rfl⟩ := hout
    exact (changed_of_same hsame).trans changed_deleted

omit apart in
theorem run_currentTxn (w : World ρ) : (currentTxn (ρ := ρ)).run.run w = (.ok w.handle, w) := rfl

/-- A statement changes nothing, and publishes nothing, exactly when it spares the rows. -/
theorem execute_changed (hw : w.others = []) (depth : ℕ) (params : List (Value F))
    (dml : IsDml stmt) :
    ∃ n, Changed w.handle n w ((execute (sessionDb json rest) depth params stmt).run.run w).2 ∧
      (n = 0 ↔ SparesRows (sessionDb json rest) depth params w stmt) := by
  have hscan table : ((sessionDb json rest).txnScan w.handle table).run.run w = _ :=
    run_txnScan hw
  have hobserved {table : String} : Same w (w.observe (readEvent w w.handle table none)) :=
    same_observe w ⟨_, _, _, _, rfl⟩
  match stmt with
  | .insert stmt =>
    rw [execute, run_bind, run_currentTxn]
    dsimp only
    rw [run_map_snd, executeInsert, run_bind, run_getTable hw]
    simp only [SparesRows]
    cases hschema : w.schemas stmt.table with
    | none => exact ⟨0, changed_of_same (.refl w), by simp⟩
    | some schema =>
      obtain ⟨n, hchanged, hn⟩ := sweep_changed (visits_insert apart) stmt.values hw
      exact ⟨n, insertRows_sweep stmt.values w ▸ hchanged, by simpa using hn⟩
  | .update stmt =>
    rw [execute, run_bind, run_currentTxn]
    dsimp only
    rw [run_map_snd, executeUpdate, run_bind, run_getTable hw]
    simp only [SparesRows]
    cases hschema : w.schemas stmt.table with
    | none => exact ⟨0, changed_of_same (.refl w), by simp⟩
    | some schema =>
      dsimp only
      rw [run_bind, hscan]
      dsimp only
      rw [countRows_sweep]
      obtain ⟨n, hchanged, hn⟩ := sweep_changed (visits_update apart)
        (w.view w.handle stmt.table).entries (hobserved.others.trans hw)
      refine ⟨n, ?_, by simpa using hn⟩
      simpa using (changed_of_same hobserved).trans hchanged
  | .delete stmt =>
    rw [execute, run_bind, run_currentTxn]
    dsimp only
    rw [run_map_snd, executeDelete, run_bind, run_getTable hw]
    dsimp only
    rw [run_bind, hscan]
    dsimp only
    rw [countRows_sweep]
    obtain ⟨n, hchanged, hn⟩ := sweep_changed (visits_delete apart)
      (w.view w.handle stmt.table).entries (hobserved.others.trans hw)
    refine ⟨n, ?_, hn⟩
    simpa using (changed_of_same hobserved).trans hchanged

omit apart in
theorem latest_after_commit (hw : w.others = []) {params : List (Value F)} :
    (after db depth params w .commit).latest =
      tablesAfter (w.commits.flatten ++ (w.txn.map Txn.staged).getD []) := by
  rw [after_commit hw]
  cases htxn : w.txn with
  | none | some t => simp [World.latest]

/-- A failed statement that changed no row before leaves contents, published changes and the open
transaction as they were, and a COMMIT behind it commits what it would have without it. -/
theorem failed_statement_atomic {w w' : World ρ} (alone : w.others = []) (depth : ℕ)
    (params : List (Value F)) {stmt : Stmt F} (dml : IsDml stmt) {e : EvalError}
    (failed : (execute (sessionDb json rest) depth params stmt).run.run w = (.error e, w')) :
    ((w'.commits = w.commits ∧ w'.txn = w.txn) ↔
        SparesRows (sessionDb json rest) depth params w stmt) ∧
      (SparesRows (sessionDb json rest) depth params w stmt →
        w'.latest = w.latest ∧ w'.cdc = w.cdc ∧ w'.txn = w.txn ∧
          (after (sessionDb json rest) depth params w' .commit).latest =
            (after (sessionDb json rest) depth params w .commit).latest) := by
  obtain ⟨n, hchanged, hn⟩ := execute_changed apart alone depth params dml
  rw [failed] at hchanged
  dsimp only at hchanged
  rw [← hn]
  refine ⟨hchanged.unchanged_iff, fun hzero => ?_⟩
  obtain ⟨hcommits, htxn⟩ := hchanged.unchanged_iff.mpr hzero
  refine ⟨by simp only [World.latest, hcommits], hchanged.cdc hzero, htxn, ?_⟩
  rw [latest_after_commit (hchanged.others.trans alone), latest_after_commit alone, hcommits, htxn]

end Statements

/-- A row with too few values fails before anything is changed. -/
theorem failed_statement_atomic_short :
    let w' := after tableDb 3 [] keyedWorld (insertT [[text "1"], [text "2", text "b"]])
    w'.latest = keyedWorld.latest ∧ w'.cdc = keyedWorld.cdc ∧ w'.txn = keyedWorld.txn ∧
      (after tableDb 3 [] w' .commit).latest = (after tableDb 3 [] keyedWorld .commit).latest := by
  have dml : IsDml (insertT [[text "1"], [text "2", text "b"]]) := trivial
  refine (failed_statement_atomic apart_tablesOnly rfl 3 [] dml rfl).2 fun schema hschema => ?_
  obtain rfl := Option.some.inj hschema
  exact trivial

/-- The second row has the key of the first one. That one is committed and announced; inside a
transaction it is staged and the COMMIT behind the error keeps it. -/
theorem failed_statement_keeps_rows :
    let stmt := insertT [[text "1", text "a"], [text "1", text "b"]]
    let failed := after tableDb 3 [] keyedWorld stmt
    let inTxn := after tableDb 3 [] (after tableDb 3 [] keyedWorld .begin) stmt
    let keys (w : World Unit) := (w.latest "t").entries.map Prod.fst
    ((execute tableDb 3 [] stmt).run.run keyedWorld).1 = .error (duplicateKeyError "t") ∧
      keys failed = [DecimalText.utf8 "1"] ∧ failed.cdc.length = 1 ∧
      keys inTxn = [] ∧ inTxn.cdc.length = 1 ∧
      keys (after tableDb 3 [] inTxn .commit) = [DecimalText.utf8 "1"] := by
  refine ⟨rfl, rfl, rfl, rfl, rfl, rfl⟩

end WireSessionAtomicity
