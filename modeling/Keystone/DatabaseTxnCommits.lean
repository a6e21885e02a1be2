import Keystone.DatabaseTxnState

/-! # Transactions that commit side by side

`commit_txn` is a sequence of phases with other threads in between: the staged writes are taken, the
batch is written, the flush and the compaction it may trigger are driven to their end, the indexes
are maintained. None of them looks at what was committed since the transaction began. -/
namespace DatabaseTxnCommits

open GuardedRuns List StorageInternalKey StorageManifest StorageMemTable StorageWal
open StorageLsmEngine StorageLsmSystem
open DatabaseWrites DatabaseTxnReads DatabaseTxnState
open LsmEngine (insertRow finishFlush finishCompact)

/-- How far a call of `commit_txn` has come: what it does next, and on what. -/
inductive Progress where
  | notCalled
  | writing (batch : Batch)
  | flushing (rows : List BatchRow) (pending : PendingFlush)
  | flushed (rows : List BatchRow) (pending : PendingFlush) (sst : SSTable)
  | compacting (rows : List BatchRow) (pc : PendingCompaction)
  | compacted (rows : List BatchRow) (pc : PendingCompaction) (merged : SSTable)
  | indexing (rows : List BatchRow)
  | returned (result : Except StorageError Unit)

structure Handle where
  state : TransactionState
  progress : Progress
  reads : List (Bytes × Bytes × Option Bytes)

def Handle.advance (h : Handle) (progress : Progress) : Handle := { h with progress := progress }

def commitPhase (filter : BloomFilter) (role : NodeRole) (e : LsmEngine) (store : Store)
    (env : WriteEnv) (h : Handle) : LsmEngine × Store × Handle :=
  match h.progress with
  | .notCalled =>
    let (state, staged) := h.state.takeStaged
    let e := if h.state.finished then e else e.releaseSnapshot h.state.snapshotSeq
    (e, store, { h with
      state := state
      progress :=
        if staged.entries.isEmpty then .returned (.ok ())
        else if role = .reader then .returned (.error .readOnlyReplica)
        else .writing (stagedBatch staged) })
  | .writing batch =>
    match e.writeBatch batch env.lease env.append with
    | (e, .error err) => (e, store, h.advance (.returned (.error err)))
    | (e, .ok (_, none)) => (e, store, h.advance (.indexing batch.rows))
    | (e, .ok (_, some pending)) => (e, store, h.advance (.flushing batch.rows pending))
  | .flushing rows pending =>
    match finishFlush filter pending store env.upload with
    | (store, .error err) => (e, store, h.advance (.returned (.error err)))
    | (store, .ok sst) => (e, store, h.advance (.flushed rows pending sst))
  | .flushed rows pending sst =>
    match e.commitFlush store pending sst env.commitLease env.commit env.threshold with
    | (e, store, .error err) => (e, store, h.advance (.returned (.error err)))
    | (e, store, .ok none) => (e, store, h.advance (.indexing rows))
    | (e, store, .ok (some pc)) => (e, store, h.advance (.compacting rows pc))
  | .compacting rows pc =>
    match finishCompact filter pc store env.compactUpload with
    | (store, .error err) => (e, store, h.advance (.returned (.error err)))
    | (store, .ok merged) => (e, store, h.advance (.compacted rows pc merged))
  | .compacted rows pc merged =>
    match e.commitCompact store pc merged env.compactLease env.compactSave env.deleted with
    | (e, store, .error err) => (e, store, h.advance (.returned (.error err)))
    | (e, store, .ok ()) => (e, store, h.advance (.indexing rows))
  | .indexing rows => (e, store, h.advance (.returned (maintainIndexes env rows)))
  | .returned _ => (e, store, h)

section Uninterrupted

variable (filter : BloomFilter) (role : NodeRole) (env : WriteEnv)

def phases (n : ℕ) (x : LsmEngine × Store × Handle) : LsmEngine × Store × Handle :=
  run (fun x () => commitPhase filter role x.1 x.2.1 env x.2.2) x (List.replicate n ())

variable {filter role env} {e : LsmEngine} {store : Store} {h : Handle}

theorem phases_succ : phases filter role env (n + 1) x =
      phases filter role env n (commitPhase filter role x.1 x.2.1 env x.2.2) := rfl

theorem phases_returned : phases filter role env n (e, store, h.advance (.returned result)) =
      (e, store, h.advance (.returned result)) := by
  induction n with
  | zero => rfl
  | succ n ih => exact ih

theorem phases_indexing : phases filter role env (n + 1) (e, store, h.advance (.indexing rows)) =
      (e, store, h.advance (.returned (maintainIndexes env rows))) :=
  phases_returned

def afterDrive (env : WriteEnv) (rows : List BatchRow) : Except StorageError Unit → Progress
  | .error err => .returned (.error err)
  | .ok () => .returned (maintainIndexes env rows)

theorem phases_compacted : phases filter role env (n + 2) (e, store,
    h.advance (.compacted rows pc merged)) =
      let r := e.commitCompact store pc merged env.compactLease env.compactSave env.deleted
      (r.1, r.2.1, h.advance (afterDrive env rows r.2.2)) := by
  rw [phases_succ]
  simp only [commitPhase, Handle.advance]
  rcases e.commitCompact store pc merged env.compactLease env.compactSave env.deleted with
    ⟨e', store', err | _⟩
  · exact phases_returned
  · exact phases_indexing

theorem phases_flushing : phases filter role env (n + 5) (e, store,
    h.advance (.flushing rows pending)) =
      let r := driveFlush filter e store env (some pending)
      (r.1, r.2.1, h.advance (afterDrive env rows r.2.2)) := by
  rw [phases_succ]
  simp only [commitPhase, Handle.advance, driveFlush]
  rcases finishFlush filter pending store env.upload with ⟨store₁, err | sst⟩
  · exact phases_returned
  rw [phases_succ]
  simp only [commitPhase, Handle.advance]
  rcases e.commitFlush store₁ pending sst env.commitLease env.commit env.threshold with
    ⟨e₁, store₂, err | _ | pc⟩
  · exact phases_returned
  · exact phases_indexing
  rw [phases_succ]
  simp only [commitPhase]
  rcases finishCompact filter pc store₂ env.compactUpload with ⟨store₃, err | merged⟩
  · exact phases_returned
  · exact phases_compacted

theorem phases_writing (hrole : role = .writer) :
    phases filter role env (n + 6) (e, store, h.advance (.writing batch)) =
      let r := commitBatch filter role e store batch env
      (r.1, r.2.1, h.advance (.returned r.2.2)) := by
  rw [phases_succ]
  have hwriter : role ≠ .reader := by simp [hrole]
  simp only [commitPhase, Handle.advance, commitBatch, if_neg hwriter]
  rcases e.writeBatch batch env.lease env.append with ⟨e', err | ⟨seq, _ | pending⟩⟩
  · exact phases_returned
  · exact phases_indexing
  · refine phases_flushing.trans ?_
    dsimp only
    rcases driveFlush filter e' store env (some pending) with ⟨e'', store', err | _⟩ <;> rfl

/-- Seven phases without interruption come to what `commitTxn` computes. -/
theorem phases_eq_commitTxn (h : Handle) :
    let e' := if h.state.finished then e else e.releaseSnapshot h.state.snapshotSeq
    let r := commitTxn filter role e' store env h.state.staged
    phases filter role env 7 (e, store, h.advance .notCalled) =
      (r.1, r.2.1, { h with state := h.state.takeStaged.1, progress := .returned r.2.2 }) := by
  intro e' r
  rw [phases_succ]
  simp only [commitPhase, Handle.advance, TransactionState.takeStaged]
  by_cases hempty : h.state.staged.entries.isEmpty = true
  · have hr : r = (e', store, .ok ()) := by simp [r, commitTxn, hempty]
    simp only [hempty, hr]
    exact phases_returned (h := { h with state := h.state.takeStaged.1 })
  · cases hrole : role with
    | reader =>
      have hr : r = (e', store, .error .readOnlyReplica) := by
        simp [r, commitTxn, hempty, commitBatch, hrole]
      simp only [hempty, hr]
      exact phases_returned (h := { h with state := h.state.takeStaged.1 })
    | writer =>
      have hr : r = commitBatch filter .writer e' store (stagedBatch h.state.staged) env := by
        simp [r, commitTxn, hempty, hrole]
      simp only [hempty, hr]
      exact phases_writing (h := { h with state := h.state.takeStaged.1 }) rfl

end Uninterrupted

/-- The transactions are listed in the order in which they began and named by their position; the
counter behind their ids starts at one. -/
structure Db where
  role : NodeRole
  engine : LsmEngine
  store : Store
  txns : List Handle

/-- `others` is whatever other threads have done to the engine and the store meanwhile. -/
inductive DbEvent where
  | beginTxn
  | read (id : ℕ) (table key : Bytes)
  | call (id : ℕ) (c : TxnCall)
  | rollback (id : ℕ)
  | commit (id : ℕ) (env : WriteEnv)
  | others (engine : LsmEngine) (store : Store)

def Db.setTxn (db : Db) (id : ℕ) (h : Handle) : Db := { db with txns := db.txns.set id h }

def Db.beginTxn (db : Db) : Db :=
  let (engine, snapshotSeq) := db.engine.snapshotNow
  { db with
    engine := engine
    txns := db.txns ++ [⟨.new (db.txns.length + 1) snapshotSeq, .notCalled, []⟩] }

def next (filter : BloomFilter) (db : Db) : DbEvent → Db
  | .beginTxn => db.beginTxn
  | .read id table key =>
    match db.txns[id]? with
    | none => db
    | some h => db.setTxn id { h with
        reads := h.reads ++ [(table, key, txnRead db.engine.readAt (some h.state.txn) table key)] }
  | .call id c =>
    match db.txns[id]? with
    | none => db
    | some h => db.setTxn id { h with state := h.state.call c }
  | .rollback id =>
    match db.txns[id]? with
    | none => db
    | some h =>
      { db.setTxn id { h with state := h.state.discard } with
        engine := if h.state.finished then db.engine
          else db.engine.releaseSnapshot h.state.snapshotSeq }
  | .commit id env =>
    match db.txns[id]? with
    | none => db
    | some h =>
      let (engine, store, h) := commitPhase filter db.role db.engine db.store env h
      { db.setTxn id h with engine := engine, store := store }
  | .others engine store => { db with engine := engine, store := store }

def initialDb (role : NodeRole) (path : String) : Db := ⟨role, freshEngine path, .empty, []⟩

def Db.progress (db : Db) (id : ℕ) : Progress := (db.txns[id]?.map Handle.progress).getD .notCalled

def Db.Committed (db : Db) (id : ℕ) : Prop := db.progress id = .returned (.ok ())

def Db.Returned (db : Db) (id : ℕ) : Prop := ∃ result, db.progress id = .returned result

def PhasePasses (role : NodeRole) (e : LsmEngine) (store : Store) (env : WriteEnv)
    (t : TransactionState) : Progress → Prop
  | .notCalled => t.staged.entries.isEmpty = true ∨ role = .writer
  | .writing batch => env.append = .ok ∧
      ((batch.rows.foldl (insertRow e.ws.nextCommitSeq) e.view.memtable).isFull = true →
        env.lease.valid = true)
  | .flushing _ _ => env.upload = true
  | .flushed _ _ _ => e.ws.manifestEtag = store.manifest ∧ env.commit.readWal = true ∧
      (e.ws.wal.file ≠ [] → env.commit.putSegment = true) ∧ env.commit.saveManifest = true ∧
      env.commit.truncate = .ok ∧
      (env.threshold ≤ e.view.sstables.length + 1 → 2 ≤ e.view.sstables.length + 1 →
        env.commitLease.valid = true)
  | .compacting _ _ => env.compactUpload = true
  | .compacted _ _ _ => e.ws.manifestEtag = store.manifest ∧ env.compactSave = true
  | .indexing rows => ∀ r ∈ rows, r.value = none ∨ env.index r = true
  | .returned _ => True

instance (role : NodeRole) (e : LsmEngine) (store : Store) (env : WriteEnv) (t : TransactionState) :
    (p : Progress) → Decidable (PhasePasses role e store env t p)
  | .notCalled => inferInstanceAs (Decidable (_ ∨ _))
  | .writing _ => inferInstanceAs (Decidable (_ ∧ _))
  | .flushing _ _ | .compacting _ _ => inferInstanceAs (Decidable (_ = _))
  | .flushed _ _ _ | .compacted _ _ _ => inferInstanceAs (Decidable (_ ∧ _))
  | .indexing rows => inferInstanceAs (Decidable (∀ r ∈ rows, _))
  | .returned _ => .isTrue trivial

/-- A step of the commit of `id` meets no obstacle: a condition on the role, the lease, the ETag
and the requests of the commit itself. -/
def Passes (id : ℕ) (db : Db) : DbEvent → Prop
  | .commit i env => i = id → ∀ h ∈ db.txns[id]?,
      PhasePasses db.role db.engine db.store env h.state h.progress
  | _ => True

instance (id : ℕ) (db : Db) : (e : DbEvent) → Decidable (Passes id db e)
  | .commit i _ => inferInstanceAs (Decidable (i = id → ∀ h ∈ db.txns[id]?, _))
  | .beginTxn | .read .. | .call .. | .rollback _ | .others .. => .isTrue trivial

def Failed (p : Progress) : Prop := ∃ err, p = .returned (.error err)

section Phases

variable (filter : BloomFilter) (e : LsmEngine) (store : Store)

theorem writeBatch_error_iff : (∃ err, (e.writeBatch batch lease io).2 = .error err) ↔ ¬ (io = .ok ∧
      ((batch.rows.foldl (insertRow e.ws.nextCommitSeq) e.view.memtable).isFull = true →
        lease.valid = true)) := by
  cases io with
  | failed written => simp [LsmEngine.writeBatch, Wal.appendBatch]
  | ok =>
    simp only [LsmEngine.writeBatch, Wal.appendBatch]
    by_cases hfull : (batch.rows.foldl (insertRow e.ws.nextCommitSeq) e.view.memtable).isFull = true
    · simp only [hfull, LsmEngine.beginFlush]
      by_cases hvalid : lease.valid = true
      · split_ifs <;> simp_all
      · simp [hvalid]
    · simp [hfull]

theorem publishFlush_error_iff (p : PendingFlush) (sst : SSTable) (lease : LeaseHandle)
    (io : LsmEngine.CommitFlushIo) :
    (∃ err, (e.publishFlush store p sst lease io).2.2 = .error err) ↔
      ¬ (e.ws.manifestEtag = store.manifest ∧ io.readWal = true ∧
        (e.ws.wal.file ≠ [] → io.putSegment = true) ∧ io.saveManifest = true) := by
  unfold LsmEngine.publishFlush
  by_cases hread : io.readWal = true
  swap
  · rw [if_pos (by simpa using hread)]
    exact iff_of_true ⟨_, rfl⟩ fun hall => hread hall.2.1
  rw [if_neg (by simp [hread])]
  by_cases hput : e.ws.wal.file ≠ [] ∧ (!io.putSegment) = true
  · rw [if_pos hput]
    refine iff_of_true ⟨_, rfl⟩ fun hall => ?_
    simp [hall.2.2.1 hput.1] at hput
  rw [if_neg hput]
  have hsegment : e.ws.wal.file ≠ [] → io.putSegment = true := by simpa using hput
  have hmanifest : (if e.ws.wal.file ≠ [] then store.putWalSegment e.ws.walSegId e.ws.wal.file
      else store).manifest = store.manifest := by
    split_ifs <;> rfl
  dsimp only
  rcases saveCas_cases (if e.ws.wal.file ≠ [] then
      store.putWalSegment e.ws.walSegId e.ws.wal.file else store)
    ⟨e.view.sstables.map SSTable.id ++ [p.sstableId], e.ws.walSegId, lease.token,
      e.ws.nextCommitSeq - 1⟩ e.ws.manifestEtag io.saveManifest
    "updating manifest after flush — another writer may be active" with
    ⟨hetag, hsave, hcas⟩ | ⟨hno, hcas⟩
  · rw [hmanifest] at hetag
    rw [hcas]
    exact iff_of_false (by simp) (not_not.mpr ⟨hetag, hread, hsegment, hsave⟩)
  · rw [hmanifest] at hno
    rw [hcas]
    refine iff_of_true ⟨_, rfl⟩ fun hall => ?_
    exact hno.elim (absurd hall.1) fun hfail => by simp [hall.2.2.2] at hfail

theorem length_publishFlush (hok : (e.publishFlush store p sst lease io).2.2 = .ok ()) :
    (e.publishFlush store p sst lease io).1.view.sstables.length = e.view.sstables.length + 1 := by
  unfold LsmEngine.publishFlush at hok ⊢
  split_ifs at hok ⊢
  all_goals
    dsimp only at hok ⊢
    split at hok
    · cases hok
    · exact length_append

theorem commitFlush_error_iff :
    (∃ err, (e.commitFlush store p sst lease io threshold).2.2 = .error err) ↔
      ¬ (e.ws.manifestEtag = store.manifest ∧ io.readWal = true ∧
        (e.ws.wal.file ≠ [] → io.putSegment = true) ∧ io.saveManifest = true ∧ io.truncate = .ok ∧
        (threshold ≤ e.view.sstables.length + 1 → 2 ≤ e.view.sstables.length + 1 →
          lease.valid = true)) := by
  have hpublish := publishFlush_error_iff e store p sst lease io
  have hlength := @length_publishFlush e store p sst lease io
  unfold LsmEngine.commitFlush
  rcases hres : e.publishFlush store p sst lease io with ⟨e', store', result⟩
  rw [hres] at hpublish hlength
  cases result with
  | error err =>
    refine iff_of_true ⟨_, rfl⟩ fun hall => ?_
    exact hpublish.mp ⟨err, rfl⟩ ⟨hall.1, hall.2.1, hall.2.2.1, hall.2.2.2.1⟩
  | ok =>
    obtain ⟨hetag, hread, hput, hsave⟩ := not_not.mp (mt hpublish.mpr (by simp))
    have hlen : e'.view.sstables.length = e.view.sstables.length + 1 := hlength rfl
    cases htr : io.truncate with
    | failed | unsynced => exact iff_of_true ⟨_, rfl⟩ (by simp)
    | ok =>
      simp only [Wal.truncate, LsmEngine.beginCompact, hlen]
      by_cases hthreshold : threshold ≤ e.view.sstables.length + 1
      · by_cases htwo : e.view.sstables.length + 1 < 2
        · simp only [if_pos htwo]
          refine iff_of_false (by simp) (not_not.mpr ⟨hetag, hread, hput, hsave, trivial,
            fun _ h => ?_⟩)
          exact absurd h (not_le.mpr htwo)
        · by_cases hvalid : lease.valid = true
          · simp only [if_pos hthreshold, if_neg htwo, hvalid]
            exact iff_of_false (by simp)
              (not_not.mpr ⟨hetag, hread, hput, hsave, trivial, fun _ _ => trivial⟩)
          · rw [if_pos hthreshold, if_neg htwo, if_pos (by simpa using hvalid)]
            exact iff_of_true ⟨_, rfl⟩ fun hall =>
              hvalid (hall.2.2.2.2.2 hthreshold (not_lt.mp htwo))
      · simp only [if_neg hthreshold]
        exact iff_of_false (by simp)
          (not_not.mpr ⟨hetag, hread, hput, hsave, trivial, fun h => absurd h hthreshold⟩)

theorem commitCompact_error_iff :
    (∃ err, (e.commitCompact store pc merged lease saveManifest deleted).2.2 = .error err) ↔
      ¬ (e.ws.manifestEtag = store.manifest ∧ saveManifest = true) := by
  unfold LsmEngine.commitCompact
  dsimp only
  rcases saveCas_cases store ⟨(LsmEngine.reconcile e.view.sstables pc merged).map SSTable.id,
      e.ws.committedWalSegmentSeq, lease.token,
        e.ws.nextCommitSeq - 1⟩ e.ws.manifestEtag saveManifest
    "updating manifest after compaction — another writer may be active" with
    ⟨hetag, hsave, hcas⟩ | ⟨hno, hcas⟩
  · rw [hcas]
    exact iff_of_false (by simp) (not_not.mpr ⟨hetag, hsave⟩)
  · rw [hcas]
    refine iff_of_true ⟨_, rfl⟩ fun hall => ?_
    exact hno.elim (absurd hall.1) fun hfail => by simp [hall.2] at hfail

theorem maintainIndexes_error_iff : (∃ err, maintainIndexes env rows = .error err) ↔
      ¬ ∀ r ∈ rows, r.value = none ∨ env.index r = true := by
  unfold maintainIndexes
  have hall : (rows.all fun r => r.value.isNone || env.index r) = true ↔
      ∀ r ∈ rows, r.value = none ∨ env.index r = true := by
    simp
  rw [← hall]
  split_ifs with h <;> simp [h]

/-- A phase that meets no obstacle does not end the call with an error, and one that does
always does. -/
theorem failed_commitPhase : Failed (commitPhase filter role e store env h).2.2.progress ↔
      Failed h.progress ∨ ¬ PhasePasses role e store env h.state h.progress := by
  unfold commitPhase
  cases hp : h.progress with dsimp only [PhasePasses]
  | notCalled =>
    simp only [TransactionState.takeStaged]
    by_cases hempty : h.state.staged.entries.isEmpty = true
    · simp [Failed, hempty]
    · cases role <;> simp [Failed, hempty]
  | writing batch =>
    rw [or_iff_right (by simp [Failed]), ← writeBatch_error_iff]
    rcases e.writeBatch batch env.lease env.append with ⟨e', err | ⟨seq, _ | pending⟩⟩ <;>
      simp [Failed, Handle.advance]
  | flushing rows pending => cases env.upload <;> simp [finishFlush, Failed, Handle.advance]
  | flushed rows pending sst =>
    rw [or_iff_right (by simp [Failed]), ← commitFlush_error_iff e store]
    rcases e.commitFlush store pending sst env.commitLease env.commit env.threshold with
      ⟨e', store', err | _ | pc⟩ <;>
      simp [Failed, Handle.advance]
  | compacting rows pc =>
    cases env.compactUpload <;> simp [finishCompact, Failed, Handle.advance]
  | compacted rows pc merged =>
    rw [or_iff_right (by simp [Failed]), ← commitCompact_error_iff e store]
    rcases e.commitCompact store pc merged env.compactLease env.compactSave env.deleted with
      ⟨e', store', err | _⟩ <;>
      simp [Failed, Handle.advance]
  | indexing rows =>
    rw [or_iff_right (by simp [Failed]), ← maintainIndexes_error_iff]
    simp [Failed, Handle.advance]
  | returned result => simp [hp]

end Phases

section Runs

variable {filter : BloomFilter}

theorem progress_setTxn (db : Db) (hi : db.txns[i]? = some h) (h' : Handle) (id : ℕ) :
    (db.setTxn i h').progress id = if i = id then h'.progress else db.progress id := by
  unfold Db.progress Db.setTxn
  rw [List.getElem?_set]
  split_ifs <;> simp_all

theorem progress_setTxn_same (db : Db) (hi : db.txns[i]? = some h) (h' : Handle)
    (hp : h'.progress = h.progress) (id : ℕ) : (db.setTxn i h').progress id = db.progress id := by
  rw [progress_setTxn db hi]
  split_ifs with heq
  · subst heq
    simp [Db.progress, hi, hp]
  · rfl

/-- Only its own commit can fail a transaction. -/
theorem failed_next (id : ℕ) :
    Failed ((next filter db e).progress id) ↔ Failed (db.progress id) ∨ ¬ Passes id db e := by
  have hkeep : ∀ {db' : Db}, db'.progress id = db.progress id → Passes id db e →
      (Failed (db'.progress id) ↔ Failed (db.progress id) ∨ ¬ Passes id db e) := by
    intro db' hp hpass
    rw [hp]
    simp [hpass]
  cases e with
  | beginTxn =>
    refine hkeep ?_ trivial
    simp only [next, Db.beginTxn, Db.progress, List.getElem?_append, List.getElem?_singleton]
    split_ifs with hlt hnew
    · rfl
    · rw [List.getElem?_eq_none (not_lt.mp hlt)]
      rfl
    · rw [List.getElem?_eq_none (not_lt.mp hlt)]
  | read i table key | call i c =>
    refine hkeep ?_ trivial
    simp only [next]
    split
    next => rfl
    next h hi => exact progress_setTxn_same db hi _ (by rfl) id
  | rollback i =>
    refine hkeep ?_ trivial
    simp only [next]
    split
    next => rfl
    next h hi => exact progress_setTxn_same db hi { h with state := h.state.discard } rfl id
  | commit i env =>
    simp only [next, Passes]
    split
    next hnone =>
      refine hkeep rfl fun hid h hh => ?_
      rw [← hid, hnone] at hh
      cases hh
    next h hi =>
      have hprogress := progress_setTxn db hi
        (commitPhase filter db.role db.engine db.store env h).2.2 id
      change Failed ((db.setTxn i _).progress id) ↔ _
      rw [hprogress]
      split_ifs with hid
      · subst hid
        rw [failed_commitPhase]
        simp [Db.progress, hi]
      · simp [hid]
  | others engine store => exact hkeep rfl trivial

theorem failed_run (id : ℕ) (events : List DbEvent) :
    Failed ((run (next filter) db events).progress id) ↔
      Failed (db.progress id) ∨ ¬ Along (next filter) (Passes id) db events := by
  induction events generalizing db with
  | nil => simp [Along]
  | cons e events ih =>
    rw [run_cons, ih, failed_next, Along]
    tauto

end Runs

theorem committed_iff {db : Db} {id : ℕ} (h : db.Returned id) :
    db.Committed id ↔ ¬ Failed (db.progress id) := by
  obtain ⟨result, hresult⟩ := h
  cases result <;> simp [Db.Committed, Failed, hresult]

/-- Of two commits that have returned, in any run of any number of transactions, at most one has
succeeded exactly if one of the two has met an obstacle of its own: the node is a reader, its
append fails, the lease is gone when the memtable fills, or a request of the flush, of the
compaction or of the index maintenance that it drives does not go through. Whatever the two
have read and staged, and however they overlap, is no obstacle. -/
theorem one_commit_fails_iff_obstacle (filter : BloomFilter) (role : NodeRole) (path : String)
    (events : List DbEvent) (i j : ℕ)
    (hi : (run (next filter) (initialDb role path) events).Returned i)
    (hj : (run (next filter) (initialDb role path) events).Returned j) :
    ¬ ((run (next filter) (initialDb role path) events).Committed i ∧
        (run (next filter) (initialDb role path) events).Committed j) ↔
      ¬ (Along (next filter) (Passes i) (initialDb role path) events ∧
        Along (next filter) (Passes j) (initialDb role path) events) := by
  have hstart : ∀ id, ¬ Failed ((initialDb role path).progress id) := by
    simp [Failed, initialDb, Db.progress]
  rw [committed_iff hi, committed_iff hj, failed_run, failed_run, or_iff_right (hstart i),
    or_iff_right (hstart j), not_not, not_not]

def calmEnv : WriteEnv where
  append := .ok
  lease := heldLease
  upload := true
  commitLease := heldLease
  commit := .allOk
  threshold := 4
  compactUpload := true
  compactLease := heldLease
  compactSave := true
  deleted := fun _ => true
  index := fun _ => true

/-- Transaction 0 puts the row down; 1 and 2 read it and stage a new value for it. -/
def overlapping : List DbEvent :=
  [.beginTxn, .call 0 (.write [116] [97] [1]), .commit 0 calmEnv, .commit 0 calmEnv,
    .commit 0 calmEnv,
    .beginTxn, .beginTxn, .read 1 [116] [97], .read 2 [116] [97],
    .call 1 (.write [116] [97] [2]), .call 2 (.write [116] [97] [3])]

/-- The append of the second commit falls short, and it returns an error. -/
theorem failed_append_is_obstacle :
    let db := run (next exactFilter) (initialDb .writer "wal.log") (overlapping ++
      [.commit 1 calmEnv, .commit 1 calmEnv, .commit 1 calmEnv, .commit 2 calmEnv,
        .commit 2 { calmEnv with append := .failed 3 }])
    db.Committed 1 ∧ ¬ (db.Committed 1 ∧ db.Committed 2) :=
  ⟨rfl, (one_commit_fails_iff_obstacle exactFilter .writer "wal.log" _ 1 2 ⟨_, rfl⟩ ⟨_, rfl⟩).mpr
    (by decide)⟩

/-- Both commits go through, and the value of the first is gone without the second having read
it. -/
theorem both_updates_of_one_row_commit :
    let db := run (next exactFilter) (initialDb .writer "wal.log") (overlapping ++
      [.commit 1 calmEnv, .commit 2 calmEnv, .commit 2 calmEnv, .commit 1 calmEnv,
        .commit 1 calmEnv,
        .commit 2 calmEnv])
    db.Committed 1 ∧ db.Committed 2 ∧
      db.txns.map Handle.reads = [[], [([116], [97], some [1])], [([116], [97], some [1])]] ∧
      db.engine.read (makeKey [116] [97]) = some [2] := by
  refine ⟨rfl, rfl, by decide, by decide⟩

end DatabaseTxnCommits
