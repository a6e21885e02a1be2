import Keystone.StorageLsmRecovery
import Keystone.StorageLsmLayering

/-! # The write paths of the database

`write`, `delete` and `commit_txn` put one batch into the engine and then drive the flush and the
compaction it may trigger, and the index maintenance, to their end. -/
namespace DatabaseWrites

open GuardedRuns List OrderedMaps VersionedLayers
open StorageInternalKey StorageMemTable StorageWal StorageManifest StorageLsmEngine StorageLsmSystem
open StorageLsmReads StorageLsmCompaction StorageLsmSteps StorageLsmInvariant StorageLsmRecovery
open LsmEngine (CommitFlushIo compactRun insertRow openEngine loadTables replayRow)

inductive NodeRole where
  | writer
  | reader
  deriving DecidableEq

/-- What the environment decides while one batch is written: the lease at each point where it
is read, the outcome of every request, and of the index maintenance of every row. -/
structure WriteEnv where
  append : AppendIo
  lease : LeaseHandle
  upload : Bool
  commitLease : LeaseHandle
  commit : CommitFlushIo
  threshold : ℕ
  compactUpload : Bool
  compactLease : LeaseHandle
  compactSave : Bool
  deleted : ℕ → Bool
  index : BatchRow → Bool

def driveFlush (filter : BloomFilter) (e : LsmEngine) (store : Store) (env : WriteEnv) :
    Option PendingFlush → LsmEngine × Store × Except StorageError Unit
  | none => (e, store, .ok ())
  | some pending =>
    match LsmEngine.finishFlush filter pending store env.upload with
    | (store, .error err) => (e, store, .error err)
    | (store, .ok sst) =>
      match e.commitFlush store pending sst env.commitLease env.commit env.threshold with
      | (e, store, .error err) => (e, store, .error err)
      | (e, store, .ok none) => (e, store, .ok ())
      | (e, store, .ok (some pc)) =>
        match LsmEngine.finishCompact filter pc store env.compactUpload with
        | (store, .error err) => (e, store, .error err)
        | (store, .ok merged) =>
          e.commitCompact store pc merged env.compactLease env.compactSave env.deleted

def maintainIndexes (env : WriteEnv) (rows : List BatchRow) : Except StorageError Unit :=
  if rows.all fun r => r.value.isNone || env.index r then .ok () else .error .indexMaintenance

def commitBatch (filter : BloomFilter) (role : NodeRole) (e : LsmEngine) (store : Store)
    (batch : Batch) (env : WriteEnv) : LsmEngine × Store × Except StorageError Unit :=
  if role = .reader then (e, store, .error .readOnlyReplica)
  else
    match e.writeBatch batch env.lease env.append with
    | (e, .error err) => (e, store, .error err)
    | (e, .ok (_, pending)) =>
      match driveFlush filter e store env pending with
      | (e, store, .error err) => (e, store, .error err)
      | (e, store, .ok ()) => (e, store, maintainIndexes env batch.rows)

def makeKey (table key : Bytes) : Bytes := table ++ 0 :: key

def singleBatch (row : BatchRow) : Batch := ⟨[row], List.nodup_singleton _⟩

/-- The table of a composite key: the bytes before the first NUL, if they are UTF-8. -/
def tableOf (composite : Bytes) : Option Bytes :=
  match composite.findIdx? (· = 0) with
  | some i => if (ByteArray.mk (composite.take i).toArray).validateUTF8 then some (composite.take i)
    else none
  | none => none

def stagedRow (staged : Bytes × Option Bytes) : Option BatchRow :=
  (tableOf staged.1).map fun table => ⟨table, staged.1, staged.2⟩

theorem stagedRows_distinct (staged : OrderedMap Bytes (Option Bytes)) :
    ((staged.entries.filterMap stagedRow).map BatchRow.key).Nodup := by
  refine pairwise_map.mpr (staged.sorted.filterMap stagedRow ?_)
  intro a b hab r hr x hx
  obtain ⟨_, _, rfl⟩ := Option.map_eq_some_iff.mp hr
  obtain ⟨_, _, rfl⟩ := Option.map_eq_some_iff.mp hx
  exact ne_of_lt hab

def stagedBatch (staged : OrderedMap Bytes (Option Bytes)) : Batch :=
  ⟨staged.entries.filterMap stagedRow, stagedRows_distinct staged⟩

section Entry

variable (filter : BloomFilter) (role : NodeRole) (e : LsmEngine) (store : Store) (env : WriteEnv)

def write (table key value : Bytes) : LsmEngine × Store × Except StorageError Unit :=
  commitBatch filter role e store (singleBatch ⟨table, makeKey table key, some value⟩) env

def delete (table key : Bytes) : LsmEngine × Store × Except StorageError Unit :=
  commitBatch filter role e store (singleBatch ⟨table, makeKey table key, none⟩) env

/-- A transaction with nothing staged commits without a check of the role. -/
def commitTxn (staged : OrderedMap Bytes (Option Bytes)) :
    LsmEngine × Store × Except StorageError Unit :=
  if staged.entries.isEmpty then (e, store, .ok ())
  else commitBatch filter role e store (stagedBatch staged) env

inductive Request where
  | write (table key value : Bytes)
  | delete (table key : Bytes)
  | commitTxn (staged : OrderedMap Bytes (Option Bytes))

def Request.batch : Request → Batch
  | .write table key value => singleBatch ⟨table, makeKey table key, some value⟩
  | .delete table key => singleBatch ⟨table, makeKey table key, none⟩
  | .commitTxn staged => stagedBatch staged

def submit : Request → LsmEngine × Store × Except StorageError Unit
  | .write table key value => write filter role e store env table key value
  | .delete table key => delete filter role e store env table key
  | .commitTxn staged => commitTxn filter role e store env staged

variable {filter role e store env}

/-- Only a call that has nothing to write skips the shared part, and that call succeeds. -/
theorem submit_error (herr : (submit filter role e store env request).2.2 = .error err) :
    submit filter role e store env request =
      commitBatch filter role e store request.batch env := by
  cases request with
  | write | delete => rfl
  | commitTxn staged =>
    by_cases hnone : staged.entries.isEmpty = true
    · simp [submit, commitTxn, hnone] at herr
    · simp [submit, commitTxn, hnone, Request.batch]

end Entry

def Sees (view : EngineView) (v : Version Bytes Bytes) : Prop := ∃ s, seenAt view v.key s = some v

def isQuiet : Event → Bool
  | .writeBatch .. => false
  | .crashOpen _ => false
  | _ => true

/-- What may happen between the failed write and a crash: anything but an append where the write
has left bytes in the log, and where it has left none appends too that keep the log readable. -/
def Continues (filter : BloomFilter) (io : AppendIo) (σ : Sys) (later : List Event) : Prop :=
  (∀ e ∈ later, isQuiet e = true) ∨ (io = .failed 0 ∧
    Along (next filter) (fun τ e => Event.isCrash e = false ∧ LogKept τ e) σ later)

/-- No read of a later state sees any of the rows, whatever steps follow, and neither does a
read of the engine that is opened after a crash. -/
def NotApplied (filter : BloomFilter) (io : AppendIo) (rows : List (Version Bytes Bytes))
    (σ : Sys) : Prop :=
  (∀ later : List Event, (∀ e ∈ later, Event.isCrash e = false) →
    ∀ v ∈ rows, ¬ Sees (run (next filter) σ later).engine.view v) ∧
  ∀ later : List Event, Continues filter io σ later →
    ∀ fetch opened, openEngine (run (next filter) σ later).wal (run (next filter) σ later).store
      fetch = .ok opened → ∀ v ∈ rows, ¬ Sees opened.view v

/-- The append fails before the last byte of the batch is in the file. -/
def FailsShort (batch : Batch) (seq : ℕ) : AppendIo → Prop
  | .ok => False
  | .failed written => written < (encodeBatch (batch.walBatch seq)).length

instance (batch : Batch) (seq : ℕ) : (io : AppendIo) → Decidable (FailsShort batch seq io)
  | .ok => .isFalse id
  | .failed written => inferInstanceAs (Decidable (written < _))

/-- There was nothing to write, or the append fell short. -/
def FailsEarly (batch : Batch) (seq : ℕ) (io : AppendIo) : Prop :=
  batch.rows = [] ∨ FailsShort batch seq io

def settle (σ : Sys) (e : LsmEngine) (store : Store) : Sys := { σ with engine := e, store := store }

/-! The newest version is seen in the topmost source that is not empty. -/

section Top

variable {view : EngineView} {v : Version Bytes Bytes}

theorem sees_memtable (hf : Functional view.memtable.rows) (hv : v ∈ view.memtable.rows) :
    Sees view v :=
  ⟨v.seq, seenAt_top [] rfl (by simp) hf hv⟩

theorem sees_last (hm : view.memtable.rows = []) (hi : view.immutable = none)
    (ht : view.sstables = tables ++ [t]) (hf : Functional t.rows) (hv : v ∈ t.rows) : Sees view v :=
  ⟨v.seq, seenAt_top [[]] (by simp [layers, hm, hi, ht]; rfl) (by simp) hf hv⟩

end Top

section Failing

variable {filter : BloomFilter} {log : List (ℕ × Batch)} {σ : Sys}

variable {batch : Batch}

theorem not_mem_applied (hl : Live filter σ) {v : Version Bytes Bytes}
    (hv : v ∈ batch.versions σ.nextSeq) :
    v ∉ σ.applied := by
  intro hm
  have := hl.versions.bounded v hm
  rw [seq_of_mem_versions hv] at this
  exact lt_irrefl _ this

structure Absent (filter : BloomFilter) (v : Version Bytes Bytes) (σ : Sys) : Prop where
  live : Live filter σ
  fresh : v ∉ σ.applied
  below : v.seq < σ.nextSeq

namespace Absent

variable {v : Version Bytes Bytes}

theorem apply_op (h : Absent filter v σ) {op : Op} (he : Enabled σ op) :
    Absent filter v (apply filter σ op) := by
  refine ⟨h.live.apply_op he, ?_, ?_⟩
  · cases op with
    | addRows b =>
      intro hm
      rcases mem_append.mp hm with hm | hm
      · exact absurd h.below (by simp [seq_of_mem_versions hm])
      · exact h.fresh hm
    | _ => exact h.fresh
  · cases op with
    | failAppend | addRows => exact Nat.lt_succ_of_lt h.below
    | _ => exact h.below

theorem not_sees (h : Absent filter v σ) : ¬ Sees σ.engine.view v := by
  rintro ⟨s, hs⟩
  exact h.fresh (StorageLsmLayering.held_sound h.live.versions v (mem_of_seenAt hs))

theorem never_seen (h : Absent filter v σ) {later : List Event}
    (hlater : ∀ e ∈ later, Event.isCrash e = false) :
    ¬ Sees (run (next filter) σ later).engine.view v :=
  ((along_of_forall hlater).invariant
    (fun _ _ hτ hcrash => next_invariant (fun _ _ hρ hop => hρ.apply_op hop) hcrash hτ) h).not_sees

end Absent

theorem loadTables_subset (hp : Placement σ) (ht : t ∈ loadTables σ.store fetch) :
    t ∈ σ.tables := by
  obtain ⟨id, hid, _, x, hx, rfl⟩ := LsmEngine.mem_loadTables.mp ht
  obtain ⟨u, hu, rfl⟩ := mem_map.mp (hp.manifest_ids.mem_iff.mp hid)
  rw [hp.stored u hu] at hx
  obtain rfl := Option.some.inj hx
  exact hu

def Unreplayed (v : Version Bytes Bytes) (wal : Wal) : Prop :=
  ∀ records maxSeq, wal.reopen.replay = .ok (records, maxSeq) →
    v ∉ (records.foldl replayRow (MemTable.new memtableMaxSize)).rows

theorem Unreplayed.truncate (h : Unreplayed v wal) (io : TruncateIo) :
    Unreplayed v (wal.truncate io).1 := by
  have hempty : ∀ offset, Unreplayed v { wal with file := [], offset := offset } := by
    intro offset records maxSeq hreplay
    obtain ⟨rfl, rfl⟩ := Prod.mk.inj (Except.ok.inj hreplay)
    simp
  cases io with
  | ok => exact hempty 0
  | failed => exact h
  | unsynced => exact hempty wal.offset

def KeepsLog : Op → Prop
  | .failAppend .. => False
  | .addRows _ => False
  | _ => True

theorem quiet_keepsLog (he : isQuiet e = true) (hd : Does σ e ops) :
    Along (apply filter) (fun _ op => KeepsLog op) σ ops := by
  cases hd with
  | nothing => trivial
  | _ => cases he <;> simp [Along, KeepsLog]

/-- The engine opened after a crash has what was applied and what the log replays. -/
theorem Absent.not_reopened {v : Version Bytes Bytes} (h : Absent filter v σ)
    (hlog : Unreplayed v σ.wal) (hopen : openEngine σ.wal σ.store fetch = .ok opened) :
    ¬ Sees opened.view v := by
  rintro ⟨s, hs⟩
  have hopened := LsmEngine.openEngine_ok hopen
  rcases mem_layers_flatten.mp (mem_of_seenAt hs) with hm | ⟨m, hm, _⟩ | ⟨t, ht, hvt⟩
  · obtain ⟨records, maxSeq, hreplay, hmem, _⟩ := hopened.replayed
    rw [hmem] at hm
    exact hlog records maxSeq hreplay hm
  · rw [hopened.no_immutable] at hm
    cases hm
  · rw [hopened.tables_eq] at ht
    exact h.fresh (h.live.versions.table_sound t (loadTables_subset h.live.placement ht) v hvt)

theorem quiet_unreplayed {v : Version Bytes Bytes} (h : Absent filter v σ)
    (hlog : Unreplayed v σ.wal) (hlater : ∀ e ∈ later, isQuiet e = true) :
    Absent filter v (run (next filter) σ later) ∧
      Unreplayed v (run (next filter) σ later).wal := by
  refine (along_of_forall hlater).invariant
    (I := fun τ => Absent filter v τ ∧ Unreplayed v τ.wal) ?_ ⟨h, hlog⟩
  intro τ e hτ he
  refine next_invariant_of_guard (I := fun τ => Absent filter v τ ∧ Unreplayed v τ.wal)
    ?_ (by cases e <;> simp_all [isQuiet, Event.isCrash])
    (fun ops hd => quiet_keepsLog he hd) hτ
  rintro ρ op ⟨hρ, hwal⟩ hop hkeeps
  refine ⟨hρ.apply_op hop, ?_⟩
  cases op with
  | failAppend | addRows => exact hkeeps.elim
  | truncateLog io => exact hwal.truncate io
  | _ => exact hwal

theorem Logged.unreplayed (h : Logged filter log σ) (hv : v ∉ σ.applied) :
    Unreplayed v σ.wal := by
  intro records maxSeq hrecords hm
  rw [h.logs.holds.reopen, h.logs.holds.replay_eq] at hrecords
  obtain ⟨rfl, _⟩ := Prod.mk.inj (Except.ok.inj hrecords)
  have hlogged := (mem_rows_replay h.logs.increasing (by simp)).mp hm
  exact hv (h.sound v (hlogged.resolve_right (by simp)))

theorem logged_unreplayed {v : Version Bytes Bytes} (h : Absent filter v σ)
    (hlog : Logged filter log σ) (hlater : Along (next filter)
      (fun τ e => Event.isCrash e = false ∧ LogKept τ e) σ later) :
    Absent filter v (run (next filter) σ later) ∧
      Unreplayed v (run (next filter) σ later).wal := by
  obtain ⟨habsent, log', hlogged⟩ := hlater.invariant
    (I := fun τ => Absent filter v τ ∧ ∃ log, Logged filter log τ)
    (fun τ e hτ he => ⟨next_invariant (fun _ _ hρ hop => hρ.apply_op hop) he.1 hτ.1,
      logged_step he.2 hτ.2⟩) ⟨h, log, hlog⟩
  exact ⟨habsent, Logged.unreplayed hlogged habsent.fresh⟩

/-- An append that fails short leaves nothing of the batch behind. -/
theorem notApplied_of_short (h : Logged filter log σ) (hfit : (batch.walBatch σ.nextSeq).Fits)
    {written : ℕ} (hshort : written < (encodeBatch (batch.walBatch σ.nextSeq)).length) :
    NotApplied filter (.failed written) (batch.versions σ.nextSeq)
      (apply filter σ (.failAppend batch written)) := by
  set σ' := apply filter σ (.failAppend batch written)
  have habsent : ∀ v ∈ batch.versions σ.nextSeq, Absent filter v σ' := fun v hv =>
    ⟨h.live.apply_op trivial, not_mem_applied h.live hv,
      (seq_of_mem_versions hv).trans_lt (Nat.lt_succ_self _)⟩
  obtain ⟨maxSeq, hreplay⟩ := h.logs.holds.append_torn hfit hshort
  have hunreplayed : ∀ v ∈ batch.versions σ.nextSeq, Unreplayed v σ'.wal := by
    intro v hv records maxSeq' hrecords hm
    have hsame : σ'.wal.reopen.replay = .ok _ := hreplay
    rw [hsame] at hrecords
    obtain ⟨rfl, _⟩ := Prod.mk.inj (Except.ok.inj hrecords)
    have hlogged := (mem_rows_replay h.logs.increasing (by simp)).mp hm
    exact not_mem_applied h.live hv (h.sound v (hlogged.resolve_right (by simp)))
  refine ⟨fun later hlater v hv => (habsent v hv).never_seen hlater, ?_⟩
  rintro later (hquiet | ⟨hnone, hkept⟩) fetch opened hopen v hv
  · obtain ⟨hlast, hlog⟩ := quiet_unreplayed (habsent v hv) (hunreplayed v hv) hquiet
    exact hlast.not_reopened hlog hopen
  · obtain rfl : written = 0 := by simpa using hnone
    obtain ⟨hlast, hlog⟩ := logged_unreplayed (habsent v hv) (h.apply_op trivial rfl) hkept
    exact hlast.not_reopened hlog hopen

/-- An append whose bytes all arrive is replayed, although it is reported as failed. -/
theorem applied_of_unsynced (h : Logged filter log σ) (hfit : (batch.walBatch σ.nextSeq).Fits)
    (hall : (encodeBatch (batch.walBatch σ.nextSeq)).length ≤ written)
      (hv : v ∈ batch.versions σ.nextSeq) :
    ¬ NotApplied filter (.failed written) (batch.versions σ.nextSeq)
      (apply filter σ (.failAppend batch written)) := by
  rintro ⟨_, hreplayed⟩
  set σ' := apply filter σ (.failAppend batch written)
  have hlogs : Logs σ'.wal.reopen (log ++ [(σ.nextSeq, batch)]) (σ.nextSeq + 1) := by
    have happend := h.logs.append hfit
    refine ⟨?_, happend.increasing, happend.below⟩
    rw [map_append]
    exact h.logs.holds.append_unsynced hfit hall
  obtain ⟨opened, hopen, hr⟩ := openEngine_recovers hlogs σ'.store fun _ => true
  have hmem : v ∈ opened.view.memtable.rows :=
    (hr.mem_rows v).mpr (Logs.mem_logRows_append.mpr (.inl hv))
  refine hreplayed [] (.inl (by simp)) _ opened hopen v hv (sees_memtable ?_ hmem)
  have hfunctional := (history_cons batch h.live.versions.newest h.live.versions.functional
    h.live.versions.bounded).2
  refine hfunctional.mono fun w hw => mem_append.mpr ?_
  exact (Logs.mem_logRows_append.mp ((hr.mem_rows w).mp hw)).imp_right (h.sound w)

def publishedView (view : EngineView) (t : SSTable) : EngineView :=
  { view with immutable := none, sstables := view.sstables ++ [t] }

/-- A flush commit that fails has published nothing, or the flushed table; one that starts a
compaction has published it and captured the published list. -/
theorem commitFlush_view (e : LsmEngine) (store : Store) (p : PendingFlush) (t : SSTable)
    (lease : LeaseHandle) (io : CommitFlushIo) (threshold : ℕ) :
    ∃ e' store' result, e.commitFlush store p t lease io threshold = (e', store', result) ∧
      ((e'.view = e.view ∧ ∃ err, result = .error err) ∨
        (e'.view = publishedView e.view t ∧
          ∀ pc, result = .ok (some pc) → pc.sstables = e.view.sstables ++ [t])) := by
  have hcases := publishFlush_cases exactFilter ⟨e, store, [], [], [], []⟩ p t
    lease io
  unfold LsmEngine.commitFlush
  rcases hcases with ⟨err, hp⟩ | ⟨err, hp⟩ | ⟨_, hp⟩
  · rw [hp]
    exact ⟨_, _, _, rfl, .inl ⟨rfl, err, rfl⟩⟩
  · rw [hp]
    exact ⟨_, _, _, rfl, .inl ⟨rfl, err, rfl⟩⟩
  · rw [hp 0]
    cases htr : io.truncate with
    | failed | unsynced => exact ⟨_, _, _, rfl, .inr ⟨rfl, by simp⟩⟩
    | ok =>
      simp only
      split_ifs with hthr
      · unfold LsmEngine.beginCompact
        split_ifs with hlen hl
        · exact ⟨_, _, _, rfl, .inr ⟨rfl, by simp⟩⟩
        · exact ⟨_, _, _, rfl, .inr ⟨rfl, by simp⟩⟩
        · refine ⟨_, _, _, rfl, .inr ⟨rfl, fun pc hpc => ?_⟩⟩
          obtain rfl := Option.some.inj (Except.ok.inj hpc)
          rfl
      · exact ⟨_, _, _, rfl, .inr ⟨rfl, by simp⟩⟩

theorem commitCompact_view (e : LsmEngine) (store : Store) (pc : PendingCompaction)
    (merged : SSTable) (lease : LeaseHandle) (saveManifest : Bool) (deleted : ℕ → Bool) :
    ∃ e' store' result,
      e.commitCompact store pc merged lease saveManifest deleted = (e', store', result) ∧
      ((e'.view = e.view ∧ ∃ err, result = .error err) ∨
        (e'.view = { e.view with sstables := LsmEngine.reconcile e.view.sstables pc merged } ∧
          result = .ok ())) := by
  unfold LsmEngine.commitCompact
  rcases saveCas_cases store ⟨(LsmEngine.reconcile e.view.sstables pc merged).map SSTable.id,
    e.ws.committedWalSegmentSeq, lease.token, e.ws.nextCommitSeq - 1⟩ e.ws.manifestEtag saveManifest
    "updating manifest after compaction — another writer may be active" with
    ⟨_, _, hcas⟩ | ⟨_, hcas⟩
  · simp only [hcas]
    exact ⟨_, _, _, rfl, .inr ⟨rfl, rfl⟩⟩
  · simp only [hcas]
    exact ⟨_, _, _, rfl, .inl ⟨rfl, _, rfl⟩⟩

/-- A compaction of tables whose newest version of a key is a value keeps that version. -/
theorem compactRun_keeps (hf : Functional (captured pc)) (hv : v ∈ captured pc)
    (hmax : ∀ w ∈ captured pc, w.seq ≤ v.seq) (hvalue : v.value ≠ none) :
    v ∈ (compactRun pc).rows := by
  have hgap : NoGap pc v.key v.seq := fun w hw _ hlt => absurd (hmax w hw) (not_le.mpr hlt)
  have hnew : IsNewest (captured pc) v.key v.seq v := ⟨hv, rfl, le_rfl, fun w hw _ _ => hmax w hw⟩
  rcases compactRun_covers hf hgap v hnew with hkept | ⟨hnone, _⟩
  · exact hkept
  · exact absurd hnone hvalue

/-- The values of the newest batch are still seen when the tables it was captured with are
replaced. -/
theorem replaced_sees (hf : Functional history) (view : EngineView) (hm : view.memtable.rows = [])
    (hi : view.immutable = none) (hsound : ∀ w ∈ captured pc, w ∈ history) (hv : v ∈ captured pc)
    (hmax : ∀ w ∈ history, w.seq ≤ v.seq) (hvalue : v.value ≠ none) :
    Sees { view with
      sstables := LsmEngine.reconcile view.sstables pc (.create filter pc.newId (compactRun pc)) }
      v := by
  have hfc : Functional (captured pc) := hf.mono hsound
  have hkept : v ∈ (compactRun pc).rows :=
    compactRun_keeps hfc hv (fun w hw => hmax w (hsound w hw)) hvalue
  exact sees_last hm hi rfl (hfc.mono fun _ => compactRun_subset) hkept

/-- A frozen batch stays in sight while its flush is driven: all of it until a compaction is
committed, and its values even then. -/
theorem driveFlush_sees (hf : Functional history) {id : ℕ}
    (hm : e.view.memtable.rows = []) (hi : e.view.immutable = some frozen)
    (hsound : ∀ w, w ∈ frozen.rows ∨ w ∈ tableRows e.view.sstables → w ∈ history)
      (hv : v ∈ frozen.rows) (hmax : ∀ w ∈ history, w.seq ≤ v.seq) :
    let result := driveFlush filter e store env (some ⟨frozen.toEntries, id⟩)
    (∀ err, result.2.2 = .error err → Sees result.1.view v) ∧
      (v.value ≠ none → Sees result.1.view v) := by
  have hfrozen : Functional frozen.rows := hf.mono fun w hw => hsound w (.inl hw)
  have hframe : Sees e.view v :=
    ⟨v.seq, seenAt_top [[]] (by simp [layers, hm, hi]; rfl) (by simp) hfrozen hv⟩
  have hpublished : Sees (publishedView e.view (.create filter id frozen.toEntries)) v :=
    sees_last hm rfl rfl hfrozen hv
  simp only [driveFlush, LsmEngine.finishFlush]
  cases env.upload with
  | false => exact ⟨fun _ _ => hframe, fun _ => hframe⟩
  | true =>
    obtain ⟨e₁, store₁, committed, hcommit, hview⟩ := commitFlush_view e
      (store.putSst (.create filter id frozen.toEntries)) ⟨frozen.toEntries, id⟩
      (.create filter id frozen.toEntries) env.commitLease env.commit env.threshold
    simp only [if_true, hcommit]
    rcases hview with ⟨hsame, err, rfl⟩ | ⟨hpub, hpc⟩
    · rw [← hsame] at hframe
      exact ⟨fun _ _ => hframe, fun _ => hframe⟩
    · have hsees₁ : Sees e₁.view v := by rw [hpub]; exact hpublished
      rcases committed with err | _ | pc
      · exact ⟨fun _ _ => hsees₁, fun _ => hsees₁⟩
      · exact ⟨fun _ _ => hsees₁, fun _ => hsees₁⟩
      · simp only [LsmEngine.finishCompact]
        cases env.compactUpload with
        | false => exact ⟨fun _ _ => hsees₁, fun _ => hsees₁⟩
        | true =>
          obtain ⟨e₂, store₂, replaced, hreplace, hview₂⟩ := commitCompact_view e₁
            (store₁.putSst (.create filter pc.newId (compactRun pc))) pc
            (.create filter pc.newId (compactRun pc)) env.compactLease env.compactSave env.deleted
          simp only [if_true, hreplace]
          rcases hview₂ with ⟨hsame, err, rfl⟩ | ⟨hrep, rfl⟩
          · rw [← hsame] at hsees₁
            exact ⟨fun _ _ => hsees₁, fun _ => hsees₁⟩
          · refine ⟨by simp, fun hvalue => ?_⟩
            have hcaptured : ∀ w ∈ captured pc, w ∈ history := by
              intro w hw
              obtain ⟨t, ht, hwt⟩ := mem_captured.mp hw
              rw [hpc pc rfl] at ht
              refine hsound w ?_
              rcases mem_append.mp ht with ht | ht
              · exact .inr (mem_tableRows.mpr ⟨t, ht, hwt⟩)
              · rw [mem_singleton.mp ht] at hwt
                exact .inl hwt
            have hvc : v ∈ captured pc := by
              refine mem_captured.mpr ⟨.create filter id frozen.toEntries, ?_, hv⟩
              rw [hpc pc rfl]
              exact mem_append_right _ (mem_singleton.mpr rfl)
            rw [hrep, hpub]
            exact replaced_sees hf (publishedView e.view _) hm rfl hcaptured hvc hmax hvalue

theorem beginFlush_view (e : LsmEngine) : e.beginFlush lease = (e, .error .fencedOff) ∨
    ∃ e', e'.view = { e.view with
        memtable := .new memtableMaxSize, immutable := some e.view.memtable } ∧
      ((e.view.memtable.toEntries.entries = [] ∧ e.beginFlush lease = (e', .ok none)) ∨
        e.beginFlush lease = (e', .ok (some ⟨e.view.memtable.toEntries, e.ws.sstableId⟩))) := by
  by_cases hl : (!lease.valid) = true
  · exact .inl (by rw [LsmEngine.beginFlush, if_pos hl])
  · rw [LsmEngine.beginFlush, if_neg hl]
    by_cases hemp : e.view.memtable.toEntries.entries.isEmpty = true
    · simp only [hemp]
      exact .inr ⟨_, rfl, .inl ⟨isEmpty_iff.mp hemp, rfl⟩⟩
    · simp only [hemp]
      exact .inr ⟨_, rfl, .inr rfl⟩

/-- How `write_batch` ends once the append is through: the batch is in the memtable, or in the
frozen one with its flush begun. -/
theorem writeBatch_view (e : LsmEngine) :
    let m := batch.rows.foldl (insertRow e.ws.nextCommitSeq) e.view.memtable
    ∃ e' result, e.writeBatch batch lease .ok = (e', result) ∧
      ((e'.view = { e.view with memtable := m } ∧ ∀ seq p, result ≠ .ok (seq, some p)) ∨
        (e'.view = { e.view with memtable := .new memtableMaxSize, immutable := some m } ∧
          (m.toEntries.entries ≠ [] → ∃ id seq, result = .ok (seq, some ⟨m.toEntries, id⟩)))) := by
  intro m
  simp only [LsmEngine.writeBatch]
  split_ifs with hfull
  · rcases beginFlush_view { ws := _, view := { e.view with memtable := m } } with
      hb | ⟨e', hview, ⟨hemp, hb⟩ | hb⟩
    · rw [hb]
      exact ⟨_, _, rfl, .inl ⟨rfl, by simp⟩⟩
    · rw [hb]
      exact ⟨_, _, rfl, .inr ⟨hview, fun hne => absurd hemp hne⟩⟩
    · rw [hb]
      exact ⟨_, _, rfl, .inr ⟨hview, fun _ => ⟨_, _, rfl⟩⟩⟩
  · exact ⟨_, _, rfl, .inl ⟨rfl, by simp⟩⟩

section Applied

variable (hl : Live filter σ) (batch : Batch)
include hl

variable {v : Version Bytes Bytes}

omit hl in
abbrev added (σ : Sys) (batch : Batch) : MemTable := batch.rows.foldl (insertRow σ.nextSeq) σ.mem

theorem mem_added : v ∈ (added σ batch).rows ↔
      v ∈ batch.versions σ.nextSeq ∨ v ∈ σ.mem.rows :=
  hl.versions.mem_rows_addRows batch

theorem added_versions : Versions filter (apply filter σ (.addRows batch)) :=
  have henabled : Enabled σ (.addRows batch) := trivial
  (hl.apply_op henabled).versions

theorem added_functional : Functional (added σ batch).rows := by
  have hv := added_versions hl batch
  exact hv.functional.mono hv.mem_sound

theorem added_ne_nil (hv : v ∈ batch.versions σ.nextSeq) :
    (added σ batch).toEntries.entries ≠ [] := by
  intro hnil
  have hrows : v ∈ (added σ batch).rows := (mem_added hl batch).mpr (.inl hv)
  obtain ⟨entry, hentry, _⟩ := SortedRun.mem_rows.mp hrows
  rw [hnil] at hentry
  cases hentry

variable {err : StorageError}

/-- A `write_batch` that fails after its append has put the batch into the memtable. -/
theorem writeBatch_sees (herr : (σ.engine.writeBatch batch lease .ok).2 = .error err)
    (hv : v ∈ batch.versions σ.nextSeq) : Sees (σ.engine.writeBatch batch lease .ok).1.view v := by
  obtain ⟨e', result, hwrite, ⟨hview, _⟩ | ⟨_, hpending⟩⟩ := writeBatch_view σ.engine
  · rw [hwrite]
    rw [hview]
    exact sees_memtable (added_functional hl batch) ((mem_added hl batch).mpr (.inl hv))
  · obtain ⟨id, seq, rfl⟩ := hpending (added_ne_nil hl batch hv)
    rw [hwrite] at herr
    cases herr

/-- The batch that filled the memtable stays in sight while its flush is driven. -/
theorem frozen_sees (id : ℕ) (hview : e.view = { σ.engine.view with
      memtable := .new memtableMaxSize,
      immutable := some (added σ batch) }) (store : Store) (env : WriteEnv)
    (hr : r ∈ batch.rows) :
    let result := driveFlush filter e store env (some ⟨(added σ batch).toEntries, id⟩)
    (∀ err, result.2.2 = .error err → Sees result.1.view (r.version σ.nextSeq)) ∧
      (r.value ≠ none → Sees result.1.view (r.version σ.nextSeq)) := by
  have hv := added_versions hl batch
  have hsound : ∀ w, w ∈ (added σ batch).rows ∨
      w ∈ tableRows e.view.sstables → w ∈ (apply filter σ (.addRows batch)).applied := by
    rintro w (hw | hw)
    · exact hv.mem_sound w hw
    · rw [hview] at hw
      obtain ⟨t, ht, hwt⟩ := mem_tableRows.mp hw
      exact hv.table_sound t ht w hwt
  refine driveFlush_sees hv.functional ?_ ?_ hsound
    ((mem_added hl batch).mpr (.inl (mem_map_of_mem hr))) ?_
  · rw [hview]
    rfl
  · rw [hview]
  · exact fun w hw => Nat.le_of_lt_succ (hv.bounded w hw)

omit hl in
theorem maintainIndexes_error (herr : maintainIndexes env rows = .error err) :
    ∃ r ∈ rows, r.value ≠ none := by
  unfold maintainIndexes at herr
  split_ifs at herr with hall
  simp only [all_eq_true, not_forall] at hall
  obtain ⟨r, hr, hno⟩ := hall
  exact ⟨r, hr, fun hnone => hno (by simp [hnone])⟩

/-- A write path that fails after the append leaves some row of the batch in sight. -/
theorem commitBatch_sees (happend : env.append = .ok)
    (herr : (commitBatch filter .writer σ.engine σ.store batch env).2.2 = .error err)
    (hne : batch.rows ≠ []) :
    ∃ v ∈ batch.versions σ.nextSeq,
      Sees (commitBatch filter .writer σ.engine σ.store batch env).1.view v := by
  obtain ⟨r, hr⟩ := exists_mem_of_ne_nil _ hne
  have hversion : ∀ x ∈ batch.rows, x.version σ.nextSeq ∈ batch.versions σ.nextSeq :=
    fun x hx => mem_map_of_mem hx
  unfold commitBatch at herr ⊢
  simp only [happend] at herr ⊢
  obtain ⟨e', result, hwrite, ⟨hview, hnone⟩ | ⟨hview, hpending⟩⟩ :=
    writeBatch_view σ.engine
  · have hsees : Sees e'.view (r.version σ.nextSeq) := by
      rw [hview]
      exact sees_memtable (added_functional hl batch)
        ((mem_added hl batch).mpr (.inl (hversion r hr)))
    rw [hwrite]
    match result with
    | .error _ | .ok (seq, none) => exact ⟨_, hversion r hr, hsees⟩
    | .ok (seq, some p) => exact absurd rfl (hnone seq p)
  · obtain ⟨id, seq, rfl⟩ := hpending (added_ne_nil hl batch (hversion r hr))
    have hdrive := fun x (hx : x ∈ batch.rows) =>
      frozen_sees hl batch id hview σ.store env hx
    rw [hwrite] at herr ⊢
    dsimp only at herr hdrive ⊢
    -- the flush fails, or it goes through and the index maintenance of some put fails
    generalize driveFlush filter e' σ.store env _ = driven at herr hdrive ⊢
    obtain ⟨e'', store'', driveErr | done⟩ := driven
    · exact ⟨_, hversion r hr, (hdrive r hr).1 driveErr rfl⟩
    · obtain ⟨x, hx, hput⟩ := maintainIndexes_error herr
      exact ⟨_, hversion x hx, (hdrive x hx).2 hput⟩

end Applied

theorem notApplied_nil (hnil : batch.rows = []) :
    NotApplied filter io (batch.versions seq) τ := by
  have hnone : ∀ v, v ∉ batch.versions seq := by
    intro v hv
    obtain ⟨r, hr, _⟩ := mem_map.mp hv
    rw [hnil] at hr
    cases hr
  exact ⟨fun _ _ v hv => absurd hv (hnone v), fun _ _ _ _ _ v hv => absurd hv (hnone v)⟩

theorem notApplied_late (hsees : batch.rows ≠ [] → ∃ v ∈ batch.versions seq, Sees τ.engine.view v) :
    NotApplied filter .ok (batch.versions seq) τ ↔ FailsEarly batch seq .ok := by
  refine ⟨fun hnot => ?_, ?_⟩
  · by_contra hlate
    obtain ⟨v, hv, hseen⟩ := hsees (not_or.mp hlate).1
    exact hnot.1 [] (by simp) v hv hseen
  · rintro (hnil | hshort)
    · exact notApplied_nil hnil
    · exact hshort.elim

variable (h : Logged filter log σ) (hfit : (batch.walBatch σ.nextSeq).Fits)

include h hfit

theorem notApplied_append_failed :
    NotApplied filter (.failed written) (batch.versions σ.nextSeq)
        (apply filter σ (.failAppend batch written)) ↔
      FailsEarly batch σ.nextSeq (.failed written) := by
  refine ⟨fun hnot => ?_, ?_⟩
  · by_contra hlate
    obtain ⟨hne, hall⟩ := not_or.mp hlate
    obtain ⟨r, hr⟩ := exists_mem_of_ne_nil _ hne
    exact applied_of_unsynced h hfit (not_lt.mp hall) (mem_map_of_mem hr) hnot
  · rintro (hnil | hshort)
    · exact notApplied_nil hnil
    · exact notApplied_of_short h hfit hshort

theorem writeBatch_notApplied (herr : (σ.engine.writeBatch batch lease io).2 = .error err) :
    NotApplied filter io (batch.versions σ.nextSeq)
        (settle σ (σ.engine.writeBatch batch lease io).1 σ.store) ↔
      FailsEarly batch σ.nextSeq io := by
  cases io with
  | failed written => exact notApplied_append_failed h hfit
  | ok =>
    refine notApplied_late fun hne => ?_
    obtain ⟨r, hr⟩ := exists_mem_of_ne_nil _ hne
    have hv : r.version σ.nextSeq ∈ batch.versions σ.nextSeq := mem_map_of_mem hr
    exact ⟨_, hv, writeBatch_sees h.live batch herr hv⟩

theorem commitBatch_notApplied (herr : (commitBatch filter .writer σ.engine σ.store batch env).2.2 =
    .error err) :
    let r := commitBatch filter .writer σ.engine σ.store batch env
    NotApplied filter env.append (batch.versions σ.nextSeq) (settle σ r.1 r.2.1) ↔
      FailsEarly batch σ.nextSeq env.append := by
  intro r
  cases happend : env.append with
  | failed written =>
    have hsame : r = ((apply filter σ (.failAppend batch written)).engine, σ.store,
        .error (.io "appending to wal")) := by
      simp only [r, commitBatch, happend]
      rfl
    rw [hsame]
    exact notApplied_append_failed h hfit
  | ok => exact notApplied_late (commitBatch_sees h.live batch happend herr)

end Failing

/-- A row that fills the memtable of a fresh engine, under a lost lease. -/
theorem fenced_write_stays (hfull : memtableMaxSize ≤ value.length) (hlen : value.length < 2 ^ 32) :
    let σ := initial "wal.log"
    let result := σ.engine.writeBatch (putRow [97] value) lostLease .ok
    result.2 = .error .fencedOff ∧ result.1.view.readAt [97] 1 = some value ∧
      ∃ opened, openEngine result.1.ws.wal σ.store (fun _ => true) = .ok opened ∧
        opened.view.readAt [97] 1 = some value := by
  intro σ result
  have hname : ByteCodecs.validUtf8 [116] = true := by decide
  have hone : 1 < 2 ^ 32 := by decide
  have hfits : ((putRow [97] value).walBatch 1).Fits := by
    constructor <;> simp [putRow, Batch.walBatch]
    exact ⟨hone, hname, hone, hlen⟩
  have hfilled : (added σ (putRow [97] value)).isFull = true := by
    have hsize : (added σ (putRow [97] value)).sizeBytes =
        0 + (1 + value.length + 8 + 1) := rfl
    have hmax : (added σ (putRow [97] value)).maxSize = memtableMaxSize := rfl
    simp only [MemTable.isFull, decide_eq_true_eq]
    omega
  have hresult : result = ((apply exactFilter σ (.addRows (putRow [97] value))).engine,
    .error .fencedOff) := by
    simp only [result, LsmEngine.writeBatch]
    rw [if_pos hfilled]
    rfl
  have hempty : Logged exactFilter [] σ := .initial_logged
  have hlogged : Logged exactFilter _ (apply exactFilter σ (.addRows (putRow [97] value))) :=
    hempty.apply_op trivial hfits
  obtain ⟨opened, hopen, hr⟩ := openEngine_recovers hlogged.logs σ.store fun _ => true
  have hread : ∀ view : EngineView, (∀ v, v ∈ view.memtable.rows ↔
    v ∈ (putRow [97] value).versions 1) →
      view.readAt [97] 1 = some value := by
    intro view hrows
    have hf : Functional view.memtable.rows := by
      intro a ha b hb _ _
      rw [mem_singleton.mp ((hrows a).mp ha), mem_singleton.mp ((hrows b).mp hb)]
    rw [readAt_eq_seenAt]
    rw [seenAt_top (v := ⟨[97], 1, some value⟩) [] rfl (by simp) hf
      ((hrows _).mpr (mem_singleton.mpr rfl))]
    rfl
  rw [hresult]
  refine ⟨rfl, hread _ fun v => ?_, opened, hopen, hread _ fun v => ?_⟩
  · exact (mem_added hempty.live _).trans (or_iff_left (not_mem_nil))
  · exact (hr.mem_rows v).trans (by simp [logAfter, logRows, σ, initial, freshEngine])

end DatabaseWrites
