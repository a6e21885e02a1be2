import Keystone.StorageManifest

/-! # The LSM engine

The write path, the three phases of a flush, the three phases of a compaction, recovery and reads.
Each function is one critical section of the source; the phases of a flush or a compaction that run
without the lock are functions of what was captured before. -/
namespace StorageLsmEngine

open List OrderedMaps StorageInternalKey StorageManifest StorageMemTable StorageWal VersionedLayers

def memtableMaxSize : ℕ := 4 * 1024 * 1024

def u64Max : ℕ := 2 ^ 64 - 1

/-- What the engine reads of the lease: `LeaseHandle`. -/
structure LeaseHandle where
  token : ℕ
  valid : Bool
  deriving DecidableEq

structure EngineView where
  memtable : MemTable
  immutable : Option MemTable
  sstables : List SSTable

structure WriteState where
  wal : Wal
  sstableId : ℕ
  walSegId : ℕ
  manifestEtag : Option Manifest
  committedWalSegmentSeq : ℕ
  nextCommitSeq : ℕ
  openSnapshots : OrderedMap ℕ ℕ

structure LsmEngine where
  ws : WriteState
  view : EngineView

structure PendingFlush where
  entries : SortedRun
  sstableId : ℕ

structure PendingCompaction where
  sstables : List SSTable
  watermark : ℕ
  newId : ℕ

structure BatchRow where
  table : Bytes
  key : Bytes
  value : Option Bytes
  deriving DecidableEq

/-- The rows of one commit. Every caller stages at most one write per key. -/
structure Batch where
  rows : List BatchRow
  distinct : (rows.map BatchRow.key).Nodup

def BatchRow.tag (r : BatchRow) : UInt8 :=
  match r.value with
  | some _ => putTag
  | none => deleteTag

def BatchRow.bytes (r : BatchRow) : Bytes := r.value.getD []

def BatchRow.walEntry (r : BatchRow) : WalEntry := ⟨r.table, r.key, r.bytes, r.tag⟩

def BatchRow.version (r : BatchRow) (seq : ℕ) : Version Bytes Bytes := ⟨r.key, seq, r.value⟩

def Batch.versions (b : Batch) (seq : ℕ) : List (Version Bytes Bytes) :=
  b.rows.map fun r => r.version seq

def Batch.walBatch (b : Batch) (seq : ℕ) : WalBatch := ⟨seq, b.rows.map BatchRow.walEntry⟩

namespace EngineView

/-- `read_at`: memtable, immutable memtable, tables newest to oldest, stopping at the first
source with a visible version. -/
def readAt (view : EngineView) (key : Bytes) (snapshotSeq : ℕ) : Option Bytes :=
  match view.memtable.getAt key snapshotSeq with
  | some v => v
  | none =>
    match view.immutable.bind fun imm => imm.getAt key snapshotSeq with
    | some v => v
    | none => (view.sstables.reverse.findSome? fun t => t.readAt key snapshotSeq).join

def overlay (merged : OrderedMap Bytes (Option Bytes)) (entries : List (Bytes × Option Bytes)) :
    OrderedMap Bytes (Option Bytes) :=
  entries.foldl (fun m e => m.insert e.1 e.2) merged

/-- `scan_at`: every source is reduced to one entry per key and overlaid oldest to newest. -/
def scanAt (view : EngineView) (snapshotSeq : ℕ) : List (Bytes × Bytes) :=
  let merged := view.sstables.foldl
    (fun m t => overlay m (firstVisiblePerKey t.scanAllVersions snapshotSeq)) .empty
  let merged := match view.immutable with
    | some imm => overlay merged (firstVisiblePerKey imm.iterVersions snapshotSeq)
    | none => merged
  let merged := overlay merged (firstVisiblePerKey view.memtable.iterVersions snapshotSeq)
  merged.entries.filterMap fun e => e.2.map fun v => (e.1, v)

end EngineView

namespace LsmEngine

def currentSeq (e : LsmEngine) : ℕ := e.ws.nextCommitSeq - 1

def readAt (e : LsmEngine) (key : Bytes) (snapshotSeq : ℕ) : Option Bytes :=
  e.view.readAt key snapshotSeq

def read (e : LsmEngine) (key : Bytes) : Option Bytes := e.readAt key e.currentSeq

def scanAt (e : LsmEngine) (snapshotSeq : ℕ) : List (Bytes × Bytes) := e.view.scanAt snapshotSeq

def scan (e : LsmEngine) : List (Bytes × Bytes) := e.scanAt e.currentSeq

def registerSnapshot (e : LsmEngine) (seq : ℕ) : LsmEngine :=
  { e with ws := { e.ws with
      openSnapshots := e.ws.openSnapshots.upsert seq fun count => count.getD 0 + 1 } }

def snapshotNow (e : LsmEngine) : LsmEngine × ℕ := (e.registerSnapshot e.currentSeq, e.currentSeq)

/-- No-op for a snapshot that is not registered. -/
def releaseSnapshot (e : LsmEngine) (seq : ℕ) : LsmEngine :=
  match e.ws.openSnapshots.get? seq with
  | none => e
  | some count =>
    { e with ws := { e.ws with openSnapshots :=
        if count - 1 = 0 then e.ws.openSnapshots.erase seq
        else e.ws.openSnapshots.insert seq (count - 1) } }

/-- Freeze the memtable. The slot is overwritten, also when there is nothing to flush. -/
def beginFlush (e : LsmEngine) (lease : LeaseHandle) :
    LsmEngine × Except StorageError (Option PendingFlush) :=
  if !lease.valid then (e, .error .fencedOff)
  else
    let frozen := e.view.memtable
    let e := { e with view := { e.view with
      memtable := .new memtableMaxSize
      immutable := some frozen } }
    if frozen.toEntries.entries.isEmpty then (e, .ok none)
    else ({ e with ws := { e.ws with sstableId := e.ws.sstableId + 1 } },
      .ok (some ⟨frozen.toEntries, e.ws.sstableId⟩))

def insertRow (seq : ℕ) (m : MemTable) (r : BatchRow) : MemTable := m.insert r.key seq r.bytes r.tag

/-- The sequence number is spent even if the append fails, and the rows are in the memtable
before the flush trigger can fail. -/
def writeBatch (e : LsmEngine) (batch : Batch) (lease : LeaseHandle) (io : AppendIo) :
    LsmEngine × Except StorageError (ℕ × Option PendingFlush) :=
  let commitSeq := e.ws.nextCommitSeq
  let (wal, appended) := e.ws.wal.appendBatch commitSeq (batch.rows.map BatchRow.walEntry) io
  let e := { e with ws := { e.ws with nextCommitSeq := commitSeq + 1, wal := wal } }
  match appended with
  | .error err => (e, .error err)
  | .ok _ =>
    let memtable := batch.rows.foldl (insertRow commitSeq) e.view.memtable
    let e := { e with view := { e.view with memtable := memtable } }
    if memtable.isFull then
      match e.beginFlush lease with
      | (e, .ok pending) => (e, .ok (commitSeq, pending))
      | (e, .error err) => (e, .error err)
    else (e, .ok (commitSeq, none))

def finishFlush (filter : BloomFilter) (pending : PendingFlush) (store : Store) (io : Bool) :
    Store × Except StorageError SSTable :=
  let t := SSTable.create filter pending.sstableId pending.entries
  if io then (store.putSst t, .ok t) else (store, .error (.io "uploading sstable"))

/-- `None` below two tables; otherwise the list and the oldest open snapshot are captured. -/
def beginCompact (e : LsmEngine) (lease : LeaseHandle) :
    LsmEngine × Except StorageError (Option PendingCompaction) :=
  if e.view.sstables.length < 2 then (e, .ok none)
  else if !lease.valid then (e, .error .fencedOff)
  else
    let watermark := e.ws.openSnapshots.keys.head?.getD u64Max
    ({ e with ws := { e.ws with sstableId := e.ws.sstableId + 1 } },
      .ok (some ⟨e.view.sstables, watermark, e.ws.sstableId⟩))

/-- The outcome of each request a flush commit makes. -/
structure CommitFlushIo where
  readWal : Bool
  putSegment : Bool
  saveManifest : Bool
  truncate : TruncateIo
  deriving DecidableEq

def CommitFlushIo.allOk : CommitFlushIo := ⟨true, true, true, .ok⟩

/-- Everything up to the manifest update and the published view; the second half of the
commit truncates the log and may start a compaction. -/
def publishFlush (e : LsmEngine) (store : Store) (pending : PendingFlush) (sst : SSTable)
    (lease : LeaseHandle) (io : CommitFlushIo) : LsmEngine × Store × Except StorageError Unit :=
  if !io.readWal then (e, store, .error (.io "reading wal bytes"))
  else if e.ws.wal.file ≠ [] ∧ !io.putSegment then (e, store, .error (.io "shipping wal segment"))
  else
    let store := if e.ws.wal.file ≠ [] then store.putWalSegment e.ws.walSegId e.ws.wal.file
      else store
    let manifest : Manifest := {
      sstableIds := e.view.sstables.map SSTable.id ++ [pending.sstableId]
      walSegmentSeq := e.ws.walSegId
      writerFencingToken := lease.token
      maxCommitSeq := e.ws.nextCommitSeq - 1 }
    match saveCas store manifest e.ws.manifestEtag io.saveManifest
        "updating manifest after flush — another writer may be active" with
    | (store, .error err) => (e, store, .error err)
    | (store, .ok etag) =>
      ({ ws := { e.ws with
          manifestEtag := some etag
          committedWalSegmentSeq := e.ws.walSegId
          walSegId := e.ws.walSegId + 1 }
         view := { e.view with immutable := none, sstables := e.view.sstables ++ [sst] } },
        store, .ok ())

/-- Publish, truncate the whole log, and start a compaction once `threshold` tables are live. -/
def commitFlush (e : LsmEngine) (store : Store) (pending : PendingFlush) (sst : SSTable)
    (lease : LeaseHandle) (io : CommitFlushIo) (threshold : ℕ) :
    LsmEngine × Store × Except StorageError (Option PendingCompaction) :=
  match e.publishFlush store pending sst lease io with
  | (e, store, .error err) => (e, store, .error err)
  | (e, store, .ok ()) =>
    let (wal, truncated) := e.ws.wal.truncate io.truncate
    let e := { e with ws := { e.ws with wal := wal } }
    match truncated with
    | .error err => (e, store, .error err)
    | .ok () =>
      if threshold ≤ e.view.sstables.length then
        let (e, begun) := e.beginCompact lease
        (e, store, begun)
      else (e, store, .ok none)

/-- One key's versions, newest first: everything at or above the watermark, then the floor,
unless no snapshot is open and the floor is a dead tombstone. -/
def compactKey (watermark : ℕ) (key : Bytes) : List (ℕ × UInt8 × Option Bytes) → List Entry
  | [] => []
  | (seq, tag, value) :: versions =>
    if watermark ≤ seq then
      (⟨key, seq, tag⟩, value.getD []) :: compactKey watermark key versions
    else if !(watermark == u64Max && tag == deleteTag) then [(⟨key, seq, tag⟩, value.getD [])]
    else []

def groupByKey (versions : List ScannedVersion) :
    OrderedMap Bytes (List (ℕ × UInt8 × Option Bytes)) :=
  versions.foldl (fun m v => m.upsert v.1 fun group => group.getD [] ++ [v.2]) .empty

/-- All captured versions grouped by key, each group collected newest first, and the result
put back in internal-key order. -/
def compactEntries (pending : PendingCompaction) : List Entry :=
  let byKey := groupByKey (pending.sstables.flatMap SSTable.scanAllVersions)
  let entries := byKey.entries.flatMap fun e =>
    compactKey pending.watermark e.1 (e.2.insertionSort fun a b => b.1 ≤ a.1)
  entries.insertionSort fun a b => a.1 ≤ b.1

def compactRun (pending : PendingCompaction) : SortedRun where
  entries := compactEntries pending
  sorted := List.pairwise_insertionSort _ _

def finishCompact (filter : BloomFilter) (pending : PendingCompaction) (store : Store) (io : Bool) :
    Store × Except StorageError SSTable :=
  let t := SSTable.create filter pending.newId (compactRun pending)
  if io then (store.putSst t, .ok t) else (store, .error (.io "uploading sstable"))

/-- The list after a compaction: what it did not consume, then the merged table. -/
def reconcile (current : List SSTable) (pending : PendingCompaction) (merged : SSTable) :
    List SSTable :=
  current.filter (fun t => t.id ∉ pending.sstables.map SSTable.id) ++ [merged]

/-- `deleted` lists the consumed tables whose best-effort delete goes through. -/
def commitCompact (e : LsmEngine) (store : Store) (pending : PendingCompaction) (merged : SSTable)
    (lease : LeaseHandle) (saveManifest : Bool) (deleted : ℕ → Bool) :
    LsmEngine × Store × Except StorageError Unit :=
  let sstables := reconcile e.view.sstables pending merged
  let manifest : Manifest := {
    sstableIds := sstables.map SSTable.id
    walSegmentSeq := e.ws.committedWalSegmentSeq
    writerFencingToken := lease.token
    maxCommitSeq := e.ws.nextCommitSeq - 1 }
  match saveCas store manifest e.ws.manifestEtag saveManifest
      "updating manifest after compaction — another writer may be active" with
  | (store, .error err) => (e, store, .error err)
  | (store, .ok etag) =>
    ({ ws := { e.ws with manifestEtag := some etag }
       view := { e.view with sstables := sstables } },
      store.deleteSsts ((pending.sstables.map SSTable.id).filter deleted), .ok ())

/-- `SSTable::open_from_store`. The blob does not hold an id; the table gets the one it was
asked for under. -/
def openFromStore (store : Store) (id : ℕ) (io : Bool) : Except StorageError SSTable :=
  if !io then .error (.io ("reading object " ++ sstableKey id))
  else match store.sst id with
    | none => .error (.sstableNotFound (sstableKey id))
    | some t => .ok { t with id := id }

/-- The tables `open` loads, by ascending id; one whose fetch fails is skipped. -/
def loadTables (store : Store) (fetch : ℕ → Bool) : List SSTable :=
  (store.manifestIds.filterMap fun id => (openFromStore store id (fetch id)).toOption).insertionSort
    fun a b => a.id ≤ b.id

variable {store : Store}

theorem openFromStore_ok {id : ℕ} : (openFromStore store id io).toOption = some t ↔
      io = true ∧ ∃ u, store.sst id = some u ∧ { u with id := id } = t := by
  unfold openFromStore
  cases io with
  | false => simp [Except.toOption]
  | true => cases store.sst id <;> simp [Except.toOption]

theorem mem_loadTables : t ∈ loadTables store fetch ↔ ∃ id ∈ store.manifestIds, fetch id = true ∧
      ∃ u, store.sst id = some u ∧ { u with id := id } = t := by
  simp [loadTables, openFromStore_ok]

def replayRow (m : MemTable) (r : WalRecord) : MemTable := m.insert r.key r.seq r.value r.recordType

/-- `LsmEngine::open`: replay the local log, then load what the manifest lists. -/
def openEngine (wal : Wal) (store : Store) (fetch : ℕ → Bool) : Except StorageError LsmEngine :=
  let wal := wal.reopen
  match wal.replay with
  | .error err => .error err
  | .ok (records, walMaxSeq) =>
    let manifest := store.manifest.getD .default
    let sstables := loadTables store fetch
    .ok {
      ws := {
        wal := wal
        sstableId := (manifest.sstableIds.max?.map (· + 1)).getD 1
        walSegId := manifest.walSegmentSeq + 1
        manifestEtag := store.manifest
        committedWalSegmentSeq := manifest.walSegmentSeq
        nextCommitSeq :=
          max (max walMaxSeq ((sstables.map SSTable.maxSeq).foldl max 0)) manifest.maxCommitSeq + 1
        openSnapshots := .empty }
      view := {
        memtable := records.foldl replayRow (.new memtableMaxSize)
        immutable := none
        sstables := sstables } }

theorem lt_of_mem_max {ids : List ℕ} {id : ℕ} (hid : id ∈ ids) :
    id < (ids.max?.map (· + 1)).getD 1 := by
  cases hmax : ids.max? with
  | none =>
    rw [List.max?_eq_none_iff.mp hmax] at hid
    cases hid
  | some top =>
    exact Nat.lt_succ_of_le (le_max?_getD_of_mem (k := 0) hid |>.trans (by simp [hmax]))

structure Opened (wal : Wal) (store : Store) (fetch : ℕ → Bool) (e : LsmEngine) : Prop where
  wal_eq : e.ws.wal = wal.reopen
  replayed : ∃ records maxSeq, wal.reopen.replay = .ok (records, maxSeq) ∧
    e.view.memtable = records.foldl replayRow (.new memtableMaxSize) ∧ maxSeq < e.ws.nextCommitSeq
  etag : e.ws.manifestEtag = store.manifest
  no_immutable : e.view.immutable = none
  tables_eq : e.view.sstables = loadTables store fetch
  ids_lt : ∀ id ∈ store.manifestIds, id < e.ws.sstableId
  tables_lt : ∀ t ∈ loadTables store fetch, t.maxSeq < e.ws.nextCommitSeq
  manifest_lt : (store.manifest.getD .default).maxCommitSeq < e.ws.nextCommitSeq

theorem openEngine_ok (h : openEngine wal store fetch = .ok e) : Opened wal store fetch e := by
  unfold openEngine at h
  dsimp only at h
  split at h
  · cases h
  · rename_i records maxSeq hreplay
    obtain rfl := Except.ok.inj h
    have hwal :
      maxSeq ≤ max (max maxSeq (((loadTables store fetch).map SSTable.maxSeq).foldl max 0))
        (store.manifest.getD .default).maxCommitSeq :=
      (le_max_left ..).trans (le_max_left ..)
    refine ⟨rfl, ⟨records, maxSeq, hreplay, rfl, Nat.lt_succ_of_le hwal⟩, rfl, rfl, rfl,
      fun id hid => lt_of_mem_max hid, fun t ht => ?_, Nat.lt_succ_of_le (le_max_right ..)⟩
    have hmax := (SSTable.foldl_max_le.mp (le_refl
      (((loadTables store fetch).map SSTable.maxSeq).foldl max 0))).2 _ (mem_map_of_mem ht)
    exact Nat.lt_succ_of_le (hmax.trans ((le_max_right ..).trans (le_max_left ..)))

end LsmEngine
end StorageLsmEngine
