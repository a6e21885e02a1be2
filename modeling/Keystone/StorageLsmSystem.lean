import Keystone.GuardedRuns
import Keystone.StorageLsmCompaction

/-! # The engine as a step system

One engine, the tasks in flight and the shared store. Each event is one critical section
or one phase that runs without the lock, so every interleaving of any number of threads is
a list of events. Two ghost histories, newest first, record what was put into a memtable
and what was acknowledged to a caller. -/
namespace StorageLsmSystem

open VersionedLayers
open StorageInternalKey StorageMemTable StorageWal StorageManifest StorageLsmEngine

inductive Event where
  | writeBatch (batch : Batch) (lease : LeaseHandle) (io : AppendIo)
  | beginFlush (lease : LeaseHandle)
  | finishFlush (task : ℕ) (io : Bool)
  | commitFlush (task : ℕ) (lease : LeaseHandle) (io : LsmEngine.CommitFlushIo) (threshold : ℕ)
  | beginCompact (lease : LeaseHandle)
  | finishCompact (task : ℕ) (io : Bool)
  | commitCompact (task : ℕ) (lease : LeaseHandle) (saveManifest : Bool) (deleted : ℕ → Bool)
  | snapshotNow
  | registerSnapshot (seq : ℕ)
  | releaseSnapshot (seq : ℕ)
  | crashOpen (fetch : ℕ → Bool)

/-- A task is listed with its table once the upload is through. -/
structure Sys where
  engine : LsmEngine
  store : Store
  flushes : List (PendingFlush × Option SSTable)
  compactions : List (PendingCompaction × Option SSTable)
  applied : List (Version Bytes Bytes)
  acked : List (Version Bytes Bytes)

namespace Sys

abbrev mem (σ : Sys) : MemTable := σ.engine.view.memtable
abbrev imm (σ : Sys) : Option MemTable := σ.engine.view.immutable
abbrev tables (σ : Sys) : List SSTable := σ.engine.view.sstables
abbrev nextSeq (σ : Sys) : ℕ := σ.engine.ws.nextCommitSeq
abbrev nextId (σ : Sys) : ℕ := σ.engine.ws.sstableId
abbrev wal (σ : Sys) : Wal := σ.engine.ws.wal

def writeBatch (σ : Sys) (batch : Batch) (lease : LeaseHandle) (io : AppendIo) : Sys :=
  let (engine, result) := σ.engine.writeBatch batch lease io
  { σ with
    engine := engine
    flushes := match result with
      | .ok (_, some pending) => σ.flushes ++ [(pending, none)]
      | _ => σ.flushes
    applied := match io with
      | .ok => batch.versions σ.nextSeq ++ σ.applied
      | .failed _ => σ.applied
    acked := match result with
      | .ok (seq, _) => batch.versions seq ++ σ.acked
      | .error _ => σ.acked }

def beginFlush (σ : Sys) (lease : LeaseHandle) : Sys :=
  let (engine, result) := σ.engine.beginFlush lease
  { σ with
    engine := engine
    flushes := match result with
      | .ok (some pending) => σ.flushes ++ [(pending, none)]
      | _ => σ.flushes }

/-- A failed upload drops the task. -/
def finishFlush (filter : BloomFilter) (σ : Sys) (task : ℕ) (io : Bool) : Sys :=
  match σ.flushes[task]? with
  | some (pending, none) =>
    let (store, result) := LsmEngine.finishFlush filter pending σ.store io
    { σ with
      store := store
      flushes := match result with
        | .ok t => σ.flushes.set task (pending, some t)
        | .error _ => σ.flushes.eraseIdx task }
  | _ => σ

/-- The commit consumes the task, whatever it returns. -/
def commitFlush (σ : Sys) (task : ℕ) (lease : LeaseHandle) (io : LsmEngine.CommitFlushIo)
    (threshold : ℕ) : Sys :=
  match σ.flushes[task]? with
  | some (pending, some t) =>
    let (engine, store, result) := σ.engine.commitFlush σ.store pending t lease io threshold
    { σ with
      engine := engine
      store := store
      flushes := σ.flushes.eraseIdx task
      compactions := match result with
        | .ok (some begun) => σ.compactions ++ [(begun, none)]
        | _ => σ.compactions }
  | _ => σ

def beginCompact (σ : Sys) (lease : LeaseHandle) : Sys :=
  let (engine, result) := σ.engine.beginCompact lease
  { σ with
    engine := engine
    compactions := match result with
      | .ok (some begun) => σ.compactions ++ [(begun, none)]
      | _ => σ.compactions }

def finishCompact (filter : BloomFilter) (σ : Sys) (task : ℕ) (io : Bool) : Sys :=
  match σ.compactions[task]? with
  | some (pending, none) =>
    let (store, result) := LsmEngine.finishCompact filter pending σ.store io
    { σ with
      store := store
      compactions := match result with
        | .ok t => σ.compactions.set task (pending, some t)
        | .error _ => σ.compactions.eraseIdx task }
  | _ => σ

def commitCompact (σ : Sys) (task : ℕ) (lease : LeaseHandle) (saveManifest : Bool)
    (deleted : ℕ → Bool) : Sys :=
  match σ.compactions[task]? with
  | some (pending, some merged) =>
    let (engine, store, _) :=
      σ.engine.commitCompact σ.store pending merged lease saveManifest deleted
    { σ with engine := engine, store := store, compactions := σ.compactions.eraseIdx task }
  | _ => σ

/-- A crash drops everything but the log file and the store; no step if `open` refuses. -/
def crashOpen (σ : Sys) (fetch : ℕ → Bool) : Sys :=
  match LsmEngine.openEngine σ.wal σ.store fetch with
  | .ok engine => { σ with engine := engine, flushes := [], compactions := [] }
  | .error _ => σ

end Sys

def next (filter : BloomFilter) (σ : Sys) : Event → Sys
  | .writeBatch batch lease io => σ.writeBatch batch lease io
  | .beginFlush lease => σ.beginFlush lease
  | .finishFlush task io => σ.finishFlush filter task io
  | .commitFlush task lease io threshold => σ.commitFlush task lease io threshold
  | .beginCompact lease => σ.beginCompact lease
  | .finishCompact task io => σ.finishCompact filter task io
  | .commitCompact task lease saveManifest deleted =>
    σ.commitCompact task lease saveManifest deleted
  | .snapshotNow => { σ with engine := σ.engine.snapshotNow.1 }
  | .registerSnapshot seq => { σ with engine := σ.engine.registerSnapshot seq }
  | .releaseSnapshot seq => { σ with engine := σ.engine.releaseSnapshot seq }
  | .crashOpen fetch => σ.crashOpen fetch

def emptyWal (path : String) : Wal := ⟨path, [], 0⟩

def freshEngine (path : String) : LsmEngine where
  ws := {
    wal := emptyWal path
    sstableId := 1
    walSegId := 1
    manifestEtag := none
    committedWalSegmentSeq := 0
    nextCommitSeq := 1
    openSnapshots := .empty }
  view := { memtable := .new memtableMaxSize, immutable := none, sstables := [] }

def initial (path : String) : Sys := ⟨freshEngine path, .empty, [], [], [], []⟩

/-! Inputs for concrete runs: a filter without false positives, a lease that is held, and
batches of one row. -/

def exactFilter : BloomFilter := ⟨fun keys k => keys.contains k, by simp⟩
def heldLease : LeaseHandle := ⟨1, true⟩
def lostLease : LeaseHandle := ⟨1, false⟩
def putRow (key value : Bytes) : Batch := ⟨[⟨[116], key, some value⟩], by simp⟩
def deleteRow (key : Bytes) : Batch := ⟨[⟨[116], key, none⟩], by simp⟩

def put (key value : Bytes) : Event := .writeBatch (putRow key value) heldLease .ok

def flushPhases : List Event :=
  [.beginFlush heldLease, .finishFlush 0 true, .commitFlush 0 heldLease .allOk 4]

def compactPhases : List Event :=
  [.beginCompact heldLease, .finishCompact 0 true, .commitCompact 0 heldLease true fun _ => true]

end StorageLsmSystem
