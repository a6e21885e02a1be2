import Keystone.StorageLsmSystem

/-! # What a step can do

Every event is a short sequence of elementary changes of the state: rows go into the
memtable, the memtable is frozen, a table is published, the log is truncated, a table list
is captured, captured tables are replaced. `Does` lists the sequences with the conditions
under which they occur, so that invariants are proved once per elementary change. -/
namespace StorageLsmSteps

open GuardedRuns List OrderedMaps VersionedLayers
open StorageInternalKey StorageMemTable StorageWal StorageManifest StorageLsmEngine StorageLsmSystem
open LsmEngine (CommitFlushIo compactRun reconcile insertRow)

inductive Op where
  | failAppend (batch : Batch) (written : ℕ)
  | addRows (batch : Batch)
  | ack (versions : List (Version Bytes Bytes))
  | freeze
  | uploadFlush (task : ℕ) (pending : PendingFlush)
  | dropFlush (task : ℕ)
  | shipSegment
  | publish (task : ℕ) (pending : PendingFlush) (t : SSTable) (lease : LeaseHandle)
  | truncateLog (io : TruncateIo)
  | capture
  | uploadCompact (task : ℕ) (pending : PendingCompaction)
  | dropCompact (task : ℕ)
  | replace (task : ℕ) (pending : PendingCompaction) (merged : SSTable) (lease : LeaseHandle)
      (deleted : ℕ → Bool)
  | setSnapshots (snapshots : OrderedMap ℕ ℕ)

def watermark (σ : Sys) : ℕ := σ.engine.ws.openSnapshots.keys.head?.getD u64Max

variable {σ : Sys}

theorem watermark_le (h : s ∈ σ.engine.ws.openSnapshots.keys) : watermark σ ≤ s := by
  unfold watermark
  cases hhead : σ.engine.ws.openSnapshots.keys.head? with
  | none =>
    rw [List.head?_eq_none_iff.mp hhead] at h
    cases h
  | some m => exact OrderedMap.head_le hhead h

def flushTable (filter : BloomFilter) (p : PendingFlush) : SSTable :=
  .create filter p.sstableId p.entries

def mergedTable (filter : BloomFilter) (p : PendingCompaction) : SSTable :=
  .create filter p.newId (compactRun p)

def flushManifest (σ : Sys) (p : PendingFlush) (lease : LeaseHandle) : Manifest where
  sstableIds := σ.tables.map SSTable.id ++ [p.sstableId]
  walSegmentSeq := σ.engine.ws.walSegId
  writerFencingToken := lease.token
  maxCommitSeq := σ.nextSeq - 1

def compactManifest (σ : Sys) (p : PendingCompaction) (merged : SSTable) (lease : LeaseHandle) :
    Manifest where
  sstableIds := (reconcile σ.tables p merged).map SSTable.id
  walSegmentSeq := σ.engine.ws.committedWalSegmentSeq
  writerFencingToken := lease.token
  maxCommitSeq := σ.nextSeq - 1

def apply (filter : BloomFilter) (σ : Sys) : Op → Sys
  | .failAppend batch written =>
    { σ with engine := { σ.engine with ws := { σ.engine.ws with
      nextCommitSeq := σ.nextSeq + 1
      wal := (σ.wal.appendBatch σ.nextSeq (batch.rows.map BatchRow.walEntry) (.failed written)).1 }
        } }
  | .addRows batch =>
    { σ with
      engine := {
        ws := { σ.engine.ws with
          nextCommitSeq := σ.nextSeq + 1
          wal := (σ.wal.appendBatch σ.nextSeq (batch.rows.map BatchRow.walEntry) .ok).1 }
        view := { σ.engine.view with
          memtable := batch.rows.foldl (insertRow σ.nextSeq) σ.mem } }
      applied := batch.versions σ.nextSeq ++ σ.applied }
  | .ack versions => { σ with acked := versions ++ σ.acked }
  | .freeze =>
    { σ with
      engine := {
        ws := { σ.engine.ws with
          sstableId := if σ.mem.toEntries.entries.isEmpty then σ.nextId else σ.nextId + 1 }
        view := { σ.engine.view with
          memtable := .new memtableMaxSize
          immutable := some σ.mem } }
      flushes := if σ.mem.toEntries.entries.isEmpty then σ.flushes
        else σ.flushes ++ [(⟨σ.mem.toEntries, σ.nextId⟩, none)] }
  | .uploadFlush task p =>
    { σ with
      store := σ.store.putSst (flushTable filter p)
      flushes := σ.flushes.set task (p, some (flushTable filter p)) }
  | .dropFlush task => { σ with flushes := σ.flushes.eraseIdx task }
  | .shipSegment =>
    { σ with store := if σ.wal.file ≠ [] then
        σ.store.putWalSegment σ.engine.ws.walSegId σ.wal.file else σ.store }
  | .publish task p t lease =>
    { σ with
      engine := {
        ws := { σ.engine.ws with
          manifestEtag := some (flushManifest σ p lease)
          committedWalSegmentSeq := σ.engine.ws.walSegId
          walSegId := σ.engine.ws.walSegId + 1 }
        view := { σ.engine.view with immutable := none, sstables := σ.tables ++ [t] } }
      store := { σ.store with manifest := some (flushManifest σ p lease) }
      flushes := σ.flushes.eraseIdx task }
  | .truncateLog io =>
    { σ with engine := { σ.engine with ws := { σ.engine.ws with wal := (σ.wal.truncate io).1 } } }
  | .capture =>
    { σ with
      engine := { σ.engine with ws := { σ.engine.ws with sstableId := σ.nextId + 1 } }
      compactions := σ.compactions ++ [(⟨σ.tables, watermark σ, σ.nextId⟩, none)] }
  | .uploadCompact task p =>
    { σ with
      store := σ.store.putSst (mergedTable filter p)
      compactions := σ.compactions.set task (p, some (mergedTable filter p)) }
  | .dropCompact task => { σ with compactions := σ.compactions.eraseIdx task }
  | .replace task p merged lease deleted =>
    { σ with
      engine := {
        ws := { σ.engine.ws with manifestEtag := some (compactManifest σ p merged lease) }
        view := { σ.engine.view with sstables := reconcile σ.tables p merged } }
      store := { σ.store with manifest := some (compactManifest σ p merged lease) }.deleteSsts
        ((p.sstables.map SSTable.id).filter deleted)
      compactions := σ.compactions.eraseIdx task }
  | .setSnapshots snapshots =>
    { σ with engine := { σ.engine with ws := { σ.engine.ws with openSnapshots := snapshots } } }

def Enabled (σ : Sys) : Op → Prop
  | .uploadFlush task p => σ.flushes[task]? = some (p, none)
  | .publish task p t _ =>
    σ.flushes[task]? = some (p, some t) ∧ σ.engine.ws.manifestEtag = σ.store.manifest
  | .truncateLog _ => σ.nextSeq - 1 ≤ (σ.store.manifest.getD .default).maxCommitSeq
  | .capture => 2 ≤ σ.tables.length
  | .uploadCompact task p => σ.compactions[task]? = some (p, none)
  | .replace task p merged _ _ =>
    σ.compactions[task]? = some (p, some merged) ∧ σ.engine.ws.manifestEtag = σ.store.manifest
  | _ => True

variable {filter : BloomFilter}

theorem mem_flushes_freeze (h : f ∈ (apply filter σ .freeze).flushes) :
    f ∈ σ.flushes ∨ f = (⟨σ.mem.toEntries, σ.nextId⟩, none) := by
  simp only [apply] at h
  split_ifs at h
  · exact .inl h
  · exact (mem_append.mp h).imp_right mem_singleton.mp

theorem mem_compactions_capture (h : c ∈ (apply filter σ .capture).compactions) :
    c ∈ σ.compactions ∨ c = (⟨σ.tables, watermark σ, σ.nextId⟩, none) :=
  (mem_append.mp h).imp_right mem_singleton.mp

section Lists

variable {α : Type*} {P : α → Prop} {l : List α} {a : α}

theorem forall_mem_set (h : ∀ x ∈ l, P x) (ha : P a) : ∀ x ∈ l.set i a, P x := by
  intro x hx
  rcases mem_or_eq_of_mem_set hx with hx | rfl
  · exact h x hx
  · exact ha

theorem forall_mem_concat (h : ∀ x ∈ l, P x) (ha : P a) : ∀ x ∈ l ++ [a], P x :=
  forall_mem_append.mpr ⟨h, forall_mem_singleton.mpr ha⟩

end Lists

theorem forall_mem_freeze {P : PendingFlush × Option SSTable → Prop} (h : ∀ f ∈ σ.flushes, P f)
    (hnew : P (⟨σ.mem.toEntries, σ.nextId⟩, none)) :
    ∀ f ∈ (apply filter σ .freeze).flushes, P f := by
  intro f hf
  rcases mem_flushes_freeze hf with hf | rfl
  · exact h f hf
  · exact hnew

def Fills (σ : Sys) (batch : Batch) : Prop :=
  (batch.rows.foldl (insertRow σ.nextSeq) σ.mem).isFull = true

instance (σ : Sys) (batch : Batch) : Decidable (Fills σ batch) :=
  inferInstanceAs (Decidable (_ = true))

/-- The changes each event can make. A crash is not among them. -/
inductive Does (σ : Sys) : Event → List Op → Prop where
  | appendFailed (batch lease written) :
      Does σ (.writeBatch batch lease (.failed written)) [.failAppend batch written]
  | wrote (batch lease) (h : ¬ Fills σ batch) :
      Does σ (.writeBatch batch lease .ok) [.addRows batch, .ack (batch.versions σ.nextSeq)]
  | wroteAndFroze (batch lease) (h : Fills σ batch) (hl : lease.valid = true) :
      Does σ (.writeBatch batch lease .ok)
        [.addRows batch, .freeze, .ack (batch.versions σ.nextSeq)]
  | wroteFenced (batch lease) (h : Fills σ batch) (hl : lease.valid = false) :
      Does σ (.writeBatch batch lease .ok) [.addRows batch]
  | froze (lease) (hl : lease.valid = true) : Does σ (.beginFlush lease) [.freeze]
  | uploadedFlush (task p) (h : σ.flushes[task]? = some (p, none)) :
      Does σ (.finishFlush task true) [.uploadFlush task p]
  | droppedFlush (task p) (h : σ.flushes[task]? = some (p, none)) :
      Does σ (.finishFlush task false) [.dropFlush task]
  | flushUnread (task lease io threshold) :
      Does σ (.commitFlush task lease io threshold) [.dropFlush task]
  | flushRefused (task lease io threshold) :
      Does σ (.commitFlush task lease io threshold) [.shipSegment, .dropFlush task]
  | flushed (task lease io threshold p t) (h : σ.flushes[task]? = some (p, some t))
      (he : σ.engine.ws.manifestEtag = σ.store.manifest) :
      Does σ (.commitFlush task lease io threshold)
        [.shipSegment, .publish task p t lease, .truncateLog io.truncate]
  | flushedAndCaptured (task lease io threshold p t) (h : σ.flushes[task]? = some (p, some t))
      (he : σ.engine.ws.manifestEtag = σ.store.manifest) (ht : io.truncate = .ok)
      (hl : 2 ≤ (σ.tables ++ [t]).length) :
      Does σ (.commitFlush task lease io threshold)
        [.shipSegment, .publish task p t lease, .truncateLog io.truncate, .capture]
  | captured (lease) (h : 2 ≤ σ.tables.length) : Does σ (.beginCompact lease) [.capture]
  | uploadedCompact (task p) (h : σ.compactions[task]? = some (p, none)) :
      Does σ (.finishCompact task true) [.uploadCompact task p]
  | droppedCompact (task p) (h : σ.compactions[task]? = some (p, none)) :
      Does σ (.finishCompact task false) [.dropCompact task]
  | compactRefused (task lease saveManifest deleted) :
      Does σ (.commitCompact task lease saveManifest deleted) [.dropCompact task]
  | compacted (task lease saveManifest deleted p merged)
      (h : σ.compactions[task]? = some (p, some merged))
      (he : σ.engine.ws.manifestEtag = σ.store.manifest) :
      Does σ (.commitCompact task lease saveManifest deleted)
        [.replace task p merged lease deleted]
  | snapshotNow : Does σ .snapshotNow
      [.setSnapshots (σ.engine.snapshotNow.1).ws.openSnapshots]
  | registered (seq) : Does σ (.registerSnapshot seq)
      [.setSnapshots (σ.engine.registerSnapshot seq).ws.openSnapshots]
  | released (seq) : Does σ (.releaseSnapshot seq)
      [.setSnapshots (σ.engine.releaseSnapshot seq).ws.openSnapshots]
  | nothing (e) : Does σ e []

def Event.isCrash : Event → Bool
  | .crashOpen _ => true
  | _ => false

@[simp] theorem manifest_shipSegment : (apply filter σ .shipSegment).store.manifest =
    σ.store.manifest := by
  unfold apply
  split_ifs <;> rfl

@[simp] theorem sst_shipSegment (filter : BloomFilter) (σ : Sys) :
    (apply filter σ .shipSegment).store.sst = σ.store.sst := by
  unfold apply
  split_ifs <;> rfl

variable {e : Event}

theorem does_enabled (filter : BloomFilter) (h : Does σ e ops) :
    Along (apply filter) Enabled σ ops := by
  have hship : ∀ {task p t lease}, σ.flushes[task]? = some (p, some t) →
      σ.engine.ws.manifestEtag = σ.store.manifest →
      Enabled (apply filter σ .shipSegment) (.publish task p t lease) :=
    fun h he => ⟨h, he.trans (manifest_shipSegment).symm⟩
  cases h with
  | flushed task lease io threshold p t h he => exact ⟨trivial, hship h he, le_rfl, trivial⟩
  | flushedAndCaptured task lease io threshold p t h he ht hl =>
    exact ⟨trivial, hship h he, le_rfl, hl, trivial⟩
  | uploadedFlush task p h | captured lease h | uploadedCompact task p h => exact ⟨h, trivial⟩
  | compacted task lease saveManifest deleted p merged h he => exact ⟨⟨h, he⟩, trivial⟩
  | wrote => exact ⟨trivial, trivial, trivial⟩
  | wroteAndFroze => exact ⟨trivial, trivial, trivial, trivial⟩
  | flushRefused => exact ⟨trivial, trivial, trivial⟩
  | nothing => trivial
  | _ => exact ⟨trivial, trivial⟩

section Cover

variable (filter : BloomFilter) (σ : Sys)

/-- The event leads to `τ` in steps. -/
def LeadsTo (e : Event) (τ : Sys) : Prop := ∃ ops, Does σ e ops ∧ τ = run (apply filter) σ ops

theorem writeBatch_cases : (¬ Fills σ batch ∧ next filter σ (.writeBatch batch lease .ok) =
      run (apply filter) σ [.addRows batch, .ack (batch.versions σ.nextSeq)]) ∨
    (Fills σ batch ∧ lease.valid = true ∧ next filter σ (.writeBatch batch lease .ok) =
      run (apply filter) σ [.addRows batch, .freeze, .ack (batch.versions σ.nextSeq)]) ∨
    (Fills σ batch ∧ lease.valid = false ∧ next filter σ (.writeBatch batch lease .ok) =
      run (apply filter) σ [.addRows batch]) := by
  have hfull : Fills σ batch ↔ (batch.rows.foldl (insertRow σ.engine.ws.nextCommitSeq)
      σ.engine.view.memtable).isFull = true := Iff.rfl
  simp only [StorageLsmSystem.next, Sys.writeBatch, LsmEngine.writeBatch, Wal.appendBatch,
    LsmEngine.beginFlush, run_cons, apply, hfull]
  by_cases hl : lease.valid = true <;> split_ifs <;> simp_all

theorem writeBatch_does :
    LeadsTo filter σ (.writeBatch batch lease io) (next filter σ (.writeBatch batch lease io)) := by
  cases io with
  | failed written => exact ⟨_, .appendFailed batch lease written, rfl⟩
  | ok =>
    rcases writeBatch_cases filter σ with ⟨hf, h⟩ | ⟨hf, hl, h⟩ | ⟨hf, hl, h⟩
    · exact ⟨_, .wrote batch lease hf, h⟩
    · exact ⟨_, .wroteAndFroze batch lease hf hl, h⟩
    · exact ⟨_, .wroteFenced batch lease hf hl, h⟩

theorem beginFlush_ok (hl : lease.valid = true) :
    next filter σ (.beginFlush lease) = apply filter σ .freeze := by
  simp only [StorageLsmSystem.next, Sys.beginFlush, LsmEngine.beginFlush, apply]
  split_ifs <;> simp_all

theorem beginFlush_does : LeadsTo filter σ (.beginFlush lease)
    (next filter σ (.beginFlush lease)) := by
  by_cases hl : lease.valid = true
  · exact ⟨_, .froze lease hl, beginFlush_ok filter σ hl⟩
  · exact ⟨_, .nothing _, by simp [StorageLsmSystem.next, Sys.beginFlush, LsmEngine.beginFlush, hl]⟩

theorem finishFlush_does : LeadsTo filter σ (.finishFlush task io)
    (σ.finishFlush filter task io) := by
  unfold Sys.finishFlush
  split
  next p h =>
    cases io with
    | true => exact ⟨_, .uploadedFlush task p h, rfl⟩
    | false => exact ⟨_, .droppedFlush task p h, rfl⟩
  next => exact ⟨_, .nothing _, rfl⟩

/-- A flush commit up to the published view: it stops before the manifest update, at it, or
publishes. -/
theorem publishFlush_cases (p : PendingFlush) (t : SSTable) (lease : LeaseHandle)
    (io : CommitFlushIo) :
    (∃ err, σ.engine.publishFlush σ.store p t lease io = (σ.engine, σ.store, .error err)) ∨
    (∃ err, σ.engine.publishFlush σ.store p t lease io =
      (σ.engine, (apply filter σ .shipSegment).store, .error err)) ∨
    (σ.engine.ws.manifestEtag = σ.store.manifest ∧
      ∀ task, let τ := run (apply filter) σ [.shipSegment, .publish task p t lease]
        σ.engine.publishFlush σ.store p t lease io = (τ.engine, τ.store, .ok ())) := by
  by_cases hread : (!io.readWal) = true
  · exact .inl ⟨_, by rw [LsmEngine.publishFlush, if_pos hread]⟩
  by_cases hput : σ.engine.ws.wal.file ≠ [] ∧ (!io.putSegment) = true
  · exact .inl ⟨_, by rw [LsmEngine.publishFlush, if_neg hread, if_pos hput]⟩
  unfold LsmEngine.publishFlush
  rw [if_neg hread, if_neg hput]
  rcases saveCas_cases (apply filter σ .shipSegment).store (flushManifest σ p lease)
    σ.engine.ws.manifestEtag io.saveManifest
    "updating manifest after flush — another writer may be active" with ⟨he, _, hcas⟩ | ⟨_, hcas⟩
  · refine .inr (.inr ⟨he.trans (manifest_shipSegment), fun task => ?_⟩)
    simp only [apply, flushManifest] at hcas
    simp only [hcas, run_cons, run_nil, apply, flushManifest]
  · refine .inr (Or.inl
      ⟨.manifestCas "updating manifest after flush — another writer may be active", ?_⟩)
    simp only [apply, flushManifest] at hcas
    simp only [hcas, apply]

theorem commitFlush_does :
    LeadsTo filter σ (.commitFlush task lease io threshold)
      (σ.commitFlush task lease io threshold) := by
  unfold Sys.commitFlush
  split
  next p t h =>
    unfold LsmEngine.commitFlush
    rcases publishFlush_cases filter σ p t lease io with ⟨err, hp⟩ | ⟨err, hp⟩ | ⟨he, hp⟩
    · exact ⟨_, .flushUnread task lease io threshold, by rw [hp]; rfl⟩
    · exact ⟨_, .flushRefused task lease io threshold, by rw [hp]; rfl⟩
    · rw [hp task]
      have hshort : LeadsTo filter σ (.commitFlush task lease io threshold) (run (apply filter) σ
          [.shipSegment, .publish task p t lease, .truncateLog io.truncate]) := ⟨_,
            .flushed task lease io threshold p t h he, rfl⟩
      cases htr : io.truncate with
      | failed | unsynced => rw [htr] at hshort; exact hshort
      | ok =>
        rw [htr] at hshort
        simp only
        split_ifs with hthr
        · unfold LsmEngine.beginCompact
          split_ifs with hlen hl
          · exact hshort
          · exact hshort
          · refine ⟨_, .flushedAndCaptured task lease io threshold p t h he htr
              (not_lt.mp hlen), ?_⟩
            rw [htr]
            rfl
        · exact hshort
  next => exact ⟨_, .nothing _, rfl⟩

theorem beginCompact_does : LeadsTo filter σ (.beginCompact lease) (σ.beginCompact lease) := by
  unfold Sys.beginCompact LsmEngine.beginCompact
  split_ifs with hlen hl
  · exact ⟨_, .nothing _, rfl⟩
  · exact ⟨_, .nothing _, rfl⟩
  · exact ⟨_, .captured lease (not_lt.mp hlen), rfl⟩

theorem finishCompact_does : LeadsTo filter σ (.finishCompact task io)
    (σ.finishCompact filter task io) := by
  unfold Sys.finishCompact
  split
  next p h =>
    cases io with
    | true => exact ⟨_, .uploadedCompact task p h, rfl⟩
    | false => exact ⟨_, .droppedCompact task p h, rfl⟩
  next => exact ⟨_, .nothing _, rfl⟩

theorem commitCompact_does : LeadsTo filter σ (.commitCompact task lease saveManifest deleted)
    (σ.commitCompact task lease saveManifest deleted) := by
  unfold Sys.commitCompact
  split
  next p merged h =>
    rcases saveCas_cases σ.store (compactManifest σ p merged lease) σ.engine.ws.manifestEtag
      saveManifest "updating manifest after compaction — another writer may be active" with
      ⟨he, _, hcas⟩ | ⟨_, hcas⟩
    · refine ⟨_, .compacted task lease saveManifest deleted p merged h he, ?_⟩
      unfold compactManifest at hcas
      simp [LsmEngine.commitCompact, hcas, apply, compactManifest]
    · refine ⟨_, .compactRefused task lease saveManifest deleted, ?_⟩
      unfold compactManifest at hcas
      simp [LsmEngine.commitCompact, hcas, apply]
  next => exact ⟨_, .nothing _, rfl⟩

variable {task : ℕ}

theorem finishFlush_ok (h : σ.flushes[task]? = some (p, none)) :
    next filter σ (.finishFlush task true) = apply filter σ (.uploadFlush task p) := by
  simp only [StorageLsmSystem.next, Sys.finishFlush, h]
  rfl

theorem finishCompact_ok (h : σ.compactions[task]? = some (p, none)) :
    next filter σ (.finishCompact task true) = apply filter σ (.uploadCompact task p) := by
  simp only [StorageLsmSystem.next, Sys.finishCompact, h]
  rfl

theorem commitFlush_ok (lease : LeaseHandle) (threshold : ℕ)
    (h : σ.flushes[task]? = some (p, some t))
    (he : σ.engine.ws.manifestEtag = σ.store.manifest) :
    ∃ tail, (tail = [] ∨ tail = [Op.capture]) ∧
      next filter σ (.commitFlush task lease .allOk threshold) =
        run (apply filter) σ ([.shipSegment, .publish task p t lease, .truncateLog .ok] ++
          tail) := by
  have hpublish : σ.engine.publishFlush σ.store p t lease .allOk =
      ((run (apply filter) σ [.shipSegment, .publish task p t lease]).engine,
        (run (apply filter) σ [.shipSegment, .publish task p t lease]).store, .ok ()) := by
    unfold LsmEngine.publishFlush CommitFlushIo.allOk
    rcases saveCas_cases (apply filter σ .shipSegment).store (flushManifest σ p lease)
      σ.engine.ws.manifestEtag true
      "updating manifest after flush — another writer may be active" with ⟨_, _, hcas⟩ | ⟨hno, _⟩
    · simp only [apply, flushManifest] at hcas
      simp only [Bool.not_true, Bool.false_eq_true, and_false, if_false, hcas, run_cons, run_nil,
        apply, flushManifest]
    · exact absurd he (by simpa using hno)
  have htruncate : CommitFlushIo.allOk.truncate = .ok := rfl
  simp only [StorageLsmSystem.next, Sys.commitFlush, h, LsmEngine.commitFlush, hpublish]
  split_ifs with hthr
  · unfold LsmEngine.beginCompact
    split_ifs with hlen hl
    · exact ⟨[], .inl rfl, rfl⟩
    · exact ⟨[], .inl rfl, rfl⟩
    · exact ⟨[.capture], .inr rfl, rfl⟩
  · exact ⟨[], .inl rfl, rfl⟩

theorem next_does (he : Event.isCrash e = false) :
    LeadsTo filter σ e (next filter σ e) := by
  cases e with
  | writeBatch batch lease io => exact writeBatch_does filter σ
  | beginFlush lease => exact beginFlush_does filter σ
  | finishFlush task io => exact finishFlush_does filter σ
  | commitFlush task lease io threshold => exact commitFlush_does filter σ
  | beginCompact lease => exact beginCompact_does filter σ
  | finishCompact task io => exact finishCompact_does filter σ
  | commitCompact task lease saveManifest deleted =>
    exact commitCompact_does filter σ
  | snapshotNow => exact ⟨_, .snapshotNow, rfl⟩
  | registerSnapshot seq => exact ⟨_, .registered seq, rfl⟩
  | releaseSnapshot seq =>
    refine ⟨_, .released seq, ?_⟩
    simp only [StorageLsmSystem.next, LsmEngine.releaseSnapshot]
    split <;> rfl
  | crashOpen fetch => cases he

end Cover

/-- An invariant of every enabled change is an invariant of every step but a crash. -/
theorem next_invariant {I : Sys → Prop} (hop : ∀ σ op, I σ → Enabled σ op → I (apply filter σ op))
    (he : Event.isCrash e = false) (hσ : I σ) : I (next filter σ e) := by
  obtain ⟨ops, hdoes, hnext⟩ := next_does filter σ he
  rw [hnext]
  exact (does_enabled filter hdoes).invariant hop hσ

/-- The guarded form: a guard on events that entails a guard on the changes they make. -/
theorem next_invariant_of_guard {I : Sys → Prop}
    (hop : ∀ σ op, I σ → Enabled σ op → G σ op → I (apply filter σ op))
      (he : Event.isCrash e = false)
    (hguard : ∀ ops, Does σ e ops → Along (apply filter) G σ ops) (hσ : I σ) :
    I (next filter σ e) := by
  obtain ⟨ops, hdoes, hnext⟩ := next_does filter σ he
  rw [hnext]
  exact ((does_enabled filter hdoes).and (hguard ops hdoes)).invariant
    (fun σ op hσ h => hop σ op hσ h.1 h.2) hσ

end StorageLsmSteps
