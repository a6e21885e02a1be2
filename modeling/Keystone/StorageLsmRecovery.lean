import Keystone.StorageLsmInvariant
import Mathlib.Data.List.MinMax

/-! # What `open` rebuilds

From a log of whole batches `open` rebuilds a memtable with exactly the logged rows; from
the manifest it loads the live tables, by ascending id; and the next sequence number is
above everything it has seen. -/
namespace StorageLsmRecovery

open GuardedRuns List VersionedLayers
open StorageInternalKey StorageMemTable StorageWal StorageManifest StorageLsmEngine StorageLsmSystem
open StorageLsmSteps StorageLsmInvariant
open LsmEngine (insertRow replayRow loadTables openEngine)

section Tables

variable {σ : Sys} {fetch : ℕ → Bool}

theorem loadTables_perm (h : Placement σ) (hfetch : ∀ id ∈ σ.store.manifestIds, fetch id = true) :
    (loadTables σ.store fetch).Perm σ.tables := by
  have hone : ∀ t ∈ σ.tables,
      (LsmEngine.openFromStore σ.store t.id (fetch t.id)).toOption = some t := fun t ht =>
    LsmEngine.openFromStore_ok.mpr ⟨hfetch t.id (h.manifest_ids.mem_iff.mpr
      (mem_map_of_mem ht)), t, h.stored t ht, rfl⟩
  have hload : (σ.tables.map SSTable.id).filterMap (fun id =>
      (LsmEngine.openFromStore σ.store id (fetch id)).toOption) = σ.tables := by
    rw [filterMap_map]
    exact (filterMap_congr hone).trans filterMap_some
  refine (perm_insertionSort ..).trans ?_
  exact (h.manifest_ids.filterMap _).trans (List.Perm.of_eq hload)

theorem loadTables_increasing (h : Placement σ)
    (hfetch : ∀ id ∈ σ.store.manifestIds, fetch id = true) :
    (loadTables σ.store fetch).Pairwise fun a b => a.id < b.id := by
  have hle : (loadTables σ.store fetch).Pairwise fun a b => a.id ≤ b.id :=
    pairwise_insertionSort _ _
  have hnodup : ((loadTables σ.store fetch).map SSTable.id).Nodup :=
    ((loadTables_perm h hfetch).map SSTable.id).nodup_iff.mpr h.tables_nodup
  exact (hle.and (pairwise_map.mp hnodup)).imp fun hab => lt_of_le_of_ne hab.1 hab.2

end Tables

def logRows (log : List (ℕ × Batch)) : List (Version Bytes Bytes) :=
  (log.map fun e => e.2.versions e.1).flatten

variable {log : List (ℕ × Batch)} {v : Version Bytes Bytes}

structure Logs (wal : Wal) (log : List (ℕ × Batch)) (bound : ℕ) : Prop where
  holds : wal.Holds (log.map fun e => e.2.walBatch e.1)
  increasing : log.Pairwise fun a b => a.1 < b.1
  below : ∀ e ∈ log, e.1 < bound

def recordRow (r : WalRecord) : Version Bytes Bytes := rowOf (⟨r.key, r.seq, r.recordType⟩, r.value)

def replayedRows (wal : Wal) : List (Version Bytes Bytes) :=
  match wal.replay with
  | .ok (records, _) => records.map recordRow
  | .error _ => []

theorem records_walBatch (b : Batch) :
    (b.walBatch seq).records = b.rows.map fun r => r.walEntry.record seq := by
  simp [WalBatch.records, Batch.walBatch]

theorem foldl_replayRow (b : Batch) :
    (b.walBatch seq).records.foldl replayRow m = b.rows.foldl (insertRow seq) m := by
  rw [records_walBatch, foldl_map]
  rfl

/-- Replaying batches in order of their sequence numbers puts exactly their rows into the
memtable. -/
theorem mem_rows_replay (hinc : log.Pairwise fun a b => a.1 < b.1)
    (hm : ∀ v ∈ m.rows, ∀ e ∈ log, v.seq < e.1) :
    v ∈ (((log.map fun e => e.2.walBatch e.1).map WalBatch.records).flatten.foldl
      replayRow m).rows ↔
      v ∈ logRows log ∨ v ∈ m.rows := by
  induction log generalizing m with
  | nil => simp [logRows]
  | cons e log ih =>
    obtain ⟨hhead, htail⟩ := pairwise_cons.mp hinc
    have hins : ∀ w, w ∈ (e.2.rows.foldl (insertRow e.1) m).rows ↔ w ∈ e.2.versions e.1 ∨
      w ∈ m.rows := fun w =>
      mem_rows_foldl_insertRow e.2.distinct
        fun _ _ x hx _ => ne_of_lt (hm x hx e mem_cons_self)
    simp only [map_cons, flatten_cons, foldl_append, foldl_replayRow]
    rw [ih htail, hins]
    · simp [logRows, or_left_comm, or_assoc]
    · intro w hw x hx
      rcases (hins w).mp hw with hw | hw
      · rw [seq_of_mem_versions hw]
        exact hhead x hx
      · exact hm w hw x (.tail _ hx)

namespace Logs

variable {wal : Wal} {log : List (ℕ × Batch)} {bound : ℕ}

theorem replayedRows_eq (h : Logs wal log bound) : replayedRows wal = logRows log := by
  have hrow : ∀ (b : Batch) seq, (b.walBatch seq).records.map recordRow = b.versions seq := by
    intro b seq
    rw [records_walBatch, map_map]
    exact map_congr_left fun r _ => rowOf_batchRow r seq
  simp [replayedRows, h.holds.replay_eq, logRows, Function.comp_def, hrow]

theorem append (h : Logs wal log bound) (hfit : (b.walBatch bound).Fits) :
    Logs (wal.appendBatch bound (b.rows.map BatchRow.walEntry) .ok).1 (log ++ [(bound, b)])
      (bound + 1) where
  holds := by
    rw [map_append]
    exact h.holds.append_ok hfit
  increasing := by
    refine pairwise_append.mpr ⟨h.increasing, pairwise_singleton .., ?_⟩
    intro e he x hx
    rw [mem_singleton.mp hx]
    exact h.below e he
  below := by
    intro e he
    rcases mem_append.mp he with he | he
    · exact Nat.lt_succ_of_lt (h.below e he)
    · rw [mem_singleton.mp he]
      exact Nat.lt_succ_self bound

theorem mem_logRows_append : v ∈ logRows (log ++ [(bound, b)]) ↔ v ∈ b.versions bound ∨
    v ∈ logRows log := by
  simp [logRows, or_comm]

end Logs

structure Recovered (wal : Wal) (store : Store) (fetch : ℕ → Bool) (log : List (ℕ × Batch))
    (engine : LsmEngine) : Prop where
  wal_eq : engine.ws.wal = wal
  etag : engine.ws.manifestEtag = store.manifest
  mem_rows : ∀ v, v ∈ engine.view.memtable.rows ↔ v ∈ logRows log
  no_immutable : engine.view.immutable = none
  tables_eq : engine.view.sstables = loadTables store fetch
  ids_lt : ∀ id ∈ store.manifestIds, id < engine.ws.sstableId
  seq_pos : 0 < engine.ws.nextCommitSeq
  log_lt : ∀ e ∈ log, e.1 < engine.ws.nextCommitSeq
  tables_lt : ∀ t ∈ loadTables store fetch, ∀ v ∈ t.rows, v.seq < engine.ws.nextCommitSeq
  manifest_lt : (store.manifest.getD .default).maxCommitSeq < engine.ws.nextCommitSeq

theorem openEngine_recovers (h : Logs wal log bound) (store : Store) (fetch : ℕ → Bool) :
    ∃ engine, openEngine wal store fetch = .ok engine ∧ Recovered wal store fetch log engine := by
  unfold openEngine
  rw [h.holds.reopen]
  dsimp only
  rw [h.holds.replay_eq]
  refine ⟨_, rfl, {
    wal_eq := rfl
    etag := rfl
    mem_rows := fun v => ?_
    no_immutable := rfl
    tables_eq := rfl
    ids_lt := fun id hid => ?_
    seq_pos := Nat.succ_pos _
    log_lt := fun e he => ?_
    tables_lt := fun t ht v hv => ?_
    manifest_lt := ?_ }⟩
  · refine (mem_rows_replay h.increasing ?_).trans ?_
    · simp
    · simp
  · exact LsmEngine.lt_of_mem_max hid
  · have hmem : e.1 ∈ (log.map fun e => e.2.walBatch e.1).map WalBatch.seq := by
      rw [map_map]
      exact mem_map_of_mem he
    have := le_max_of_le' 0 hmem le_rfl
    dsimp only
    omega
  · have hseq := SSTable.seq_le_maxSeq hv
    have hmax := (SSTable.foldl_max_le.mp (le_refl
      (((loadTables store fetch).map SSTable.maxSeq).foldl max 0))).2 _ (mem_map_of_mem ht)
    dsimp only
    omega
  · dsimp only
    omega

variable {filter : BloomFilter} {σ : Sys}

/-- A crash keeps both invariants, as long as the rows the log has lost are below a sequence
number that `open` finds elsewhere. -/
theorem crash_live (hl : Live filter σ) (hsound : ∀ v ∈ logRows log, v ∈ σ.applied)
    (hseen : ∀ v ∈ σ.applied, v ∈ logRows log ∨ (∃ t ∈ σ.tables, v ∈ t.rows) ∨
      v.seq ≤ (σ.store.manifest.getD .default).maxCommitSeq)
    (hfetch : ∀ id ∈ σ.store.manifestIds, fetch id = true)
      (hr : Recovered σ.wal σ.store fetch log engine) :
    Live filter { σ with engine := engine, flushes := [], compactions := [] } := by
  have hperm := loadTables_perm hl.placement hfetch
  have htables : ∀ t ∈ engine.view.sstables, t ∈ σ.tables := by
    rw [hr.tables_eq]
    exact fun t ht => hperm.mem_iff.mp ht
  have hids : (engine.view.sstables.map SSTable.id).Perm (σ.tables.map SSTable.id) := by
    rw [hr.tables_eq]
    exact hperm.map SSTable.id
  refine ⟨{
    seq_pos := hr.seq_pos
    newest := hl.versions.newest
    functional := hl.versions.functional
    bounded := ?_
    mem_sound := fun v hv => hsound v ((hr.mem_rows v).mp hv)
    imm_sound := ?_
    table_sound := fun t ht => hl.versions.table_sound t (htables t ht)
    flush_sound := by simp
    captured_sound := by simp
    flush_built := by simp
    compact_built := by simp }, {
    issued_nodup := ?_
    issued_lt := ?_
    captured_lt := by simp
    captured_settled := by simp
    captured_same := by simp
    etag := hr.etag
    manifest_ids := hl.placement.manifest_ids.trans hids.symm
    stored := fun t ht => hl.placement.stored t (htables t ht)
    stored_flush := by simp
    stored_compact := by simp }⟩
  · intro v hv
    rcases hseen v hv with hlog | ⟨t, ht, hvt⟩ | hle
    · obtain ⟨e, he, hve⟩ := mem_flatMap.mp hlog
      rw [seq_of_mem_versions hve]
      exact hr.log_lt e he
    · exact hr.tables_lt t (hperm.mem_iff.mpr ht) v hvt
    · exact lt_of_le_of_lt hle hr.manifest_lt
  · intro m hm
    rw [Sys.imm, hr.no_immutable] at hm
    cases hm
  · simpa [issued, flushIds, compactIds] using hids.nodup_iff.mpr hl.placement.tables_nodup
  · intro id hid
    have hid : id ∈ engine.view.sstables.map SSTable.id := by
      simpa [issued, flushIds, compactIds] using hid
    exact hr.ids_lt id (hl.placement.manifest_ids.mem_iff.mpr (hids.mem_iff.mp hid))

/-- The log holds whole batches of the history, and what it no longer holds is below a
sequence number that `open` finds elsewhere. -/
structure Logged (filter : BloomFilter) (log : List (ℕ × Batch)) (σ : Sys) : Prop where
  live : Live filter σ
  logs : Logs σ.wal log σ.nextSeq
  sound : ∀ v ∈ logRows log, v ∈ σ.applied
  seen : ∀ v ∈ σ.applied, v ∈ logRows log ∨ (∃ t ∈ σ.tables, v ∈ t.rows) ∨
    v.seq ≤ (σ.store.manifest.getD .default).maxCommitSeq

/-- A failed append leaves no bytes, a batch fits the fields of the log format, and a cut of
the log is complete. -/
def LogReadable (σ : Sys) : Op → Prop
  | .failAppend _ written => written = 0
  | .addRows batch => (batch.walBatch σ.nextSeq).Fits
  | .truncateLog io => io ≠ .unsynced
  | _ => True

def logAfter (σ : Sys) (log : List (ℕ × Batch)) : Op → List (ℕ × Batch)
  | .addRows batch => log ++ [(σ.nextSeq, batch)]
  | .truncateLog .ok => []
  | _ => log

namespace Logged

variable {filter : BloomFilter} {log : List (ℕ × Batch)} {σ : Sys}

theorem apply_op (h : Logged filter log σ) (he : Enabled σ op) (hs : LogReadable σ op) :
    Logged filter (logAfter σ log op) (apply filter σ op) := by
  have hlive : Live filter (apply filter σ op) := h.live.apply_op he
  have hbounded : ∀ v ∈ σ.applied, v.seq ≤ σ.nextSeq - 1 :=
    fun v hv => Nat.le_sub_one_of_lt (h.live.versions.bounded v hv)
  cases op with
  | failAppend b written =>
    obtain rfl : written = 0 := hs
    have hwal : (apply filter σ (.failAppend b 0)).wal = σ.wal :=
      h.logs.holds.append_failed_zero
    refine { h with live := hlive, logs := ?_ }
    rw [hwal]
    exact ⟨h.logs.holds, h.logs.increasing, fun e he => Nat.lt_succ_of_lt (h.logs.below e he)⟩
  | addRows b =>
    have hmem : ∀ v, v ∈ logRows (log ++ [(σ.nextSeq, b)]) ↔
        v ∈ b.versions σ.nextSeq ∨ v ∈ logRows log := fun v => Logs.mem_logRows_append
    refine ⟨hlive, h.logs.append hs, fun v hv => ?_, fun v hv => ?_⟩
    · exact mem_append.mpr (((hmem v).mp hv).imp_right (h.sound v))
    · rcases mem_append.mp hv with hv | hv
      · exact .inl ((hmem v).mpr (.inl hv))
      · exact (h.seen v hv).imp_left fun hlog => (hmem v).mpr (.inr hlog)
  | shipSegment =>
    refine { h with live := hlive, seen := ?_ }
    rw [manifest_shipSegment]
    exact h.seen
  | publish => exact { h with live := hlive, seen := fun v hv => .inr (.inr (hbounded v hv)) }
  | truncateLog io =>
    cases io with
    | unsynced => exact absurd rfl hs
    | failed => exact { h with live := hlive }
    | ok =>
      exact {
        live := hlive
        logs := ⟨Wal.Holds.truncated, List.Pairwise.nil, nofun⟩
        sound := nofun
        seen := fun v hv => .inr (.inr ((hbounded v hv).trans he)) }
  | replace => exact { h with live := hlive, seen := fun v hv => .inr (.inr (hbounded v hv)) }
  | _ => exact { h with live := hlive }

theorem initial_logged : Logged filter [] (initial path) where
  live := .initial_live
  logs := ⟨⟨rfl, rfl, by simp⟩, List.Pairwise.nil, by simp⟩
  sound := nofun
  seen := nofun

theorem crash (h : Logged filter log σ) (hfetch : ∀ id ∈ σ.store.manifestIds, fetch id = true)
    (hr : Recovered σ.wal σ.store fetch log engine) :
    Logged filter log { σ with engine := engine, flushes := [], compactions := [] } where
  live := crash_live h.live h.sound h.seen hfetch hr
  logs := by
    refine ⟨?_, h.logs.increasing, hr.log_lt⟩
    rw [Sys.wal, hr.wal_eq]
    exact h.logs.holds
  sound := h.sound
  seen := by
    intro v hv
    rcases h.seen v hv with hlog | ⟨t, ht, hvt⟩ | hle
    · exact .inl hlog
    · refine .inr (.inl ⟨t, ?_, hvt⟩)
      rw [Sys.tables, hr.tables_eq]
      exact (loadTables_perm h.live.placement hfetch).mem_iff.mpr ht
    · exact .inr (.inr hle)

end Logged

def LogKept (σ : Sys) : Event → Prop
  | .writeBatch batch _ .ok => (batch.walBatch σ.nextSeq).Fits
  | .writeBatch _ _ (.failed written) => written = 0
  | .commitFlush _ _ io _ => io.truncate ≠ .unsynced
  | .crashOpen fetch => ∀ id ∈ σ.store.manifestIds, fetch id = true
  | _ => True

instance (σ : Sys) : (e : Event) → Decidable (LogKept σ e)
  | .writeBatch _ _ .ok => inferInstanceAs (Decidable (WalBatch.Fits _))
  | .writeBatch _ _ (.failed _) => inferInstanceAs (Decidable (_ = _))
  | .commitFlush .. => inferInstanceAs (Decidable (_ ≠ _))
  | .crashOpen _ => inferInstanceAs (Decidable (∀ id ∈ σ.store.manifestIds, _))
  | .beginFlush _ | .finishFlush .. | .beginCompact _ | .finishCompact .. | .commitCompact ..
  | .snapshotNow | .registerSnapshot _ | .releaseSnapshot _ => .isTrue trivial

theorem LogKept.readable (h : LogKept σ e) (hd : Does σ e ops) :
    Along (apply filter) LogReadable σ ops := by
  cases hd with
  | appendFailed => exact ⟨h, trivial⟩
  | wrote => exact ⟨h, trivial, trivial⟩
  | wroteAndFroze => exact ⟨h, trivial, trivial, trivial⟩
  | wroteFenced => exact ⟨h, trivial⟩
  | flushed => exact ⟨trivial, trivial, h, trivial⟩
  | flushedAndCaptured => exact ⟨trivial, trivial, h, trivial, trivial⟩
  | flushRefused => exact ⟨trivial, trivial, trivial⟩
  | nothing => trivial
  | _ => exact ⟨trivial, trivial⟩

theorem crashOpen_eq (h : LsmEngine.openEngine σ.wal σ.store fetch = .ok engine) :
    next filter σ (.crashOpen fetch) =
      { σ with engine := engine, flushes := [], compactions := [] } := by
  simp [StorageLsmSystem.next, Sys.crashOpen, h]

theorem logged_step (hs : LogKept σ e) (h : ∃ log, Logged filter log σ) :
    ∃ log, Logged filter log (next filter σ e) := by
  cases hcrash : Event.isCrash e with
  | false =>
    refine next_invariant_of_guard (I := fun σ => ∃ log, Logged filter log σ)
      ?_ hcrash (fun ops hd => hs.readable hd) h
    rintro τ op ⟨log, hτ⟩ hop hlog
    exact ⟨_, hτ.apply_op hop hlog⟩
  | true =>
    obtain ⟨log, hσ⟩ := h
    cases e with
    | crashOpen fetch =>
      obtain ⟨engine, hopen, hr⟩ := openEngine_recovers hσ.logs σ.store fetch
      rw [crashOpen_eq hopen]
      exact ⟨log, hσ.crash hs hr⟩
    | _ => cases hcrash

theorem logged_run (h : Along (next filter) LogKept (initial path) events) :
    ∃ log, Logged filter log (run (next filter) (initial path) events) :=
  h.invariant (I := fun σ => ∃ log, Logged filter log σ) (fun _ _ hσ he => logged_step he hσ)
    ⟨[], .initial_logged⟩

end StorageLsmRecovery
