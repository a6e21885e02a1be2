import Keystone.StorageLsmLayering

/-! # Reads while flushes and compactions are in flight

Which interleavings keep a live engine's reads right: a memtable is frozen only into a free
slot, a compaction is committed only over tables that are still live and whose keys no other
live table has, and for a read in two steps no compaction in between collapses versions of
its key that are newer than the sequence number it picked. -/
namespace StorageLsmConcurrentReads

open VersionedLayers GuardedRuns
open StorageInternalKey StorageMemTable StorageLsmEngine StorageLsmSystem
open StorageLsmCompaction StorageLsmSteps StorageLsmInvariant StorageLsmLayering
open LsmEngine (CommitFlushIo)

def readyCompaction (σ : Sys) (task : ℕ) : Option PendingCompaction :=
  σ.compactions[task]?.bind fun c => c.2.map fun _ => c.1

variable {σ : Sys}

theorem readyCompaction_eq (h : σ.compactions[task]? = some (p, some merged)) :
    readyCompaction σ task = some p := by
  simp [readyCompaction, h]

def ReadSafe (σ : Sys) : Event → Prop
  | .writeBatch batch lease io => io = .ok → Fills σ batch → lease.valid = true → SlotFree σ
  | .beginFlush lease => lease.valid = true → SlotFree σ
  | .commitCompact task _ _ _ => ∀ p ∈ readyCompaction σ task, CompactSafe σ p
  | .crashOpen _ => False
  | _ => True

instance (σ : Sys) : (e : Event) → Decidable (ReadSafe σ e)
  | .writeBatch .. => inferInstanceAs (Decidable (_ = _ → Fills _ _ → _ = _ → SlotFree σ))
  | .beginFlush _ => inferInstanceAs (Decidable (_ = _ → SlotFree σ))
  | .commitCompact task .. => inferInstanceAs (Decidable (∀ p ∈ readyCompaction σ task, _))
  | .crashOpen _ => .isFalse id
  | .finishFlush .. | .commitFlush .. | .beginCompact _ | .finishCompact ..
  | .snapshotNow | .registerSnapshot _ | .releaseSnapshot _ => .isTrue trivial

variable {e : Event}

theorem ReadSafe.not_crash (h : ReadSafe σ e) : Event.isCrash e = false := by
  cases e <;> first | rfl | exact absurd h id

variable {filter : BloomFilter}

theorem ReadSafe.layerSafe (h : ReadSafe σ e) (hd : Does σ e ops) :
    Along (apply filter) LayerSafe σ ops := by
  cases hd with
  | wroteAndFroze batch lease hf hl => exact ⟨trivial, h rfl hf hl, trivial, trivial⟩
  | froze lease hl => exact ⟨h hl, trivial⟩
  | compacted task lease saveManifest deleted p merged ht he =>
    exact ⟨h p (readyCompaction_eq ht), trivial⟩
  | _ => simp [Along, LayerSafe]

theorem reading_step (h : Reading filter σ) (hsafe : ReadSafe σ e) :
    Reading filter (next filter σ e) :=
  next_invariant_of_guard (fun _ _ hσ hop hg => hσ.apply_op hop hg) hsafe.not_crash
    (fun _ hd => hsafe.layerSafe hd) h

theorem reading_run (h : Reading filter σ) (hsafe : Along (next filter) ReadSafe σ events) :
    Reading filter (run (next filter) σ events) :=
  hsafe.invariant (fun _ _ hσ he => reading_step hσ he) h

def FlushStep : Event → Prop
  | .writeBatch _ _ _ | .beginFlush _ | .finishFlush _ _ | .commitFlush _ _ _ _ => True
  | _ => False

/-- A memtable is frozen only while the immutable slot is free, and a batch that fills the
memtable finds the lease valid. -/
def OverlapSafe (σ : Sys) : Event → Prop
  | .writeBatch batch lease io => io = .ok → Fills σ batch → lease.valid = true ∧ SlotFree σ
  | .beginFlush lease => lease.valid = true → SlotFree σ
  | _ => True

instance : (e : Event) → Decidable (FlushStep e)
  | .writeBatch .. | .beginFlush _ | .finishFlush .. | .commitFlush .. => .isTrue trivial
  | .beginCompact _ | .finishCompact .. | .commitCompact .. | .crashOpen _
  | .snapshotNow | .registerSnapshot _ | .releaseSnapshot _ => .isFalse id

instance (σ : Sys) : (e : Event) → Decidable (OverlapSafe σ e)
  | .writeBatch .. => inferInstanceAs (Decidable (_ = _ → Fills _ _ → _ ∧ _))
  | .beginFlush _ => inferInstanceAs (Decidable (_ = _ → SlotFree σ))
  | .finishFlush .. | .commitFlush .. | .beginCompact _ | .finishCompact ..
  | .commitCompact .. | .crashOpen _ | .snapshotNow | .registerSnapshot _
  | .releaseSnapshot _ => .isTrue trivial

theorem readSafe_of_overlapSafe (hstep : FlushStep e) (h : OverlapSafe σ e) : ReadSafe σ e := by
  cases e with
  | writeBatch batch lease io => exact fun hio hf _ => (h hio hf).2
  | beginFlush lease => exact h
  | finishFlush | commitFlush => trivial
  | _ => exact absurd hstep id

def AcksAll (σ : Sys) : Event → Prop
  | .writeBatch batch lease .ok => Fills σ batch → lease.valid = true
  | _ => True

/-- What a write puts into the memtable it also acknowledges, unless the flush trigger is
fenced off. -/
theorem acked_eq_applied_step (hsafe : AcksAll σ e) (h : σ.acked = σ.applied) :
    (next filter σ e).acked = (next filter σ e).applied := by
  cases hcrash : Event.isCrash e with
  | true =>
    cases e with
    | crashOpen fetch =>
      simp only [next, Sys.crashOpen]
      split <;> exact h
    | _ => cases hcrash
  | false =>
    obtain ⟨ops, hd, hnext⟩ := next_does filter σ hcrash
    cases hd with
    | wroteFenced batch lease hf hl =>
      have := hsafe hf
      rw [hl] at this
      cases this
    | _ => simp_all [apply]

theorem OverlapSafe.acksAll (h : OverlapSafe σ e) : AcksAll σ e := by
  cases e with
  | writeBatch batch lease io =>
    cases io with
    | ok => exact fun hf => (h rfl hf).1
    | failed => trivial
  | _ => trivial

/-- In every run of writes and flush phases in which no memtable is frozen over an occupied
slot and no batch fills the memtable of a fenced node, every state reads the newest
acknowledged write of every key. -/
theorem overlapping_flushes_read_newest (filter : BloomFilter) (path : String)
    (events : List Event) (hsteps : ∀ e ∈ events, FlushStep e)
    (hsafe : Along (next filter) OverlapSafe (initial path) events) :
    let σ := run (next filter) (initial path) events
    ∀ k, σ.engine.readAt k (σ.nextSeq - 1) = latest σ.acked k := by
  have hrun := (along_of_forall hsteps).and hsafe
  have hinv : Reading filter (run (next filter) (initial path) events) ∧
      (run (next filter) (initial path) events).acked =
        (run (next filter) (initial path) events).applied := by
    refine hrun.invariant (I := fun σ => Reading filter σ ∧ σ.acked = σ.applied) ?_
      ⟨.initial_reading, rfl⟩
    rintro σ e ⟨hr, hack⟩ ⟨hstep, hs⟩
    exact ⟨reading_step hr (readSafe_of_overlapSafe hstep hs),
      acked_eq_applied_step hs.acksAll hack⟩
  intro σ k
  rw [hinv.2]
  exact hinv.1.readAt_latest (Nat.sub_add_cancel hinv.1.live.versions.seq_pos).ge

/-- One flush with a write landing while its upload is in flight. -/
theorem write_during_flush_reads_newest :
    let σ := run (next exactFilter) (initial "wal.log")
      [put [97] [1], .beginFlush heldLease, put [97] [2], .finishFlush 0 true,
        .commitFlush 0 heldLease .allOk 4]
    ∀ k, σ.engine.readAt k (σ.nextSeq - 1) = latest σ.acked k :=
  overlapping_flushes_read_newest exactFilter "wal.log" _ (by decide) (by decide)

/-- A second `begin_flush`, on the empty memtable, takes the frozen rows out of the view
while their flush is still in flight: the acknowledged write reads as missing. -/
theorem second_begin_flush_hides_rows :
    let σ := run (next exactFilter) (initial "wal.log")
      [put [97] [1], .beginFlush heldLease, .beginFlush heldLease]
    latest σ.acked [97] = some [1] ∧ σ.engine.readAt [97] (σ.nextSeq - 1) = none := by
  decide

/-- No compaction is committed that holds a version of `k` above `s` and below its watermark. -/
def GapFree (k : Bytes) (s : ℕ) (σ : Sys) : Event → Prop
  | .commitCompact task _ _ _ => ∀ p ∈ readyCompaction σ task, NoGap p k s
  | _ => True

instance (p : PendingCompaction) (k : Bytes) (s : ℕ) : Decidable (NoGap p k s) :=
  inferInstanceAs (Decidable (∀ v ∈ captured p, _))

instance (k : Bytes) (s : ℕ) (σ : Sys) : (e : Event) → Decidable (GapFree k s σ e)
  | .commitCompact task .. => inferInstanceAs (Decidable (∀ p ∈ readyCompaction σ task, _))
  | .writeBatch .. | .beginFlush _ | .finishFlush .. | .commitFlush ..
  | .beginCompact _ | .finishCompact .. | .crashOpen _ | .snapshotNow | .registerSnapshot _
  | .releaseSnapshot _ => .isTrue trivial

theorem GapFree.gapSafe (h : GapFree k s σ e) (hd : Does σ e ops) :
    Along (apply filter) (fun _ op => GapSafe k s op) σ ops := by
  cases hd with
  | compacted task lease saveManifest deleted p merged ht he =>
    exact ⟨h p (readyCompaction_eq ht), trivial⟩
  | _ => simp [Along, GapSafe]

structure Pinned (filter : BloomFilter) (k : Bytes) (s : ℕ) (value : Option Bytes) (σ : Sys) :
    Prop where
  reading : Reading filter σ
  past : s < σ.nextSeq
  covered : Covered σ k s
  value_eq : valueAt σ.applied k s = value

namespace Pinned

variable {filter : BloomFilter} {k : Bytes} {s : ℕ} {value : Option Bytes} {σ : Sys}

theorem readAt_eq (h : Pinned filter k s value σ) : σ.engine.readAt k s = value := by
  rw [readAt_eq_valueAt h.reading.live.versions h.reading.stacked h.covered, h.value_eq]

theorem apply_op (h : Pinned filter k s value σ) (he : Enabled σ op)
    (hsafe : LayerSafe σ op) (hgap : GapSafe k s op) :
    Pinned filter k s value (apply filter σ op) where
  reading := h.reading.apply_op he hsafe
  covered := covered_op h.reading.live h.reading.stacked he hsafe hgap h.past h.covered
  past := by
    cases op with
    | failAppend | addRows => exact Nat.lt_succ_of_lt h.past
    | _ => exact h.past
  value_eq := by
    cases op with
    | addRows b =>
      refine (valueAt_append_above fun v hv => ?_).trans h.value_eq
      rw [seq_of_mem_versions hv]
      exact h.past
    | _ => exact h.value_eq

theorem next_step (h : Pinned filter k s value σ) (hsafe : ReadSafe σ e) (hgap : GapFree k s σ e) :
    Pinned filter k s value (next filter σ e) :=
  next_invariant_of_guard
    (fun _ _ hσ hop hg => hσ.apply_op hop hg.1 hg.2) hsafe.not_crash
    (fun _ hd => (hsafe.layerSafe hd).and (hgap.gapSafe hd)) h

theorem of_current (h : Reading filter σ) (k : Bytes) :
    Pinned filter k σ.engine.currentSeq (latest σ.applied k) σ where
  reading := h
  past := Nat.sub_lt h.live.versions.seq_pos Nat.one_pos
  covered := h.current k _ (Nat.sub_add_cancel h.live.versions.seq_pos).ge
  value_eq := valueAt_eq_latest fun v hv => Nat.le_sub_one_of_lt (h.live.versions.bounded v hv)

end Pinned

/-- In every run whose steps keep live reads right, and in which no compaction committed
between the two steps of `read` collapses versions of the key above the picked sequence
number, the read returns the newest committed value as of its first step. -/
theorem autocommit_read_returns_value_at_first_step (filter : BloomFilter) (path : String)
    (before between : List Event) (k : Bytes)
    (hbefore : Along (next filter) ReadSafe (initial path) before) :
    let σ := run (next filter) (initial path) before
    let s := σ.engine.currentSeq
    Along (next filter) (fun τ e => ReadSafe τ e ∧ GapFree k s τ e) σ between →
      (run (next filter) σ between).engine.readAt k s = latest σ.applied k := by
  intro σ s hbetween
  have hstart := Pinned.of_current (reading_run (.initial_reading) hbefore) k
  exact (hbetween.invariant (fun _ _ hτ he => hτ.next_step he.1 he.2) hstart).readAt_eq

/-- A compaction between the two steps that holds nothing newer than the picked number. -/
theorem autocommit_read_over_old_compaction :
    let σ := run (next exactFilter) (initial "wal.log")
      ([put [97] [1]] ++ flushPhases ++ [put [98] [2]] ++ flushPhases)
    let s := σ.engine.currentSeq
    (run (next exactFilter) σ (put [97] [3] :: compactPhases)).engine.readAt [97] s =
      latest σ.applied [97] :=
  autocommit_read_returns_value_at_first_step exactFilter "wal.log" _ _ [97] (by decide) (by decide)

/-- The anomaly: the key has a live value throughout, but the version the reader picked is
collapsed away between its two steps, and the newer one is invisible to it. -/
theorem autocommit_read_misses_live_key :
    let σ := run (next exactFilter) (initial "wal.log") ([put [97] [1]] ++ flushPhases)
    let s := σ.engine.currentSeq
    let between := [put [97] [2]] ++ flushPhases ++ compactPhases
    (∀ n ≤ between.length,
      latest (run (next exactFilter) σ (between.take n)).applied [97] ∈ [some [1], some [2]]) ∧
    (run (next exactFilter) σ between).engine.readAt [97] s = none := by
  decide

end StorageLsmConcurrentReads
