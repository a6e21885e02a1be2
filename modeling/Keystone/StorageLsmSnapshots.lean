import Keystone.StorageLsmConcurrentReads

/-! # Registered snapshots

Operations that run to completion one after another: a write with the flush it triggers, a flush, a
compaction, and the snapshot registry. Between them nothing is in flight. A flush that fails leaves
its memtable in the immutable slot, and the next memtable that is frozen takes its place. -/
namespace StorageLsmSnapshots

open GuardedRuns List OrderedMaps VersionedLayers OrderedMap
open StorageInternalKey StorageMemTable StorageWal StorageLsmEngine StorageLsmSystem
open StorageLsmCompaction StorageLsmSteps StorageLsmInvariant StorageLsmLayering
open StorageLsmConcurrentReads

/-- How an operation goes on once it has begun: the lease may have changed, and every upload and
manifest update goes through or fails. -/
structure Ending where
  lease : LeaseHandle
  upload : Bool
  commit : LsmEngine.CommitFlushIo
  uploadMerged : Bool
  saveManifest : Bool
  deleted : ℕ → Bool

def Ending.allOk (lease : LeaseHandle) : Ending := ⟨lease, true, .allOk, true, true, fun _ => true⟩

inductive AtomicOp where
  | writeBatch (batch : Batch) (io : AppendIo) (begins : LeaseHandle) (ending : Ending)
  | flush (begins : LeaseHandle) (ending : Ending)
  | compactAll (begins : LeaseHandle) (ending : Ending)
  | snapshotNow
  | registerSnapshot (seq : ℕ)
  | releaseSnapshot (seq : ℕ)

def Ending.compaction (ending : Ending) : List Event :=
  [.finishCompact 0 ending.uploadMerged,
    .commitCompact 0 ending.lease ending.saveManifest ending.deleted]

-- A phase that fails drops its task, and the phases behind it find none.
def Ending.flush (ending : Ending) (threshold : ℕ) : List Event :=
  .finishFlush 0 ending.upload :: .commitFlush 0 ending.lease ending.commit threshold ::
    ending.compaction

def AtomicOp.events (threshold : ℕ) : AtomicOp → List Event
  | .writeBatch batch io begins ending => .writeBatch batch begins io :: ending.flush threshold
  | .flush begins ending => .beginFlush begins :: ending.flush threshold
  | .compactAll begins ending => .beginCompact begins :: ending.compaction
  | .snapshotNow => [.snapshotNow]
  | .registerSnapshot seq => [.registerSnapshot seq]
  | .releaseSnapshot seq => [.releaseSnapshot seq]

def atomicNext (filter : BloomFilter) (threshold : ℕ) (σ : Sys) (op : AtomicOp) : Sys :=
  run (next filter) σ (op.events threshold)

/-- An operation that freezes the memtable finds the immutable slot free. -/
def SlotKept (σ : Sys) : AtomicOp → Prop
  | .writeBatch batch io begins _ => io = .ok → Fills σ batch → begins.valid = true → SlotFree σ
  | .flush begins _ => begins.valid = true → SlotFree σ
  | _ => True

instance (σ : Sys) : (op : AtomicOp) → Decidable (SlotKept σ op)
  | .writeBatch .. => inferInstanceAs (Decidable (_ = _ → Fills _ _ → _ = _ → SlotFree σ))
  | .flush .. => inferInstanceAs (Decidable (_ = _ → SlotFree σ))
  | .compactAll .. | .snapshotNow | .registerSnapshot _ | .releaseSnapshot _ => .isTrue trivial

structure Idle (σ : Sys) : Prop where
  flushes : σ.flushes = []
  compactions : σ.compactions = []

section Drain

variable {σ : Sys}

/-- At most one compaction is under way, of all the tables. -/
def Compacting (σ : Sys) (uploaded : Bool) : Prop :=
  σ.flushes = [] ∧ (σ.compactions = [] ∨ ∃ p merged, σ.compactions = [(p, merged)] ∧
    merged.isSome = uploaded ∧ p.sstables = σ.tables)

theorem finishCompact_ends (filter : BloomFilter) (h : Compacting σ false) (io : Bool) :
    Compacting (next filter σ (.finishCompact 0 io)) true := by
  obtain ⟨hf, hc | ⟨p, merged, hc, hmerged, hall⟩⟩ := h
  · simp [StorageLsmSystem.next, Sys.finishCompact, Compacting, hf, hc]
  · obtain rfl := Option.isNone_iff_eq_none.mp (by simpa using hmerged)
    have hget : σ.compactions[0]? = some (p, none) := by simp [hc]
    cases io with
    | true =>
      rw [finishCompact_ok filter σ hget]
      exact ⟨hf, .inr ⟨p, _, by simp only [apply, hc]; rfl, rfl, hall⟩⟩
    | false =>
      refine ⟨?_, .inl ?_⟩
      · simp [StorageLsmSystem.next, Sys.finishCompact, hc, hf]
      · simp [StorageLsmSystem.next, Sys.finishCompact, hc, LsmEngine.finishCompact]

theorem commitCompact_ends (filter : BloomFilter) (h : Compacting σ true) (lease : LeaseHandle)
    (saveManifest : Bool) (deleted : ℕ → Bool) :
    ReadSafe σ (.commitCompact 0 lease saveManifest deleted) ∧
      Idle (next filter σ (.commitCompact 0 lease saveManifest deleted)) := by
  obtain ⟨hf, hc | ⟨p, merged, hc, hmerged, hall⟩⟩ := h
  · refine ⟨by simp [ReadSafe, readyCompaction, hc], ?_, ?_⟩
    · simpa [StorageLsmSystem.next, Sys.commitCompact, hc] using hf
    · simp [StorageLsmSystem.next, Sys.commitCompact, hc]
  · obtain ⟨merged, rfl⟩ := Option.isSome_iff_exists.mp hmerged
    refine ⟨?_, ?_, ?_⟩
    · rintro q hq
      obtain rfl : p = q := by simpa [readyCompaction, hc] using hq
      refine ⟨fun t ht => mem_map.mpr ⟨t, hall ▸ ht, rfl⟩, ?_⟩
      intro t ht hnot
      exact absurd (mem_map.mpr ⟨t, by rw [hall]; exact ht, rfl⟩) hnot
    · simpa [StorageLsmSystem.next, Sys.commitCompact, hc] using hf
    · simp [StorageLsmSystem.next, Sys.commitCompact, hc]

theorem compaction_ends (filter : BloomFilter) (ending : Ending) (h : Compacting σ false) :
    Along (next filter) ReadSafe σ ending.compaction ∧
      Idle (run (next filter) σ ending.compaction) := by
  have hmerged := finishCompact_ends filter h ending.uploadMerged
  obtain ⟨hsafe, hidle⟩ := commitCompact_ends filter hmerged ending.lease ending.saveManifest
    ending.deleted
  exact ⟨⟨trivial, hsafe, trivial⟩, hidle⟩

/-- At most one flush is under way. -/
def Flushing (σ : Sys) (uploaded : Bool) : Prop :=
  σ.compactions = [] ∧
    (σ.flushes = [] ∨ ∃ p t, σ.flushes = [(p, t)] ∧ t.isSome = uploaded)

theorem finishFlush_ends (filter : BloomFilter) (h : Flushing σ false) (io : Bool) :
    Flushing (next filter σ (.finishFlush 0 io)) true := by
  obtain ⟨hc, hf | ⟨p, t, hf, ht⟩⟩ := h
  · simp [StorageLsmSystem.next, Sys.finishFlush, Flushing, hf, hc]
  · obtain rfl := Option.isNone_iff_eq_none.mp (by simpa using ht)
    have hget : σ.flushes[0]? = some (p, none) := by simp [hf]
    cases io with
    | true =>
      rw [finishFlush_ok filter σ hget]
      exact ⟨hc, .inr ⟨p, _, by simp only [apply, hf]; rfl, rfl⟩⟩
    | false =>
      refine ⟨?_, .inl ?_⟩
      · simp [StorageLsmSystem.next, Sys.finishFlush, hf, hc]
      · simp [StorageLsmSystem.next, Sys.finishFlush, hf, LsmEngine.finishFlush]

theorem commitFlush_ends (filter : BloomFilter) (h : Flushing σ true) (lease : LeaseHandle)
    (io : LsmEngine.CommitFlushIo) (threshold : ℕ) :
    Compacting (next filter σ (.commitFlush 0 lease io threshold)) false := by
  obtain ⟨hc, hf⟩ := h
  have hflushes : (next filter σ (.commitFlush 0 lease io threshold)).flushes = [] := by
    rcases hf with hf | ⟨p, t, hf, ht⟩
    · simp [StorageLsmSystem.next, Sys.commitFlush, hf]
    · obtain ⟨t, rfl⟩ := Option.isSome_iff_exists.mp ht
      simp [StorageLsmSystem.next, Sys.commitFlush, hf]
  obtain ⟨ops, hd, hnext⟩ := next_does filter σ (e := .commitFlush 0 lease io threshold) rfl
  refine ⟨hflushes, ?_⟩
  rw [hnext]
  cases hd with
  | flushedAndCaptured =>
    exact .inr ⟨_, _, by simp only [run_cons, run_nil, apply, hc]; rfl, rfl, rfl⟩
  | _ => exact .inl hc

theorem flush_ends (filter : BloomFilter) (ending : Ending) (threshold : ℕ)
    (h : Flushing σ false) :
    Along (next filter) ReadSafe σ (ending.flush threshold) ∧
      Idle (run (next filter) σ (ending.flush threshold)) := by
  have ht := finishFlush_ends filter h ending.upload
  obtain ⟨hsafe, hidle⟩ := compaction_ends filter ending
    (commitFlush_ends filter ht ending.lease ending.commit threshold)
  exact ⟨⟨trivial, trivial, hsafe⟩, hidle⟩

theorem freeze_starts (filter : BloomFilter) (hf : σ.flushes = []) (hc : σ.compactions = []) :
    Flushing (apply filter σ .freeze) false := by
  refine ⟨hc, ?_⟩
  by_cases hemp : σ.mem.toEntries.entries.isEmpty = true
  · exact .inl (by simp [apply, hemp, hf])
  · exact .inr ⟨_, _, by simp only [apply, hemp, hf]; rfl, rfl⟩

/-- An operation that starts from an idle engine and finds the slot as it needs it keeps live reads
right, and it ends idle whatever fails on the way. -/
theorem atomic_safe (filter : BloomFilter) (hidle : Idle σ) (threshold : ℕ) (op : AtomicOp) :
    Idle (run (next filter) σ (op.events threshold)) ∧
      (SlotKept σ op → Along (next filter) ReadSafe σ (op.events threshold)) := by
  have hnone : Flushing σ false := ⟨hidle.compactions, .inl hidle.flushes⟩
  cases op with
  | writeBatch batch io begins ending =>
    obtain ⟨ops, hd, hnext⟩ := next_does filter σ (e := .writeBatch batch begins io) rfl
    have hstate : Flushing (next filter σ (.writeBatch batch begins io)) false := by
      rw [hnext]
      cases hd with
      | wroteAndFroze _ _ hf hl =>
        exact freeze_starts (σ := apply filter σ (.addRows batch)) filter hidle.flushes
          hidle.compactions
      | _ => exact hnone
    obtain ⟨hrest, hend⟩ := flush_ends filter ending threshold hstate
    exact ⟨hend, fun hslot => ⟨hslot, hrest⟩⟩
  | flush begins ending =>
    obtain ⟨ops, hd, hnext⟩ := next_does filter σ (e := .beginFlush begins) rfl
    have hstate : Flushing (next filter σ (.beginFlush begins)) false := by
      rw [hnext]
      cases hd with
      | froze _ hl => exact freeze_starts filter hidle.flushes hidle.compactions
      | nothing => exact hnone
    obtain ⟨hrest, hend⟩ := flush_ends filter ending threshold hstate
    exact ⟨hend, fun hslot => ⟨hslot, hrest⟩⟩
  | compactAll begins ending =>
    obtain ⟨ops, hd, hnext⟩ := next_does filter σ (e := .beginCompact begins) rfl
    have hstate : Compacting (next filter σ (.beginCompact begins)) false := by
      rw [hnext]
      cases hd with
      | captured _ hlen =>
        exact ⟨hidle.flushes,
          .inr ⟨_, _, by simp only [run_cons, run_nil, apply, hidle.compactions]; rfl, rfl, rfl⟩⟩
      | nothing => exact ⟨hidle.flushes, .inl hidle.compactions⟩
    obtain ⟨hrest, hend⟩ := compaction_ends filter ending hstate
    exact ⟨hend, fun _ => ⟨trivial, hrest⟩⟩
  | snapshotNow | registerSnapshot => exact ⟨{ hidle with }, fun _ => ⟨trivial, trivial⟩⟩
  | releaseSnapshot seq =>
    refine ⟨?_, fun _ => ⟨trivial, trivial⟩⟩
    obtain ⟨ops, hd, hnext⟩ := next_does filter σ (e := .releaseSnapshot seq) rfl
    simp only [AtomicOp.events, run_cons, hnext]
    cases hd <;> exact { hidle with }

end Drain

abbrev snapshots (σ : Sys) : OrderedMap ℕ ℕ := σ.engine.ws.openSnapshots

structure Registered (s : ℕ) (σ : Sys) : Prop where
  key : s ∈ (snapshots σ).keys
  watermarks : ∀ c ∈ σ.compactions, c.1.watermark ≤ s

def KeepsSnapshot (s : ℕ) : Op → Prop
  | .setSnapshots m => s ∈ m.keys
  | _ => True

variable {filter : BloomFilter} {s : ℕ} {σ : Sys}

theorem Registered.apply_op (h : Registered s σ) (he : Enabled σ op) (hk : KeepsSnapshot s op) :
    Registered s (apply filter σ op) := by
  cases op with
  | capture =>
    refine ⟨h.key, fun c hc => ?_⟩
    rcases mem_append.mp hc with hc | hc
    · exact h.watermarks c hc
    · rw [mem_singleton.mp hc]
      exact watermark_le h.key
  | uploadCompact task p =>
    refine ⟨h.key, fun c hc => ?_⟩
    rcases mem_or_eq_of_mem_set hc with hc | rfl
    · exact h.watermarks c hc
    · exact h.watermarks (p, none) (mem_of_getElem? he)
  | dropCompact | replace => exact ⟨h.key, fun c hc => h.watermarks c (mem_of_mem_eraseIdx hc)⟩
  | setSnapshots m => exact ⟨hk, h.watermarks⟩
  | _ => exact ⟨h.key, h.watermarks⟩

theorem Registered.gapSafe (h : Registered s σ) (he : Enabled σ op) (k : Bytes) :
    GapSafe k s op := by
  cases op with
  | replace task p merged lease deleted =>
    intro v _ _ hlt
    exact (h.watermarks _ (mem_of_getElem? he.1)).trans (le_of_lt hlt)
  | _ => trivial

def isSnapshotEvent : Event → Bool
  | .snapshotNow | .registerSnapshot _ | .releaseSnapshot _ => true
  | _ => false

/-- Only the registry operations change the registry. -/
theorem snapshots_next (hcrash : Event.isCrash e = false) (he : isSnapshotEvent e = false) :
    snapshots (next filter σ e) = snapshots σ := by
  obtain ⟨ops, hd, hnext⟩ := next_does filter σ hcrash
  rw [hnext]
  cases hd <;> first | rfl | cases he

theorem registered_step (hp : Pinned filter k s value σ) (hr : Registered s σ)
    (hsafe : ReadSafe σ e)
    (hkey : s ∈ (snapshots (next filter σ e)).keys) :
    Pinned filter k s value (next filter σ e) ∧ Registered s (next filter σ e) := by
  refine next_invariant_of_guard (I := fun σ => Pinned filter k s value σ ∧ Registered s σ)
    (fun τ op hτ hop hg => ⟨hτ.1.apply_op hop hg.1 (hτ.2.gapSafe hop k), hτ.2.apply_op hop hg.2⟩)
    hsafe.not_crash (fun ops hd => (hsafe.layerSafe hd).and ?_) ⟨hp, hr⟩
  cases hd with
  | snapshotNow | registered | released => exact ⟨hkey, trivial⟩
  | _ => simp [Along, KeepsSnapshot]

def AtomicOp.isRegistry : AtomicOp → Bool
  | .snapshotNow | .registerSnapshot _ | .releaseSnapshot _ => true
  | _ => false

variable {op : AtomicOp}

theorem events_not_registry (hop : op.isRegistry = false) :
    ∀ e ∈ op.events threshold, Event.isCrash e = false ∧ isSnapshotEvent e = false := by
  cases op with
  | snapshotNow | registerSnapshot | releaseSnapshot => cases hop
  | _ => simp [AtomicOp.events, Ending.flush, Ending.compaction, Event.isCrash, isSnapshotEvent]

theorem snapshots_atomicNext (filter : BloomFilter) (threshold : ℕ) (σ : Sys)
    (hop : op.isRegistry = false) : snapshots (atomicNext filter threshold σ op) = snapshots σ :=
  (along_of_forall (events_not_registry hop)).invariant (I := fun τ => snapshots τ = snapshots σ)
    (fun _ _ hτ he => (snapshots_next he.1 he.2).trans hτ) rfl

section Atomic

variable {filter : BloomFilter} {threshold : ℕ} {σ : Sys}

theorem registered_atomic_step (hp : Pinned filter k s value σ) (hr : Registered s σ)
    (hidle : Idle σ) (hslot : SlotKept σ op)
    (hkey : s ∈ (snapshots (atomicNext filter threshold σ op)).keys) :
    Pinned filter k s value (atomicNext filter threshold σ op) ∧
      Registered s (atomicNext filter threshold σ op) ∧
      Idle (atomicNext filter threshold σ op) := by
  obtain ⟨hend, hsafe⟩ := atomic_safe filter hidle threshold op
  replace hsafe := hsafe hslot
  cases hreg : op.isRegistry with
  | true =>
    have hstep : ∃ e, op.events threshold = [e] := by
      cases op <;> first | exact ⟨_, rfl⟩ | cases hreg
    obtain ⟨e, he⟩ := hstep
    unfold atomicNext at hkey ⊢
    rw [he] at hsafe hend hkey ⊢
    obtain ⟨hp', hr'⟩ := registered_step hp hr hsafe.1 hkey
    exact ⟨hp', hr', hend⟩
  | false =>
    have hboth := (hsafe.and (along_of_forall (events_not_registry hreg))).invariant
      (I := fun τ => Pinned filter k s value τ ∧ Registered s τ)
      (fun τ e hτ he => registered_step hτ.1 hτ.2 he.1
        (by rw [snapshots_next he.2.1 he.2.2]; exact hτ.2.key)) ⟨hp, hr⟩
    exact ⟨hboth.1, hboth.2, hend⟩

theorem atomic_reading (h : Reading filter σ) (hidle : Idle σ)
    (hslot : Along (atomicNext filter threshold) SlotKept σ ops) :
    Reading filter (run (atomicNext filter threshold) σ ops) ∧
      Idle (run (atomicNext filter threshold) σ ops) := by
  refine hslot.invariant (I := fun τ => Reading filter τ ∧ Idle τ) ?_ ⟨h, hidle⟩
  intro τ op hτ hkept
  obtain ⟨hend, hsafe⟩ := atomic_safe filter hτ.2 threshold op
  exact ⟨reading_run hτ.1 (hsafe hkept), hend⟩

def refs (σ : Sys) (seq : ℕ) : ℕ := ((snapshots σ).get? seq).getD 0

def registrations (seq : ℕ) (σ : Sys) : AtomicOp → ℕ
  | .snapshotNow => if σ.engine.currentSeq = seq then 1 else 0
  | .registerSnapshot x => if x = seq then 1 else 0
  | _ => 0

def releases (seq : ℕ) (σ : Sys) : AtomicOp → ℕ
  | .releaseSnapshot x => if x = seq ∧ seq ∈ (snapshots σ).keys then 1 else 0
  | _ => 0

def total (filter : BloomFilter) (threshold : ℕ) (f : Sys → AtomicOp → ℕ) : Sys → List AtomicOp → ℕ
  | _, [] => 0
  | σ, op :: ops => f σ op + total filter threshold f (atomicNext filter threshold σ op) ops

def CountsPositive (σ : Sys) : Prop := ∀ seq, (snapshots σ).get? seq ≠ some 0

theorem register_counts (x : ℕ) (h : CountsPositive σ) :
    let τ : Sys := { σ with engine := σ.engine.registerSnapshot x }
    CountsPositive τ ∧ ∀ seq, refs τ seq = refs σ seq + if x = seq then 1 else 0 := by
  have hget : ∀ seq, (σ.engine.registerSnapshot x).ws.openSnapshots.get? seq =
      if seq = x then some (((snapshots σ).get? x).getD 0 + 1) else (snapshots σ).get? seq :=
    fun seq => OrderedMap.get?_upsert _
  refine ⟨fun seq => ?_, fun seq => ?_⟩
  · rw [hget]
    split_ifs
    · simp
    · exact h seq
  · change ((σ.engine.registerSnapshot x).ws.openSnapshots.get? seq).getD 0 = _
    rw [hget, refs]
    by_cases hx : seq = x
    · simp [hx]
    · simp [hx, Ne.symm hx]

theorem release_counts (x : ℕ) (h : CountsPositive σ) :
    let τ : Sys := { σ with engine := σ.engine.releaseSnapshot x }
    CountsPositive τ ∧ ∀ seq, refs τ seq +
      (if x = seq ∧ seq ∈ (snapshots σ).keys then 1 else 0) = refs σ seq := by
  intro τ
  cases hx : (snapshots σ).get? x with
  | none =>
    have hτ : snapshots τ = snapshots σ := by
      simp only [τ, LsmEngine.releaseSnapshot]
      rw [show σ.engine.ws.openSnapshots.get? x = none from hx]
    have hno : x ∉ (snapshots σ).keys := by
      rw [OrderedMap.mem_keys, hx]; simp
    refine ⟨fun seq => by rw [hτ]; exact h seq, fun seq => ?_⟩
    rw [refs, hτ, if_neg (by rintro ⟨rfl, hm⟩; exact hno hm), add_zero, refs]
  | some count =>
    have hpos : count ≠ 0 := fun h0 => h x (by rw [hx, h0])
    have hget : ∀ seq, (snapshots τ).get? seq =
        if seq = x then (if count - 1 = 0 then none else some (count - 1))
        else (snapshots σ).get? seq := by
      intro seq
      simp only [τ, LsmEngine.releaseSnapshot]
      rw [show σ.engine.ws.openSnapshots.get? x = some count from hx]
      dsimp only
      by_cases h1 : count - 1 = 0
      · rw [if_pos h1, OrderedMap.get?_erase, if_pos h1]
      · rw [if_neg h1, OrderedMap.get?_insert, if_neg h1]
    refine ⟨fun seq => ?_, fun seq => ?_⟩
    · rw [hget]
      split_ifs with h1 h2
      · simp
      · simpa using h2
      · exact h seq
    · rw [refs, hget, refs]
      by_cases hs : seq = x
      · subst hs
        have hm : seq ∈ (snapshots σ).keys := OrderedMap.mem_keys.mpr ⟨count, hx⟩
        simp only [if_true, hm, and_self, hx, Option.getD_some]
        split_ifs with h1
        · simp only [Option.getD_none]; omega
        · simp only [Option.getD_some]; omega
      · simp [hs, Ne.symm hs]

theorem refs_atomic_step (h : CountsPositive σ) :
    CountsPositive (atomicNext filter threshold σ op) ∧
      ∀ seq, refs (atomicNext filter threshold σ op) seq + releases seq σ op =
        refs σ seq + registrations seq σ op := by
  have hother : op.isRegistry = false → CountsPositive (atomicNext filter threshold σ op) ∧
        ∀ seq, refs (atomicNext filter threshold σ op) seq = refs σ seq := by
    intro hop
    have hs := snapshots_atomicNext filter threshold σ hop
    exact ⟨fun seq => by rw [hs]; exact h seq, fun seq => by rw [refs, hs, refs]⟩
  cases op with
  | snapshotNow =>
    obtain ⟨hpos, hrefs⟩ := register_counts σ.engine.currentSeq h
    exact ⟨hpos, hrefs⟩
  | registerSnapshot x =>
    obtain ⟨hpos, hrefs⟩ := register_counts x h
    exact ⟨hpos, hrefs⟩
  | releaseSnapshot x =>
    obtain ⟨hpos, hrefs⟩ := release_counts x h
    exact ⟨hpos, hrefs⟩
  | _ => exact hother rfl

theorem refs_run (filter : BloomFilter) (threshold : ℕ) (ops : List AtomicOp)
    (h : CountsPositive σ) :
    CountsPositive (run (atomicNext filter threshold) σ ops) ∧
      ∀ seq, refs (run (atomicNext filter threshold) σ ops) seq + total filter threshold
        (releases seq) σ ops =
        refs σ seq + total filter threshold (registrations seq) σ ops := by
  induction ops generalizing σ with
  | nil => exact ⟨h, fun seq => rfl⟩
  | cons op ops ih =>
    obtain ⟨hpos, hstep⟩ := refs_atomic_step h
    obtain ⟨hend, hrun⟩ := ih hpos
    refine ⟨hend, fun seq => ?_⟩
    have h1 := hrun seq
    have h2 := hstep seq
    simp only [run_cons, total]
    omega

end Atomic

/-- Snapshot stability. As long as every memtable that is frozen finds the immutable slot free, a
read at the sequence number that `snapshot_now` returned gives, while it stays registered, the
newest write at or below it, which is the latest write at the time of the snapshot. The reference
count of every sequence number is its registrations minus its releases in every run. -/
theorem registered_snapshot_is_stable (filter : BloomFilter) (path : String) (threshold : ℕ)
    (before after : List AtomicOp) :
    let step := atomicNext filter threshold
    let σ := run step (initial path) before
    let s := σ.engine.currentSeq
    let τ := run step (initial path) (before ++ .snapshotNow :: after)
    (Along step SlotKept (initial path) before →
      Along step (fun υ op => SlotKept υ op ∧ s ∈ (snapshots (step υ op)).keys)
        (step σ .snapshotNow) after →
      ∀ k, τ.engine.readAt k s = valueAt τ.applied k s ∧
        valueAt τ.applied k s = latest σ.applied k) ∧
    ∀ seq, refs τ seq +
        total filter threshold (releases seq) (initial path) (before ++ .snapshotNow :: after) =
      total filter threshold (registrations seq) (initial path)
        (before ++ .snapshotNow :: after) := by
  intro step σ s τ
  have hτ : τ = run step (step σ .snapshotNow) after := run_append _ _
  refine ⟨fun hslot hkeys k => ?_, fun seq => ?_⟩
  · obtain ⟨hread, hidle⟩ : Reading filter σ ∧ Idle σ :=
      atomic_reading .initial_reading ⟨rfl, rfl⟩ hslot
    have hpinned := Pinned.of_current hread k
    have hkey : s ∈ (snapshots (step σ .snapshotNow)).keys := by
      rw [OrderedMap.mem_keys]
      exact ⟨_, OrderedMap.get?_upsert_self ..⟩
    have hreg : Registered s (step σ .snapshotNow) :=
      ⟨hkey, by simp [step, atomicNext, AtomicOp.events, StorageLsmSystem.next, hidle.compactions]⟩
    have hstart : Pinned filter k s (latest σ.applied k) (step σ .snapshotNow) ∧
        Registered s (step σ .snapshotNow) ∧ Idle (step σ .snapshotNow) :=
      ⟨hpinned.next_step (e := .snapshotNow) trivial trivial, hreg,
        (atomic_safe filter hidle threshold .snapshotNow).1⟩
    have hend := hkeys.invariant (I := fun υ => Pinned filter k s (latest σ.applied k) υ ∧
      Registered s υ ∧ Idle υ)
      (fun υ op hυ hk => registered_atomic_step hυ.1 hυ.2.1 hυ.2.2 hk.1 hk.2) hstart
    rw [hτ, hend.1.readAt_eq, hend.1.value_eq]
    exact ⟨rfl, rfl⟩
  · have hfresh : CountsPositive (initial path) :=
      fun seq => by simp [snapshots, initial, freshEngine]
    have hcount := (refs_run filter threshold (before ++ .snapshotNow :: after) hfresh).2 seq
    have hzero : refs (initial path) seq = 0 := rfl
    rw [hzero, zero_add] at hcount
    exact hcount

def writeAndFlush (key value : Bytes) (ending : Ending) : List AtomicOp :=
  [.writeBatch (putRow key value) .ok heldLease (.allOk heldLease), .flush heldLease ending]

/-- The snapshot of the first value survives an overwrite, a flush and a full compaction. -/
theorem snapshot_survives_overwrite_and_compaction :
    let step := atomicNext exactFilter 4
    let before := writeAndFlush [97] [1] (.allOk heldLease)
    let after := writeAndFlush [97] [2] (.allOk heldLease) ++
      [.compactAll heldLease (.allOk heldLease)]
    (run step (initial "wal.log") (before ++ .snapshotNow :: after)).engine.readAt [97]
      (run step (initial "wal.log") before).engine.currentSeq = some [1] := by
  have hstable := (registered_snapshot_is_stable exactFilter "wal.log" 4
    (writeAndFlush [97] [1] (.allOk heldLease)) (writeAndFlush [97] [2] (.allOk heldLease) ++
      [.compactAll heldLease (.allOk heldLease)])).1 (by decide) (by decide +kernel) [97]
  exact hstable.1.trans (by decide +kernel)

/-- The upload of the first flush fails and the second flush takes its memtable's place: the value
is gone while the snapshot is still registered. -/
theorem snapshot_lost_after_failed_flush :
    let uploadFails : Ending := { Ending.allOk heldLease with upload := false }
    let before := writeAndFlush [97] [1] uploadFails
    let after := writeAndFlush [98] [2] (.allOk heldLease)
    let τ := run (atomicNext exactFilter 4) (initial "wal.log") (before ++ .snapshotNow :: after)
    (snapshots τ).keys = [1] ∧ valueAt τ.applied [97] 1 = some [1] ∧
      τ.engine.readAt [97] 1 = none := by
  decide

end StorageLsmSnapshots
