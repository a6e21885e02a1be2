import Keystone.StorageLsmTableOrder

/-! # Reads across a compaction commit

A compaction is captured, writes and flushes go on while it merges, and its commit replaces the
captured tables. The commit keeps every read at the current sequence number, and at every snapshot
that was registered when the compaction began. -/
namespace StorageLsmCompactionCommit

open GuardedRuns List VersionedLayers
open StorageInternalKey StorageMemTable StorageLsmEngine StorageLsmSystem
open StorageLsmReads StorageLsmCompaction StorageLsmSteps StorageLsmInvariant StorageLsmLayering
open StorageLsmTableOrder
open LsmEngine (compactRun reconcile)

/-- What may happen while the compaction listed as `task` merges and uploads: writes, flushes
and snapshots, its own upload, and further compactions that begin. -/
def WhileMerging (task : ℕ) : Event → Prop
  | .commitCompact _ _ _ _ | .crashOpen _ => False
  | .finishCompact t io => t = task ∧ io = true
  | _ => True

instance (task : ℕ) : (e : Event) → Decidable (WhileMerging task e)
  | .finishCompact .. => inferInstanceAs (Decidable (_ ∧ _))
  | .commitCompact .. | .crashOpen _ => .isFalse id
  | .writeBatch .. | .beginFlush _ | .finishFlush .. | .commitFlush .. | .beginCompact _
  | .snapshotNow | .registerSnapshot _ | .releaseSnapshot _ => .isTrue trivial

def KeepsCompactions : Op → Prop
  | .dropCompact _ | .replace _ _ _ _ _ => False
  | _ => True

variable {filter : BloomFilter} {task : ℕ} {σ : Sys}

theorem WhileMerging.keepsCompactions (h : WhileMerging task e) (hd : Does σ e ops) :
    Along (apply filter) (fun _ op => KeepsCompactions op) σ ops := by
  cases hd with
  | droppedCompact => exact absurd h.2 Bool.false_ne_true
  | compactRefused | compacted => exact absurd h id
  | _ => simp [Along, KeepsCompactions]

structure Merging (filter : BloomFilter) (p : PendingCompaction) (task : ℕ) (σ : Sys) : Prop where
  live : Live filter σ
  ordered : Ordered σ
  listed : ∃ o, σ.compactions[task]? = some (p, o)
  captured_live : ∀ t ∈ p.sstables, t ∈ σ.tables

namespace Merging

variable {filter : BloomFilter} {p : PendingCompaction} {task : ℕ} {σ : Sys}

theorem apply_op (h : Merging filter p task σ) (he : Enabled σ op) (hs : TableSafe σ op)
    (hk : KeepsCompactions op) : Merging filter p task (apply filter σ op) where
  live := h.live.apply_op he
  ordered := h.ordered.apply_op h.live he hs
  listed := by
    obtain ⟨o, ho⟩ := h.listed
    cases op with
    | capture =>
      have hlt := (List.getElem?_eq_some_iff.mp ho).1
      exact ⟨o, (List.getElem?_append_left hlt).trans ho⟩
    | uploadCompact t q =>
      have hq : σ.compactions[t]? = some (q, none) := he
      have hlt := (List.getElem?_eq_some_iff.mp ho).1
      by_cases heq : t = task
      · subst heq
        rw [ho] at hq
        obtain ⟨rfl, rfl⟩ := Prod.mk.inj (Option.some.inj hq)
        exact ⟨_, List.getElem?_set_self hlt⟩
      · exact ⟨o, (List.getElem?_set_ne heq).trans ho⟩
    | dropCompact | replace => exact absurd hk id
    | _ => exact ⟨o, ho⟩
  captured_live := by
    intro t ht
    cases op with
    | publish => exact mem_append_left _ (h.captured_live t ht)
    | replace => exact absurd hk id
    | _ => exact h.captured_live t ht

theorem next_step (h : Merging filter p task σ) (hm : WhileMerging task e) (hs : OrderSafe σ e) :
    Merging filter p task (next filter σ e) :=
  next_invariant_of_guard
    (fun _ _ hσ hop hg => hσ.apply_op hop hg.1 hg.2) hs.not_crash
    (fun _ hd => (hs.tableSafe hd).and (hm.keepsCompactions hd)) h

end Merging

variable {lease : LeaseHandle} {p : PendingCompaction}

theorem beginCompact_some (h : (σ.engine.beginCompact lease).2 = .ok (some p)) :
    p = ⟨σ.tables, watermark σ, σ.nextId⟩ ∧ Enabled σ .capture ∧
      ∀ filter, next filter σ (.beginCompact lease) = apply filter σ .capture := by
  unfold LsmEngine.beginCompact at h
  split_ifs at h with hlen hl
  · cases h
  · obtain rfl := Option.some.inj (Except.ok.inj h)
    refine ⟨rfl, not_lt.mp hlen, fun filter => ?_⟩
    simp only [StorageLsmSystem.next, Sys.beginCompact, LsmEngine.beginCompact,
      if_neg hlen, if_neg hl]
    rfl

variable {deleted : ℕ → Bool} {k : Bytes} {s : ℕ}

/-- The replaced table list still covers what the old one answered, at every point the
compaction has no gap above. -/
theorem replace_covers (h : Merging filter p task σ)
    (he : σ.compactions[task]? = some (p, some merged))
    (hs : TableSafe σ (.replace task p merged lease deleted)) (hgap : NoGap p k s) :
    CoveredAt (tableRows σ.tables)
      (tableRows (apply filter σ (.replace task p merged lease deleted)).tables) k s := by
  have hin := mem_of_getElem? he
  have hsplit := tableRows_split h.live hin h.captured_live
  refine CoveredAt.replace (fun v hv => .inl hv.mem) hsplit (tableRows_replace h.live he)
    (fun v => compactRun_subset) (fun v hv => (hsplit v).mpr (.inr hv))
    (compactRun_covers (h.live.versions.captured_functional hin) hgap) ?_
  intro v hv hnewest w hw hwk _
  obtain ⟨u, hu, hw⟩ := mem_tableRows.mp hw
  obtain ⟨hu, hnot⟩ := mem_survivors.mp hu
  exact absurd (hwk.trans hnewest.key_eq.symm) (hs u hu hnot w hw v hv)

theorem replace_tablesAt (h : Merging filter p task σ)
    (he : Enabled σ (.replace task p merged lease deleted))
    (hs : TableSafe σ (.replace task p merged lease deleted)) (hgap : NoGap p k s) :
    tablesAt (apply filter σ (.replace task p merged lease deleted)).tables k s =
      tablesAt σ.tables k s := by
  refine tablesAt_covered h.ordered.recent (h.ordered.apply_op h.live he hs).recent
    (tableRows_functional h.live.versions) (fun v hv => ?_) (replace_covers h he.1 hs hgap)
  rw [tableRows_split h.live (mem_of_getElem? he.1) h.captured_live]
  exact ((tableRows_replace h.live he.1 v).mp hv).imp_right compactRun_subset

/-- A commit that succeeds or fails leaves every read without a gap above it as it was. -/
theorem commitCompact_readAt (h : Merging filter p task σ)
    (hs : OrderSafe σ (.commitCompact task lease saveManifest deleted)) (hgap : NoGap p k s) :
    (next filter σ (.commitCompact task lease saveManifest deleted)).engine.readAt k s =
      σ.engine.readAt k s := by
  obtain ⟨ops, hd, hnext⟩ := next_does filter σ
    (e := .commitCompact task lease saveManifest deleted) rfl
  have henabled := does_enabled filter hd
  have hsafe : Along (apply filter) TableSafe σ ops := hs.tableSafe hd
  rw [hnext]
  cases hd with
  | compactRefused | nothing => rfl
  | compacted task lease saveManifest deleted q merged ht he =>
    obtain ⟨o, ho⟩ := h.listed
    rw [ho] at ht
    obtain ⟨rfl, rfl⟩ := Prod.mk.inj (Option.some.inj ht)
    exact readAt_congr (replace_tablesAt h henabled.1 hsafe.1 hgap)

/-- In every run whose commits keep the table list ordered by recency: whatever is written
and flushed while a compaction merges, its commit changes no read and no scan entry at the
current sequence number or at a snapshot registered when it began. -/
theorem compaction_commit_preserves_reads (filter : BloomFilter) (path : String)
    (before during : List Event) (lease lease' : LeaseHandle) (saveManifest : Bool)
    (deleted : ℕ → Bool) (p : PendingCompaction)
    (hbefore : Along (next filter) OrderSafe (initial path) before) :
    let σ := run (next filter) (initial path) before
    let task := σ.compactions.length
    let begun := next filter σ (.beginCompact lease)
    let τ := run (next filter) begun during
    let committed := next filter τ (.commitCompact task lease' saveManifest deleted)
    (σ.engine.beginCompact lease).2 = .ok (some p) →
    Along (next filter) (fun τ e => WhileMerging task e ∧ OrderSafe τ e) begun during →
    OrderSafe τ (.commitCompact task lease' saveManifest deleted) →
    ∀ k s, s = τ.engine.currentSeq ∨ s ∈ σ.engine.ws.openSnapshots.keys →
      committed.engine.readAt k s = τ.engine.readAt k s ∧
        ∀ v, (k, v) ∈ committed.engine.scanAt s ↔ (k, v) ∈ τ.engine.scanAt s := by
  intro σ task begun τ committed hbegin hduring hcommit k s hs
  obtain ⟨hl, ho⟩ : Live filter σ ∧ Ordered σ := ordered_run hbefore
  obtain ⟨rfl, henabled, hcapture⟩ := beginCompact_some hbegin
  have hstart : Merging filter ⟨σ.tables, watermark σ, σ.nextId⟩ task begun := by
    change Merging filter _ task (next filter σ (.beginCompact lease))
    rw [hcapture filter]
    exact ⟨hl.apply_op henabled, ho.apply_op hl henabled trivial,
      ⟨none, List.getElem?_concat_length⟩, fun t ht => ht⟩
  have hm : Merging filter ⟨σ.tables, watermark σ, σ.nextId⟩ task τ :=
    hduring.invariant (fun _ _ hτ he => hτ.next_step he.1 he.2) hstart
  have hgap : NoGap ⟨σ.tables, watermark σ, σ.nextId⟩ k s := by
    rcases hs with rfl | hs
    · obtain ⟨o, ho⟩ := hm.listed
      exact noGap_current hm.live (mem_of_getElem? ho)
        (Nat.sub_add_cancel hm.live.versions.seq_pos).ge
    · exact fun v _ _ hlt => (watermark_le hs).trans (le_of_lt hlt)
  have hread := commitCompact_readAt hm hcommit hgap
  refine ⟨hread, fun v => ?_⟩
  have hscan : ∀ e : LsmEngine, (k, v) ∈ e.scanAt s ↔ e.readAt k s = some v :=
    fun e => mem_scanAt_iff_readAt
  rw [hscan, hscan, hread]

/-- A write and a flush of another key while the compaction merges, with a snapshot open. -/
theorem flush_of_other_key_keeps_reads :
    let σ := run (next exactFilter) (initial "wal.log")
      ([put [97] [1], .snapshotNow] ++ flushPhases ++ [put [97] [2]] ++ flushPhases)
    let begun := next exactFilter σ (.beginCompact heldLease)
    let τ := run (next exactFilter) begun ([put [98] [3]] ++ flushPhases ++ [.finishCompact 0 true])
    let committed := next exactFilter τ (.commitCompact 0 heldLease true fun _ => true)
    ∀ k s, s = τ.engine.currentSeq ∨ s ∈ σ.engine.ws.openSnapshots.keys →
      committed.engine.readAt k s = τ.engine.readAt k s ∧
        ∀ v, (k, v) ∈ committed.engine.scanAt s ↔ (k, v) ∈ τ.engine.scanAt s :=
  compaction_commit_preserves_reads exactFilter "wal.log" _ _ heldLease heldLease true
    (fun _ => true) _ (by decide) rfl (by decide) (by decide)

/-- A flush that rewrites a captured key while the compaction merges: after the commit the
newest table is read under the merged one, and the acknowledged value is gone. -/
theorem compaction_commit_resurrects_old_value :
    let σ := run (next exactFilter) (initial "wal.log")
      ([put [97] [1]] ++ flushPhases ++ [put [98] [1]] ++ flushPhases)
    let begun := next exactFilter σ (.beginCompact heldLease)
    let τ := run (next exactFilter) begun ([put [97] [2]] ++ flushPhases ++ [.finishCompact 0 true])
    let committed := next exactFilter τ (.commitCompact 0 heldLease true fun _ => true)
    τ.engine.readAt [97] τ.engine.currentSeq = some [2] ∧
      committed.engine.readAt [97] τ.engine.currentSeq = some [1] ∧
      ([97], [2]) ∈ τ.engine.scanAt τ.engine.currentSeq ∧
      ([97], [1]) ∈ committed.engine.scanAt τ.engine.currentSeq := by
  decide

end StorageLsmCompactionCommit
