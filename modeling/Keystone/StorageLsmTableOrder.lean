import Keystone.StorageLsmConcurrentReads
import Keystone.StorageLsmRecovery

/-! # The order of the table list

Ids are issued when a flush or a compaction begins, list positions are decided when it
commits, and a reopened engine sorts by id. Both orders mean recency as long as no table is
committed next to one that shares a key with it and belongs on its other side. -/
namespace StorageLsmTableOrder

open GuardedRuns List VersionedLayers
open StorageInternalKey StorageMemTable StorageLsmEngine StorageLsmSystem
open StorageLsmReads StorageLsmCompaction StorageLsmSteps StorageLsmInvariant StorageLsmLayering
open StorageLsmConcurrentReads StorageLsmRecovery
open LsmEngine (compactRun reconcile)

/-- A flush commit finds no live table with a larger id that shares a key with it; a
compaction commit finds no surviving table that shares a key with the captured ones. -/
def TableSafe (σ : Sys) : Op → Prop
  | .publish _ p _ _ => ∀ u ∈ σ.tables, p.sstableId < u.id → KeysDisjoint u.rows p.entries.rows
  | .replace _ p _ _ _ => ∀ u ∈ σ.tables, u.id ∉ p.sstables.map SSTable.id →
      KeysDisjoint u.rows (captured p)
  | _ => True

def Below (lower upper : List (Version Bytes Bytes)) : Prop :=
  ∀ b ∈ lower, ∀ a ∈ upper, b.seq < a.seq

theorem Below.precedes (h : Below lower upper) :
    Precedes lower upper := fun b hb a ha _ => le_of_lt (h b hb a ha)

/-- The memtable is above everything that was frozen before it, a flush in flight is above
everything with a smaller id, and the live tables are ordered by position and by id. -/
structure Ordered (σ : Sys) : Prop where
  mem_table : ∀ t ∈ σ.tables, Below t.rows σ.mem.rows
  mem_flush : ∀ f ∈ σ.flushes, Below f.1.entries.rows σ.mem.rows
  mem_captured : ∀ c ∈ σ.compactions, Below (captured c.1) σ.mem.rows
  flush_table : ∀ f ∈ σ.flushes, ∀ t ∈ σ.tables, t.id < f.1.sstableId →
    Below t.rows f.1.entries.rows
  flush_flush : ∀ f ∈ σ.flushes, ∀ g ∈ σ.flushes, g.1.sstableId < f.1.sstableId →
    Below g.1.entries.rows f.1.entries.rows
  flush_captured : ∀ f ∈ σ.flushes, ∀ c ∈ σ.compactions, c.1.newId < f.1.sstableId →
    Below (captured c.1) f.1.entries.rows
  recent : σ.tables.Pairwise fun a b => Precedes a.rows b.rows
  by_id : ∀ a ∈ σ.tables, ∀ b ∈ σ.tables, a.id < b.id → Precedes a.rows b.rows

namespace Ordered

variable {filter : BloomFilter} {σ : Sys}

theorem apply_freeze (h : Ordered σ) (hl : Live filter σ) : Ordered (apply filter σ .freeze) := by
  have hempty : (apply filter σ .freeze).mem.rows = [] := rfl
  exact { h with
    mem_table := by intro t _ b _ a ha; rw [hempty] at ha; cases ha
    mem_flush := by intro f _ b _ a ha; rw [hempty] at ha; cases ha
    mem_captured := by intro c _ b _ a ha; rw [hempty] at ha; cases ha
    flush_table := forall_mem_freeze h.flush_table fun t ht _ => h.mem_table t ht
    flush_flush := by
      intro f hf g hg hid
      rcases mem_flushes_freeze hf with hf | rfl <;> rcases mem_flushes_freeze hg with hg | rfl
      · exact h.flush_flush f hf g hg hid
      · exact absurd (hl.placement.flush_lt hf) (lt_asymm hid)
      · exact h.mem_flush g hg
      · exact absurd hid (lt_irrefl _)
    flush_captured := forall_mem_freeze h.flush_captured fun c hc _ => h.mem_captured c hc }

theorem of_tasks (h : Ordered σ) (hf : ∀ f ∈ flushes, ∃ o, (f.1, o) ∈ σ.flushes)
    (hc : ∀ c ∈ compactions, ∃ o, (c.1, o) ∈ σ.compactions) :
    Ordered { σ with flushes := flushes, compactions := compactions, store := store } := by
  choose built hf using hf
  choose merged hc using hc
  exact { h with
    mem_flush := fun f hfm => (h.mem_flush _ (hf f hfm) :)
    mem_captured := fun c hcm => (h.mem_captured _ (hc c hcm) :)
    flush_table := fun f hfm => (h.flush_table _ (hf f hfm) :)
    flush_flush := fun f hfm g hgm => (h.flush_flush _ (hf f hfm) _ (hf g hgm) :)
    flush_captured := fun f hfm c hcm => (h.flush_captured _ (hf f hfm) _ (hc c hcm) :) }

theorem apply_publish (h : Ordered σ) (hl : Live filter σ)
    (he : σ.flushes[task]? = some (p, some t))
    (hs : TableSafe σ (.publish task p t lease)) :
    Ordered (apply filter σ (.publish task p t lease)) := by
  have hin := mem_of_getElem? he
  obtain rfl := hl.versions.flush_table he
  have hlower : ∀ u ∈ σ.tables, Precedes u.rows p.entries.rows := by
    intro u hu
    rcases lt_trichotomy u.id p.sstableId with hlt | heq | hgt
    · exact (h.flush_table _ hin u hu hlt).precedes
    · exact absurd (mem_append_left _ (heq ▸ Placement.mem_flushIds he))
        (hl.placement.table_settled hu)
    · exact (hs u hu hgt).precedes
  have htables : ∀ u ∈ (apply filter σ (.publish task p (flushTable filter p) lease)).tables,
      u ∈ σ.tables ∨ u = flushTable filter p :=
        fun u hu => (mem_append.mp hu).imp_right mem_singleton.mp
  have hflushes : ∀ f ∈ (apply filter σ (.publish task p (flushTable filter p) lease)).flushes,
    f ∈ σ.flushes :=
    fun f hf => mem_of_mem_eraseIdx hf
  exact { h with
    mem_table := by
      intro u hu
      rcases htables u hu with hu | rfl
      · exact h.mem_table u hu
      · exact h.mem_flush _ hin
    mem_flush := fun f hf => h.mem_flush f (hflushes f hf)
    flush_table := by
      intro f hf u hu hlt
      rcases htables u hu with hu | rfl
      · exact h.flush_table f (hflushes f hf) u hu hlt
      · exact h.flush_flush f (hflushes f hf) _ hin hlt
    flush_flush := fun f hf g hg => h.flush_flush f (hflushes f hf) g (hflushes g hg)
    flush_captured := fun f hf => h.flush_captured f (hflushes f hf)
    recent := by
      refine pairwise_append.mpr ⟨h.recent, pairwise_singleton .., ?_⟩
      intro u hu x hx
      rw [mem_singleton.mp hx]
      exact hlower u hu
    by_id := by
      intro a ha b hb hlt
      rcases htables a ha with ha' | rfl <;> rcases htables b hb with hb' | rfl
      · exact h.by_id a ha' b hb' hlt
      · exact hlower a ha'
      · exact (hs b hb' hlt).symm.precedes
      · exact absurd hlt (lt_irrefl _) }

theorem apply_replace (h : Ordered σ) (hl : Live filter σ)
    (he : σ.compactions[task]? = some (p, some merged))
    (hs : TableSafe σ (.replace task p merged lease deleted)) :
    Ordered (apply filter σ (.replace task p merged lease deleted)) := by
  have hin := mem_of_getElem? he
  obtain rfl := hl.versions.merged_table he
  have hsub : ∀ v ∈ (mergedTable filter p).rows, v ∈ captured p := fun v => compactRun_subset
  have htables :
    ∀ u ∈ (apply filter σ (.replace task p (mergedTable filter p) lease deleted)).tables,
      (u ∈ σ.tables ∧ KeysDisjoint u.rows (mergedTable filter p).rows) ∨
        u = mergedTable filter p := by
    intro u hu
    rcases mem_append.mp hu with hu | hu
    · obtain ⟨hu, hnot⟩ := mem_filter.mp hu
      exact .inl ⟨hu, (hs u hu (by simpa using hnot)).mono hsub⟩
    · exact .inr (mem_singleton.mp hu)
  have hcomps :
    ∀ c ∈ (apply filter σ (.replace task p (mergedTable filter p) lease deleted)).compactions,
      c ∈ σ.compactions := fun c hc => mem_of_mem_eraseIdx hc
  exact { h with
    mem_table := by
      intro u hu
      rcases htables u hu with ⟨hu, _⟩ | rfl
      · exact h.mem_table u hu
      · exact fun b hb => h.mem_captured _ hin b (hsub b hb)
    mem_captured := fun c hc => h.mem_captured c (hcomps c hc)
    flush_table := by
      intro f hf u hu hlt
      rcases htables u hu with ⟨hu, _⟩ | rfl
      · exact h.flush_table f hf u hu hlt
      · exact fun b hb => h.flush_captured f hf _ hin hlt b (hsub b hb)
    flush_captured := fun f hf c hc => h.flush_captured f hf c (hcomps c hc)
    recent := by
      refine pairwise_append.mpr ⟨h.recent.filter _, pairwise_singleton .., ?_⟩
      intro u hu x hx
      obtain ⟨hu, hnot⟩ := mem_filter.mp hu
      rw [mem_singleton.mp hx]
      exact ((hs u hu (by simpa using hnot)).mono hsub).precedes
    by_id := by
      intro a ha b hb hlt
      rcases htables a ha with ⟨ha, hda⟩ | rfl <;> rcases htables b hb with ⟨hb, hdb⟩ | rfl
      · exact h.by_id a ha b hb hlt
      · exact hda.precedes
      · exact hdb.symm.precedes
      · exact absurd hlt (lt_irrefl _) }

theorem apply_op (h : Ordered σ) (hl : Live filter σ) (he : Enabled σ op)
    (hs : TableSafe σ op) : Ordered (apply filter σ op) := by
  cases op with
  | failAppend => exact { h with }
  | addRows b =>
    have hnew : ∀ lower : List (Version Bytes Bytes), (∀ v ∈ lower, v ∈ σ.applied) →
        Below lower σ.mem.rows → Below lower (apply filter σ (.addRows b)).mem.rows := by
      intro lower hsound hlow x hx a ha
      rcases (hl.versions.mem_rows_addRows b).mp ha with ha | ha
      · rw [seq_of_mem_versions ha]; exact hl.versions.bounded x (hsound x hx)
      · exact hlow x hx a ha
    exact { h with
      mem_table := fun t ht => hnew _ (hl.versions.table_sound t ht) (h.mem_table t ht)
      mem_flush := fun f hf => hnew _ (hl.versions.flush_sound f hf) (h.mem_flush f hf)
      mem_captured := fun c hc => hnew _ (hl.versions.captured_sound c hc) (h.mem_captured c hc) }
  | ack => exact { h with }
  | freeze => exact h.apply_freeze hl
  | uploadFlush task p =>
    exact h.of_tasks (forall_mem_set (fun f hf => ⟨f.2, hf⟩) ⟨none, mem_of_getElem? he⟩)
      fun c hc => ⟨c.2, hc⟩
  | dropFlush task =>
    exact h.of_tasks (fun f hf => ⟨f.2, mem_of_mem_eraseIdx hf⟩) fun c hc => ⟨c.2, hc⟩
  | shipSegment => exact { h with }
  | publish => exact h.apply_publish hl he.1 hs
  | truncateLog => exact { h with }
  | capture =>
    exact { h with
      mem_captured := forall_mem_concat h.mem_captured fun b hb => by
        obtain ⟨t, ht, hb⟩ := StorageLsmCompaction.mem_captured.mp hb
        exact h.mem_table t ht b hb
      flush_captured := fun f hf => forall_mem_concat (h.flush_captured f hf) fun hlt =>
        absurd (hl.placement.flush_lt hf) (lt_asymm hlt) }
  | uploadCompact task p =>
    exact h.of_tasks (fun f hf => ⟨f.2, hf⟩)
      (forall_mem_set (fun c hc => ⟨c.2, hc⟩) ⟨none, mem_of_getElem? he⟩)
  | dropCompact task =>
    exact h.of_tasks (fun f hf => ⟨f.2, hf⟩) fun c hc => ⟨c.2, mem_of_mem_eraseIdx hc⟩
  | replace => exact h.apply_replace hl he.1 hs
  | setSnapshots => exact { h with }

theorem initial_ordered (path : String) : Ordered (initial path) := by
  constructor <;> simp [initial, freshEngine, Sys.tables]

end Ordered

def readyFlush (σ : Sys) (task : ℕ) : Option PendingFlush :=
  σ.flushes[task]?.bind fun f => f.2.map fun _ => f.1

def OrderSafe (σ : Sys) : Event → Prop
  | .commitFlush task _ _ _ => ∀ p ∈ readyFlush σ task, ∀ u ∈ σ.tables, p.sstableId < u.id →
      KeysDisjoint u.rows p.entries.rows
  | .commitCompact task _ _ _ => ∀ p ∈ readyCompaction σ task, ∀ u ∈ σ.tables,
      u.id ∉ p.sstables.map SSTable.id → KeysDisjoint u.rows (captured p)
  | .crashOpen _ => False
  | _ => True

instance (σ : Sys) : (e : Event) → Decidable (OrderSafe σ e)
  | .commitFlush task .. => inferInstanceAs (Decidable (∀ p ∈ readyFlush σ task, ∀ u ∈ σ.tables, _))
  | .commitCompact task .. =>
    inferInstanceAs (Decidable (∀ p ∈ readyCompaction σ task, ∀ u ∈ σ.tables, _))
  | .crashOpen _ => .isFalse id
  | .writeBatch .. | .beginFlush _ | .finishFlush .. | .beginCompact _ | .finishCompact ..
  | .snapshotNow | .registerSnapshot _ | .releaseSnapshot _ => .isTrue trivial

variable {σ : Sys} {e : Event}

theorem OrderSafe.not_crash (h : OrderSafe σ e) : Event.isCrash e = false := by
  cases e <;> first | rfl | exact absurd h id

variable {filter : BloomFilter}

theorem OrderSafe.tableSafe (h : OrderSafe σ e) (hd : Does σ e ops) :
    Along (apply filter) TableSafe σ ops := by
  have hflush : ∀ {task p t lease}, σ.flushes[task]? = some (p, some t) →
      (∀ p ∈ readyFlush σ task, ∀ u ∈ σ.tables, p.sstableId < u.id →
        KeysDisjoint u.rows p.entries.rows) →
      TableSafe (apply filter σ .shipSegment) (.publish task p t lease) :=
    fun ht h => h _ (by simp [readyFlush, ht])
  cases hd with
  | flushed task lease io threshold p t ht he => exact ⟨trivial, hflush ht h, trivial, trivial⟩
  | flushedAndCaptured task lease io threshold p t ht he _ _ =>
    exact ⟨trivial, hflush ht h, trivial, trivial, trivial⟩
  | compacted task lease saveManifest deleted p merged ht he =>
    exact ⟨h p (readyCompaction_eq ht), trivial⟩
  | _ => simp [Along, TableSafe]

theorem ordered_step (hl : Live filter σ) (ho : Ordered σ) (hs : OrderSafe σ e) :
    Live filter (next filter σ e) ∧ Ordered (next filter σ e) :=
  next_invariant_of_guard (I := fun σ => Live filter σ ∧ Ordered σ)
    (fun _ _ hσ hop hg => ⟨hσ.1.apply_op hop, hσ.2.apply_op hσ.1 hop hg⟩) hs.not_crash
    (fun _ hd => hs.tableSafe hd) ⟨hl, ho⟩

theorem ordered_run (h : Along (next filter) OrderSafe (initial path) events) :
    Live filter (run (next filter) (initial path) events) ∧
      Ordered (run (next filter) (initial path) events) :=
  h.invariant (I := fun σ => Live filter σ ∧ Ordered σ)
    (fun _ _ hσ hs => ordered_step hσ.1 hσ.2 hs)
    ⟨.initial_live, .initial_ordered path⟩

/-- Of two table lists ordered by recency, one that holds only versions of the other and
covers it at the read point answers as the other one does. -/
theorem tablesAt_covered (ho : tables.Pairwise fun a b => Precedes a.rows b.rows)
    (ho' : tables'.Pairwise fun a b => Precedes a.rows b.rows) (hf : Functional (tableRows tables))
    (hsub : ∀ v ∈ tableRows tables', v ∈ tableRows tables)
    (hcover : CoveredAt (tableRows tables) (tableRows tables') k s) :
    tablesAt tables' k s = tablesAt tables k s := by
  have hnewer : ∀ {l : List SSTable}, l.Pairwise (fun a b => Precedes a.rows b.rows) →
      (l.reverse.map SSTable.rows).Pairwise Newer := by
    intro l hl
    rw [pairwise_map, pairwise_reverse]
    exact hl.imp fun hab a ha b hb hk => .inr (hab b hb a ha hk.symm)
  have hrows : ∀ {l : List SSTable}, ∀ rows ∈ l.reverse.map SSTable.rows, NewestFirst rows := by
    intro l rows hr
    obtain ⟨t, _, rfl⟩ := mem_map.mp hr
    exact t.rows_newestFirst
  exact readLayers_covered hrows (hnewer ho) hrows (hnewer ho') hf hsub hcover

theorem tableRows_functional (h : Versions filter σ) : Functional (tableRows σ.tables) := by
  refine h.functional.mono fun v hv => ?_
  obtain ⟨t, ht, hv⟩ := mem_tableRows.mp hv
  exact h.table_sound t ht v hv

/-- However the live tables are listed by ascending id, they answer as the live list does. -/
theorem Ordered.tablesAt_by_id (h : Ordered σ) (hl : Live filter σ)
    (hinc : tables.Pairwise fun a b => a.id < b.id) (hmem : ∀ t, t ∈ tables ↔ t ∈ σ.tables)
      (k : Bytes)
    (s : ℕ) :
    tablesAt tables k s = tablesAt σ.tables k s := by
  have hrows : ∀ v, v ∈ tableRows tables ↔ v ∈ tableRows σ.tables := by
    simp [mem_tableRows, hmem]
  have hrecent : tables.Pairwise fun a b => Precedes a.rows b.rows :=
    hinc.imp_of_mem fun ha hb hab => h.by_id _ ((hmem _).mp ha) _ ((hmem _).mp hb) hab
  exact tablesAt_covered h.recent hrecent (tableRows_functional hl.versions)
    (fun v => (hrows v).mp) fun v hv => .inl ((hrows v).mpr hv.mem)

def NotNewer (a b : SSTable) : Prop :=
  ∀ v ∈ a.rows, ∀ w ∈ b.rows, w.key = v.key → w ∉ a.rows → v.seq ≤ w.seq

instance : DecidableRel NotNewer := fun a b =>
  inferInstanceAs (Decidable (∀ v ∈ a.rows, ∀ w ∈ b.rows, _))

/-- In every state of a run in which no table is committed next to one that shares a key with
it and belongs on its other side, the position of a table in the list means recency, and the
list `open` loads, sorted by id, answers every read as the live list does. -/
theorem table_order_is_recency (filter : BloomFilter) (path : String) (events : List Event)
    (hsafe : Along (next filter) OrderSafe (initial path) events) :
    let σ := run (next filter) (initial path) events
    σ.tables.Pairwise NotNewer ∧
    ∀ memtable immutable k s,
      EngineView.readAt ⟨memtable, immutable, LsmEngine.loadTables σ.store fun _ => true⟩ k s =
        EngineView.readAt ⟨memtable, immutable, σ.tables⟩ k s := by
  intro σ
  obtain ⟨hl, ho⟩ : Live filter σ ∧ Ordered σ := ordered_run hsafe
  refine ⟨ho.recent.imp fun hab v hv w hw hk _ => hab v hv w hw hk.symm, ?_⟩
  intro memtable immutable k s
  have hfetch : ∀ id ∈ σ.store.manifestIds, (fun _ => true) id = true := fun _ _ => rfl
  exact readAt_congr (ho.tablesAt_by_id hl (loadTables_increasing hl.placement hfetch)
    (fun t => (loadTables_perm hl.placement hfetch).mem_iff) k s)

/-- Two flushes and a compaction of both, each finished before the next begins. -/
theorem sequential_phases_keep_table_order :
    let σ := run (next exactFilter) (initial "wal.log")
      ([put [97] [1]] ++ flushPhases ++ [put [97] [2]] ++ flushPhases ++ compactPhases)
    σ.tables.Pairwise NotNewer ∧
    ∀ memtable immutable k s,
      EngineView.readAt ⟨memtable, immutable, LsmEngine.loadTables σ.store fun _ => true⟩ k s =
        EngineView.readAt ⟨memtable, immutable, σ.tables⟩ k s :=
  table_order_is_recency exactFilter "wal.log" _ (by decide)

/-- A flush that lands while a compaction runs: the merged table is pushed over the newer
one, so the live list reads the old value and a reopened engine the new one. -/
theorem flush_during_compaction_inverts_order :
    let σ := run (next exactFilter) (initial "wal.log")
      ([put [97] [1]] ++ flushPhases ++ [put [98] [1]] ++ flushPhases ++
        [.beginCompact heldLease, put [97] [2]] ++ flushPhases ++
        [.finishCompact 0 true, .commitCompact 0 heldLease true fun _ => true])
    ¬ σ.tables.Pairwise NotNewer ∧
    EngineView.readAt ⟨σ.mem, σ.imm, LsmEngine.loadTables σ.store fun _ => true⟩ [97] 9 =
      some [2] ∧
    EngineView.readAt ⟨σ.mem, σ.imm, σ.tables⟩ [97] 9 = some [1] := by
  decide

end StorageLsmTableOrder
