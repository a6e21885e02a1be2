import Keystone.DatabaseTxnState
import Keystone.StorageLsmCompactionCommit
import Keystone.StorageLsmRefresh

/-! # Transactions on a reader

A reader answers from the tables that it has fetched, at a sequence number that it has taken from
the manifest. The writer does not know the snapshots that are open on the reader, and the manifest
counts rows that are still in the writer's memtable. -/
namespace DatabaseReaderTxns

open Function GuardedRuns List Option
open StorageInternalKey StorageMemTable StorageManifest StorageLsmEngine StorageLsmSystem
open StorageLsmReads StorageLsmCompaction StorageLsmSteps StorageLsmInvariant StorageLsmLayering
open StorageLsmConcurrentReads StorageLsmRecovery StorageLsmTableOrder StorageLsmCompactionCommit
open StorageLsmOpen StorageLsmRefresh DatabaseTxnReads DatabaseTxnState
open DatabaseWrites (makeKey)
open LsmEngine (openFromStore)

inductive Update where
  | flush (p : PendingFlush)
  | compaction (p : PendingCompaction)

/-- A flush that brings no version of `k` at or below `s`, or a compaction that collapses no
version of `k` above `s`. -/
def Harmless (k : Bytes) (s : ℕ) : Update → Prop
  | .flush p => ∀ v ∈ p.entries.rows, v.key = k → s < v.seq
  | .compaction p => NoGap p k s

instance (k : Bytes) (s : ℕ) : (u : Update) → Decidable (Harmless k s u)
  | .flush p => inferInstanceAs (Decidable (∀ v ∈ p.entries.rows, _))
  | .compaction p => inferInstanceAs (Decidable (NoGap p k s))

def updates (filter : BloomFilter) (σ : Sys) (e : Event) : List Update :=
  if (StorageLsmSystem.next filter σ e).store.manifest = σ.store.manifest then []
  else match e with
    | .commitFlush task _ _ _ => (readyFlush σ task).toList.map .flush
    | .commitCompact task _ _ _ => (readyCompaction σ task).toList.map .compaction
    | _ => []

/-- The condition on the writer under which the order of the tables means recency, in the list
and by id, and no compaction brings back tables that are gone. -/
def CommitsInOrder (σ : Sys) : Event → Prop
  | .commitCompact task _ _ _ => ∀ p ∈ readyCompaction σ task, CompactSafe σ p
  | e => OrderSafe σ e

instance (σ : Sys) : (e : Event) → Decidable (CommitsInOrder σ e)
  | .commitCompact task _ _ _ => inferInstanceAs (Decidable (∀ p ∈ readyCompaction σ task, _))
  | .commitFlush a b c d => inferInstanceAs (Decidable (OrderSafe σ (.commitFlush a b c d)))
  | .crashOpen _ => .isFalse id
  | .writeBatch .. | .beginFlush _ | .finishFlush .. | .beginCompact _ | .finishCompact ..
  | .snapshotNow | .registerSnapshot _ | .releaseSnapshot _ => .isTrue trivial

variable {e : Event}

theorem CommitsInOrder.orderSafe (h : CommitsInOrder σ e) : OrderSafe σ e := by
  cases e with
  | commitCompact task lease saveManifest deleted => exact fun p hp => (h p hp).2
  | _ => exact h

def Agree (us : List Update) (a b : List SSTable) : Prop :=
  ∀ k s, (∀ u ∈ us, Harmless k s u) → tablesAt a k s = tablesAt b k s

theorem Agree.trans (h : Agree us a b) (h' : Agree vs b c) : Agree (us ++ vs) a c := by
  intro k s hall
  obtain ⟨hus, hvs⟩ := forall_mem_append.mp hall
  exact (h k s hus).trans (h' k s hvs)

section Writer

variable {filter : BloomFilter} {σ : Sys}

theorem manifest_ne_of_new (hσ : Placement σ) (hτ : Placement τ) (ht : t ∈ τ.tables)
    (hnew : t.id ∉ σ.tables.map SSTable.id) :
    τ.store.manifest ≠ σ.store.manifest := by
  intro hsame
  have hid := hτ.manifest_ids.mem_iff.mpr (mem_map_of_mem ht)
  rw [manifestIds_eq hsame] at hid
  exact hnew (hσ.manifest_ids.mem_iff.mp hid)

/-- What the live tables answer changes only with an update that is not harmless. -/
theorem next_agree (hl : Live filter σ) (ho : Ordered σ) (he : CommitsInOrder σ e) :
    Agree (updates filter σ e) (StorageLsmSystem.next filter σ e).tables σ.tables := by
  intro k s hupdates
  obtain ⟨hl', -⟩ := ordered_step hl ho he.orderSafe
  obtain ⟨ops, hd, hnext⟩ := next_does filter σ he.orderSafe.not_crash
  have henabled := does_enabled filter hd
  have hsafe : Along (apply filter) TableSafe σ ops := he.orderSafe.tableSafe hd
  have hflush : ∀ {task p t lease io threshold}, σ.flushes[task]? = some (p, some t) →
      e = .commitFlush task lease io threshold →
      (StorageLsmSystem.next filter σ e).tables = σ.tables ++ [t] →
      tablesAt (StorageLsmSystem.next filter σ e).tables k s = tablesAt σ.tables k s := by
    intro task p t lease io threshold ht hevent htables
    have htable := hl.versions.flush_table ht
    have hnew : t.id ∉ σ.tables.map SSTable.id := by
      refine hl.placement.pending_not_live (mem_append_left _ ?_)
      rw [htable]
      exact Placement.mem_flushIds ht
    have hchanged := manifest_ne_of_new hl.placement hl'.placement
      (by rw [htables]; exact mem_append_right _ (mem_singleton.mpr rfl)) hnew
    have hharmless : Harmless k s (.flush p) := by
      refine hupdates _ ?_
      subst hevent
      unfold updates
      rw [if_neg hchanged]
      simp [readyFlush, ht]
    rw [htables]
    refine tablesAt_append_above fun v hv => ?_
    rw [htable] at hv
    exact hharmless v hv
  rw [hnext] at hflush hl' ⊢
  cases hd with
  | flushed task lease io threshold p t ht he
  | flushedAndCaptured task lease io threshold p t ht he _ _ => exact hflush ht rfl rfl
  | compacted task lease saveManifest deleted p merged ht hetag =>
    have hlive : ∀ t ∈ p.sstables, t ∈ σ.tables :=
      fun t => (he p (readyCompaction_eq ht)).listed hl (mem_of_getElem? ht)
    have hnew : merged.id ∉ σ.tables.map SSTable.id := by
      refine hl.placement.pending_not_live (mem_append_right _ ?_)
      rw [hl.versions.merged_table ht]
      exact Placement.mem_compactIds ht
    have hchanged := manifest_ne_of_new hl.placement hl'.placement
      (mem_append_right _ (mem_singleton.mpr rfl)) hnew
    have hharmless : Harmless k s (.compaction p) := by
      refine hupdates _ ?_
      unfold updates
      rw [hnext, if_neg hchanged]
      simp [readyCompaction_eq ht]
    exact replace_tablesAt ⟨hl, ho, ⟨_, ht⟩, hlive⟩ henabled.1 hsafe.1 hharmless
  | _ => rfl

/-- A table that a manifest lists or has listed: its id is not given out again, and what the
store holds under it, if anything, is the table. -/
structure Listed (σ : Sys) (t : SSTable) : Prop where
  lt : t.id < σ.nextId
  settled : t.id ∉ flushIds σ ++ compactIds σ
  same : ∀ u ∈ σ.tables, u.id = t.id → u = t
  stored : ∀ u ∈ σ.store.sst t.id, u = t

namespace Listed

variable {t : SSTable}

theorem of_live (h : Placement σ) (ht : t ∈ σ.tables) : Listed σ t where
  lt := h.table_lt ht
  settled := h.table_settled ht
  same := fun _ hu hid => h.table_eq hu ht hid
  stored := fun _ hu => Option.some.inj (hu.symm.trans (h.stored t ht))

theorem stored_put (h : Listed σ t) (hnew : new.id ∈ flushIds σ ++ compactIds σ) :
    ∀ u ∈ (σ.store.putSst new).sst t.id, u = t := by
  have hne : t.id ≠ new.id := fun hid => h.settled (hid ▸ hnew)
  rw [Store.sst_putSst_of_ne _ hne]
  exact h.stored

theorem apply_op (h : Listed σ t) (hl : Live filter σ) (he : Enabled σ op) :
    Listed (apply filter σ op) t := by
  have hflushes : ∀ task, t.id ∉ (σ.flushes.eraseIdx task).map (fun f => f.1.sstableId) ++
      compactIds σ := fun task hid =>
    h.settled (((map_eraseIdx_sublist _ _ task).append (List.Sublist.refl _)).subset hid)
  have hcompactions : ∀ task, t.id ∉ flushIds σ ++
      (σ.compactions.eraseIdx task).map (fun c => c.1.newId) := fun task hid =>
    h.settled (((List.Sublist.refl _).append (map_eraseIdx_sublist _ _ task)).subset hid)
  cases op with
  | freeze =>
    refine ⟨?_, fun hid => (mem_pending_freeze hid).elim (ne_of_lt h.lt) h.settled,
      h.same, h.stored⟩
    change t.id < if _ then _ else _
    split_ifs
    · exact h.lt
    · exact Nat.lt_succ_of_lt h.lt
  | capture =>
    exact ⟨Nat.lt_succ_of_lt h.lt,
      fun hid => (mem_pending_capture hid).elim (ne_of_lt h.lt) h.settled, h.same, h.stored⟩
  | uploadFlush task p =>
    have hids : flushIds (apply filter σ (.uploadFlush task p)) = flushIds σ := map_set_of_eq he rfl
    refine ⟨h.lt, ?_, h.same, h.stored_put (mem_append_left _ (Placement.mem_flushIds he))⟩
    rw [hids]
    exact h.settled
  | uploadCompact task p =>
    have hids : compactIds (apply filter σ (.uploadCompact task p)) = compactIds σ :=
      map_set_of_eq he rfl
    refine ⟨h.lt, ?_, h.same, h.stored_put (mem_append_right _ (Placement.mem_compactIds he))⟩
    rw [hids]
    exact h.settled
  | dropFlush task => exact ⟨h.lt, hflushes task, h.same, h.stored⟩
  | dropCompact task => exact ⟨h.lt, hcompactions task, h.same, h.stored⟩
  | shipSegment =>
    refine ⟨h.lt, h.settled, h.same, ?_⟩
    rw [sst_shipSegment]
    exact h.stored
  | publish task p new lease =>
    refine ⟨h.lt, hflushes task, fun u hu hid => ?_, h.stored⟩
    rcases mem_append.mp hu with hu | hu
    · exact h.same u hu hid
    · rw [mem_singleton.mp hu, hl.versions.flush_table he.1] at hid
      exact absurd (mem_append_left _ (hid ▸ Placement.mem_flushIds he.1)) h.settled
  | replace task p merged lease deleted =>
    refine ⟨h.lt, hcompactions task, fun u hu hid => ?_, fun u hu => ?_⟩
    · rcases mem_append.mp hu with hu | hu
      · exact h.same u (mem_filter.mp hu).1 hid
      · rw [mem_singleton.mp hu, hl.versions.merged_table he.1] at hid
        exact absurd (mem_append_right _ (hid ▸ Placement.mem_compactIds he.1)) h.settled
    · simp only [apply, Store.deleteSsts] at hu
      split_ifs at hu
      · cases hu
      · exact h.stored u hu
  | _ => exact { h with }

theorem next_step (h : Listed σ t) (hl : Live filter σ) (he : Event.isCrash e = false) :
    Listed (StorageLsmSystem.next filter σ e) t :=
  (next_invariant (I := fun σ => Live filter σ ∧ Listed σ t)
    (fun _ _ hσ hop => ⟨hσ.1.apply_op hop, hσ.2.apply_op hσ.1 hop⟩) he ⟨hl, h⟩).2

theorem openFromStore_eq (h : Listed σ t) (hu : openFromStore σ.store t.id io = .ok u) : u = t := by
  obtain ⟨_, w, hw, rfl⟩ := LsmEngine.openFromStore_ok.mp (congrArg Except.toOption hu)
  rw [h.stored w hw]

end Listed

end Writer

structure Refreshing where
  reads : Reads
  since : List Update

/-- A transaction, with the view that it has begun on. The updates are those that the reader had
not applied then, and those made since. -/
structure ReaderTxn where
  state : TransactionState
  start : EngineView
  updates : List Update

structure Nodes where
  writer : Sys
  reader : LsmEngine
  behind : List Update
  refreshing : Option Refreshing
  txns : List ReaderTxn

/-- A refresh is one request for the manifest, then one for each table, and the change of the
view in the end; the writer may work in between. -/
inductive NodeEvent where
  | writer (e : Event)
  | openReader (fetch : ℕ → Bool)
  | loadManifest (io : Bool)
  | fetchTable (id : ℕ) (io : Bool)
  | finishRefresh
  | beginTxn
  | call (id : ℕ) (c : TxnCall)
  | endTxn (id : ℕ)

namespace Nodes

def onTxn (r : Nodes) (id : ℕ) (f : TransactionState → TransactionState) : List ReaderTxn :=
  r.txns.map fun o => if o.state.id = id then { o with state := f o.state } else o

def release (r : Nodes) (id : ℕ) : LsmEngine :=
  match r.txns.find? fun o => o.state.id = id ∧ o.state.finished = false with
  | some o => r.reader.releaseSnapshot o.state.snapshotSeq
  | none => r.reader

def next (filter : BloomFilter) (r : Nodes) : NodeEvent → Nodes
  | .writer e =>
    let new := updates filter r.writer e
    { r with
      writer := StorageLsmSystem.next filter r.writer e
      behind := new ++ r.behind
      refreshing := r.refreshing.map fun f => { f with since := new ++ f.since }
      txns := r.txns.map fun o => { o with updates := new ++ o.updates } }
  | .openReader fetch =>
    { r with reader := readerOn r.writer.store fetch, behind := [], refreshing := none, txns := [] }
  | .loadManifest io =>
    -- no table has been asked for yet
    { r with
      refreshing := some ⟨⟨r.writer.store, io, fun _ => r.writer.store, fun _ => false⟩, []⟩ }
  | .fetchTable id io =>
    { r with refreshing := r.refreshing.map fun f => { f with reads := { f.reads with
        atFetch := Function.update f.reads.atFetch id r.writer.store
        fetch := Function.update f.reads.fetch id io } } }
  | .finishRefresh =>
    match r.refreshing with
    | none => r
    | some f =>
      let reader := (refresh r.reader f.reads).1
      { r with
        reader := reader
        behind := if reader.ws.manifestEtag = r.reader.ws.manifestEtag then r.behind else f.since
        refreshing := none }
  | .beginTxn =>
    let (reader, snapshotSeq) := r.reader.snapshotNow
    { r with
      reader := reader
      txns := r.txns ++ [⟨.new r.txns.length snapshotSeq, r.reader.view, r.behind⟩] }
  | .call id c => { r with txns := r.onTxn id fun t => t.call c }
  | .endTxn id => { r with reader := r.release id, txns := r.onTxn id TransactionState.discard }

def initial (path : String) : Nodes :=
  ⟨StorageLsmSystem.initial path, readerOn .empty fun _ => true, [], none, []⟩

def Steady (r : Nodes) : NodeEvent → Prop
  | .writer e => CommitsInOrder r.writer e
  | .openReader fetch => AllLoad r.writer.store fetch
  | _ => True

instance (r : Nodes) : (e : NodeEvent) → Decidable (r.Steady e)
  | .writer e => inferInstanceAs (Decidable (CommitsInOrder r.writer e))
  | .openReader fetch => inferInstanceAs (Decidable (AllLoad r.writer.store fetch))
  | .loadManifest _ | .fetchTable .. | .finishRefresh | .beginTxn | .call .. | .endTxn _ =>
    .isTrue trivial

end Nodes

def OnlyTables (e : LsmEngine) : Prop := e.view.memtable.rows = [] ∧ e.view.immutable = none

theorem OnlyTables.readAt_eq {e : LsmEngine} (h : OnlyTables e) (k : Bytes) (s : ℕ) :
    e.readAt k s = tablesAt e.view.sstables k s := by
  rw [LsmEngine.readAt, readAt_eq_readLayers, layers, h.1, h.2]
  rfl

structure Loaded (writer : Sys) (held : List SSTable) (behind : List Update) (f : Refreshing)
    (tables : List SSTable) : Prop where
  ids : ∀ m, f.reads.atLoad.manifest = some m → m.sstableIds.Perm (tables.map SSTable.id)
  nodup : (tables.map SSTable.id).Nodup
  by_id : ∀ l : List SSTable, l.Pairwise (fun a b => a.id < b.id) → (∀ t, t ∈ l ↔ t ∈ tables) →
    ∀ k s, tablesAt l k s = tablesAt tables k s
  listed : ∀ t ∈ tables, Listed writer t
  fetched : ∀ t ∈ tables, ∀ u,
    openFromStore (f.reads.atFetch t.id) t.id (f.reads.fetch t.id) = .ok u → u = t
  same : ∀ t ∈ tables, ∀ u ∈ held, u.id = t.id → u = t
  current : Agree f.since writer.tables tables
  earlier : ∃ earlier, behind = f.since ++ earlier ∧ Agree earlier tables held

theorem Loaded.mem_refreshed {e e' : LsmEngine} (h : Loaded writer e.view.sstables behind f tables)
    (hm : f.reads.Loads m) (happ : Applied e m f.reads e') (t : SSTable) :
    t ∈ e'.view.sstables ↔ t ∈ tables := by
  have hids : ∀ id, id ∈ m.sstableIds ↔ id ∈ tables.map SSTable.id :=
    fun id => (h.ids m hm.2).mem_iff
  have hsub : ∀ u ∈ e'.view.sstables, u ∈ tables := by
    intro u hu
    rcases (happ.tables u).mp hu with ⟨hheld, hid⟩ | ⟨id, hid, _, hopen⟩
    · obtain ⟨w, hw, hid⟩ := mem_map.mp ((hids _).mp hid)
      rw [h.same w hw u hheld hid.symm]
      exact hw
    · obtain ⟨w, hw, rfl⟩ := mem_map.mp ((hids _).mp hid)
      rw [h.fetched w hw u hopen]
      exact hw
  refine ⟨hsub t, fun ht => ?_⟩
  have hid : t.id ∈ e'.view.sstables.map SSTable.id :=
    (happ.ids _).mpr ((hids _).mpr (mem_map_of_mem ht))
  obtain ⟨u, hu, hid⟩ := mem_map.mp hid
  rw [← inj_on_of_nodup_map h.nodup (hsub u hu) ht hid]
  exact hu

/-- What holds in every steady run: the reader is behind the writer by the noted updates, and an
open transaction reads as it did when it began wherever the updates are harmless. -/
structure Serving (filter : BloomFilter) (r : Nodes) : Prop where
  live : Live filter r.writer
  ordered : Ordered r.writer
  only_tables : OnlyTables r.reader
  nodup : (r.reader.view.sstables.map SSTable.id).Nodup
  listed : ∀ t ∈ r.reader.view.sstables, Listed r.writer t
  current : Agree r.behind r.writer.tables r.reader.view.sstables
  loaded : ∀ f ∈ r.refreshing, ∃ tables, Loaded r.writer r.reader.view.sstables r.behind f tables
  noted : ∀ o ∈ r.txns, o.state.finished = false → ∀ u ∈ r.behind, u ∈ o.updates
  kept : ∀ o ∈ r.txns, o.state.finished = false → ∀ k,
    (∀ u ∈ o.updates, Harmless k o.state.snapshotSeq u) →
      r.reader.readAt k o.state.snapshotSeq = o.start.readAt k o.state.snapshotSeq

namespace Serving

variable {filter : BloomFilter} {r : Nodes}

theorem of_opened (hl : Live filter σ) (ho : Ordered σ) (hload : AllLoad σ.store fetch) :
    Serving filter ⟨σ, readerOn σ.store fetch, [], none, []⟩ := by
  have hfetch : ∀ id ∈ σ.store.manifestIds, fetch id = true := fun id hid => (hload id hid).1
  have hperm := loadTables_perm hl.placement hfetch
  refine ⟨hl, ho, ⟨rfl, rfl⟩, ?_, fun t ht => ?_, fun k s _ => ?_, by simp, by simp, by simp⟩
  · exact (hperm.map _).nodup_iff.mpr hl.placement.tables_nodup
  · exact .of_live hl.placement (hperm.mem_iff.mp ht)
  · exact (ho.tablesAt_by_id hl (loadTables_increasing hl.placement hfetch)
      (fun t => hperm.mem_iff) k s).symm

theorem initial (filter : BloomFilter) (path : String) : Serving filter (.initial path) :=
  of_opened (.initial_live) (.initial_ordered path)
    (by simp [AllLoad, Store.manifestIds, StorageLsmSystem.initial, Store.empty, Manifest.default])

variable (h : Serving filter r)

include h

theorem writer (he : CommitsInOrder r.writer e) : Serving filter (r.next filter (.writer e)) := by
  have hcrash := he.orderSafe.not_crash
  obtain ⟨hl, ho⟩ := ordered_step h.live h.ordered he.orderSafe
  have hagree := next_agree h.live h.ordered he
  refine ⟨hl, ho, h.only_tables, h.nodup, fun t ht => (h.listed t ht).next_step h.live hcrash,
    hagree.trans h.current, fun f' hf' => ?_, fun o' ho' hopen => ?_, fun o' ho' hopen k hall => ?_⟩
  · obtain ⟨f, hf, rfl⟩ := map_eq_some_iff.mp hf'
    obtain ⟨tables, hload⟩ := h.loaded f hf
    obtain ⟨earlier, hbehind, hearlier⟩ := hload.earlier
    refine ⟨tables, { hload with
      listed := fun t ht => (hload.listed t ht).next_step h.live hcrash
      current := hagree.trans hload.current
      earlier := ⟨earlier, ?_, hearlier⟩ }⟩
    change _ ++ r.behind = _
    rw [hbehind, append_assoc]
  · obtain ⟨o, ho, rfl⟩ := mem_map.mp ho'
    intro u hu
    rcases mem_append.mp hu with hu | hu
    · exact mem_append_left _ hu
    · exact mem_append_right _ (h.noted o ho hopen u hu)
  · obtain ⟨o, ho, rfl⟩ := mem_map.mp ho'
    exact h.kept o ho hopen k (forall_mem_append.mp hall).2

theorem loadManifest (io : Bool) : Serving filter (r.next filter (.loadManifest io)) := by
  refine { h with loaded := fun f hf => ⟨r.writer.tables, ?_⟩ }
  obtain rfl := Option.some.inj hf
  exact {
    ids := by
      intro m hm
      have hids := h.live.placement.manifest_ids
      rw [Store.manifestIds, hm] at hids
      exact hids
    nodup := h.live.placement.tables_nodup
    by_id := fun l hinc hmem => h.ordered.tablesAt_by_id h.live hinc hmem
    listed := fun t ht => .of_live h.live.placement ht
    fetched := by
      intro t _ u hu
      cases hu
    same := fun t ht u hu hid => ((h.listed u hu).same t ht hid.symm).symm
    current := fun _ _ _ => rfl
    earlier := ⟨r.behind, rfl, h.current⟩ }

theorem fetchTable (id : ℕ) (io : Bool) : Serving filter (r.next filter (.fetchTable id io)) := by
  refine { h with loaded := fun f' hf' => ?_ }
  obtain ⟨f, hf, rfl⟩ := map_eq_some_iff.mp hf'
  obtain ⟨tables, hload⟩ := h.loaded f hf
  refine ⟨tables, { hload with fetched := fun t ht u hu => ?_ }⟩
  dsimp only at hu
  by_cases hid : t.id = id
  · subst hid
    rw [update_self, update_self] at hu
    exact (hload.listed t ht).openFromStore_eq hu
  · rw [update_of_ne hid, update_of_ne hid] at hu
    exact hload.fetched t ht u hu

/-- Whether it goes through or not, a refresh changes no read of an open transaction that the
updates leave alone. -/
theorem finishRefresh : Serving filter (r.next filter .finishRefresh) := by
  simp only [Nodes.next]
  cases hf : r.refreshing with
  | none => exact h
  | some f =>
    dsimp only
    obtain ⟨tables, hload⟩ := h.loaded f hf
    by_cases happ : ∃ m, Applies r.reader f.reads m
    · obtain ⟨m, happ⟩ := happ
      have happlied := (refresh_applied happ).2
      have hchanged : (refresh r.reader f.reads).1.ws.manifestEtag ≠ r.reader.ws.manifestEtag := by
        rw [happlied.etag]
        exact happ.2.1.symm
      have hmem := hload.mem_refreshed happ.1 happlied
      have hnodup := nodup_refresh h.nodup fun m' hm' =>
        (hload.ids m' hm'.2).nodup_iff.mpr hload.nodup
      have hinc : (refresh r.reader f.reads).1.view.sstables.Pairwise fun a b => a.id < b.id :=
        (happlied.sorted.and (pairwise_map.mp hnodup)).imp fun hab => lt_of_le_of_ne hab.1 hab.2
      have hanswers := hload.by_id _ hinc hmem
      have honly : OnlyTables (refresh r.reader f.reads).1 :=
        ⟨by rw [happlied.memtable]; exact h.only_tables.1,
          by rw [happlied.immutable]; exact h.only_tables.2⟩
      obtain ⟨earlier, hbehind, hearlier⟩ := hload.earlier
      simp only [if_neg hchanged]
      refine ⟨h.live, h.ordered, honly, hnodup, fun t ht => hload.listed t ((hmem t).mp ht),
        fun k s hall => ?_, by simp, fun o ho hopen u hu => ?_, fun o ho hopen k hall => ?_⟩
      · rw [hanswers k s]
        exact hload.current k s hall
      · refine h.noted o ho hopen u ?_
        rw [hbehind]
        exact mem_append_left _ hu
      · have hharmless : ∀ u ∈ earlier, Harmless k o.state.snapshotSeq u := by
          intro u hu
          refine hall u (h.noted o ho hopen u ?_)
          rw [hbehind]
          exact mem_append_right _ hu
        rw [honly.readAt_eq, hanswers, hearlier k _ hharmless, ← h.only_tables.readAt_eq]
        exact h.kept o ho hopen k hall
    · rw [(refresh_unchanged (not_exists.mp happ)).1, if_pos rfl]
      exact { h with loaded := by simp }

theorem of_txns (hview : reader.view = r.reader.view)
    (htxns : ∀ o ∈ txns, o.state.finished = false →
      (o.start = r.reader.view ∧ o.updates = r.behind) ∨
      ∃ o' ∈ r.txns, o'.state.finished = false ∧ o'.state.snapshotSeq = o.state.snapshotSeq ∧
        o'.start = o.start ∧ o'.updates = o.updates) :
    Serving filter { r with reader := reader, txns := txns } := by
  have hread : ∀ k s, reader.readAt k s = r.reader.readAt k s := by
    intro k s
    rw [LsmEngine.readAt, hview, LsmEngine.readAt]
  refine ⟨h.live, h.ordered, ?_, ?_, ?_, ?_, ?_, fun o ho hopen u hu => ?_,
    fun o ho hopen k hall => ?_⟩
  · exact ⟨by rw [hview]; exact h.only_tables.1, by rw [hview]; exact h.only_tables.2⟩
  · rw [hview]; exact h.nodup
  · rw [hview]; exact h.listed
  · rw [hview]; exact h.current
  · rw [hview]; exact h.loaded
  · rcases htxns o ho hopen with ⟨_, hupdates⟩ | ⟨o', ho', hopen', _, _, hupdates⟩
    · rw [hupdates]
      exact hu
    · rw [← hupdates]
      exact h.noted o' ho' hopen' u hu
  · rw [hread]
    rcases htxns o ho hopen with ⟨hstart, _⟩ | ⟨o', ho', hopen', hseq, hstart, hupdates⟩
    · rw [hstart]
      rfl
    · rw [← hseq, ← hstart]
      rw [← hseq, ← hupdates] at hall
      exact h.kept o' ho' hopen' k hall

omit h in
theorem view_release (id : ℕ) : (r.release id).view = r.reader.view := by
  unfold Nodes.release LsmEngine.releaseSnapshot
  split
  · split <;> rfl
  · rfl

theorem step {e : NodeEvent} (he : r.Steady e) : Serving filter (r.next filter e) := by
  have htxn : ∀ {id : ℕ} {f : TransactionState → TransactionState} {o : ReaderTxn},
      o ∈ r.onTxn id f → ∃ o' ∈ r.txns, o'.start = o.start ∧ o'.updates = o.updates ∧
        (o.state = o'.state ∨ o.state = f o'.state) := by
    intro id f o ho
    obtain ⟨o', ho', rfl⟩ := mem_map.mp ho
    refine ⟨o', ho', ?_⟩
    split_ifs
    · exact ⟨rfl, rfl, .inr rfl⟩
    · exact ⟨rfl, rfl, .inl rfl⟩
  cases e with
  | writer e => exact h.writer he
  | openReader fetch => exact of_opened h.live h.ordered he
  | loadManifest io => exact h.loadManifest io
  | fetchTable id io => exact h.fetchTable id io
  | finishRefresh => exact h.finishRefresh
  | beginTxn =>
    refine h.of_txns rfl fun o ho hopen => ?_
    rcases mem_append.mp ho with ho | ho
    · exact .inr ⟨o, ho, hopen, rfl, rfl, rfl⟩
    · rw [mem_singleton.mp ho]
      exact .inl ⟨rfl, rfl⟩
  | call id c =>
    refine h.of_txns rfl fun o ho hopen => .inr ?_
    obtain ⟨o', ho', hstart, hupdates, hstate | hstate⟩ := htxn ho
    · exact ⟨o', ho', hstate ▸ hopen, by rw [hstate], hstart, hupdates⟩
    · obtain ⟨hseq, hfinished⟩ := call_keeps o'.state c
      rw [hstate] at hopen
      exact ⟨o', ho', hfinished.symm.trans hopen, by rw [hstate, hseq], hstart, hupdates⟩
  | endTxn id =>
    refine h.of_txns (view_release id) fun o ho hopen => .inr ?_
    obtain ⟨o', ho', hstart, hupdates, hstate | hstate⟩ := htxn ho
    · exact ⟨o', ho', hstate ▸ hopen, by rw [hstate], hstart, hupdates⟩
    · rw [hstate] at hopen
      cases hopen

end Serving

/-- In every steady run, every open transaction on the reader and every key that it has not
staged: if no flush that the reader had not applied when the transaction began, or that was
committed since, has brought a version of the key at or below the snapshot, and no such
compaction has collapsed a version of it above the snapshot, then a read returns what it
returned when the transaction began. -/
theorem reader_txn_keeps_snapshot (filter : BloomFilter) (path : String) (events : List NodeEvent)
    (h : Along (Nodes.next filter) Nodes.Steady (.initial path) events) :
    let r := run (Nodes.next filter) (.initial path) events
    ∀ o ∈ r.txns, o.state.finished = false → ∀ table key,
      o.state.staged.get? (makeKey table key) = none →
      (∀ u ∈ o.updates, Harmless (makeKey table key) o.state.snapshotSeq u) →
      txnRead r.reader.readAt (some o.state.txn) table key =
        txnRead o.start.readAt (some (TransactionState.new o.state.id o.state.snapshotSeq).txn)
          table key := by
  intro r o ho hopen table key hstaged hharmless
  have hserving : Serving filter r :=
    h.invariant (fun _ _ hr he => hr.step he) (.initial filter path)
  have hread := hserving.kept o ho hopen (makeKey table key) hharmless
  simp only [txnRead, TransactionState.txn, bind_some, hstaged]
  exact hread

def putT (key value : Bytes) : NodeEvent := .writer (put (makeKey [116] key) value)

def refreshPhases (ids : List ℕ) : List NodeEvent :=
  [.loadManifest true] ++ ids.map (.fetchTable · true) ++ [.finishRefresh]

/-- Two rows are flushed before the reader opens. While its transaction is open the writer
compacts the two tables, overwrites a row and flushes it, and the reader refreshes. -/
def overwriteUnderTxn : List NodeEvent :=
  [putT [97] [1]] ++ flushPhases.map .writer ++ [putT [98] [2]] ++ flushPhases.map .writer ++
    [.openReader fun _ => true, .beginTxn, .call 0 (.write [116] [98] [7])] ++
    compactPhases.map .writer ++ [putT [97] [3]] ++ flushPhases.map .writer ++ refreshPhases [3, 4]

theorem txn_reads_old_row_after_refresh :
    let r := run (Nodes.next exactFilter) (.initial "wal.log") overwriteUnderTxn
    r.reader.view.sstables.map SSTable.id = [3, 4] ∧ r.txns.length = 1 ∧
      ∀ o ∈ r.txns, txnRead r.reader.readAt (some o.state.txn) [116] [97] = some [1] := by
  intro r
  have hread := reader_txn_keeps_snapshot exactFilter "wal.log" overwriteUnderTxn (by decide)
  have hopen : ∀ o ∈ r.txns, o.state.finished = false := by decide
  have hstaged : ∀ o ∈ r.txns, o.state.staged.get? (makeKey [116] [97]) = none := by decide
  have hharmless : ∀ o ∈ r.txns, ∀ u ∈ o.updates,
      Harmless (makeKey [116] [97]) o.state.snapshotSeq u := by decide
  have hstart : ∀ o ∈ r.txns, txnRead o.start.readAt
      (some (TransactionState.new o.state.id o.state.snapshotSeq).txn) [116] [97] = some [1] := by
    decide
  refine ⟨by decide, by decide, fun o ho => ?_⟩
  rw [hread o ho (hopen o ho) [116] [97] (hstaged o ho) (hharmless o ho)]
  exact hstart o ho

/-- In the first run the writer overwrites the row and compacts: its watermark leaves the reader's
snapshot out, and the row is gone. In the second run the manifest that the reader has begun on
counts a row that was written during the flush; the next flush brings it in. -/
theorem refresh_changes_row_of_open_txn :
    let reads (r : Nodes) := r.txns.map fun o =>
      txnRead r.reader.readAt (some o.state.txn) [116] [97]
    let r := run (Nodes.next exactFilter) (.initial "wal.log")
      ([putT [97] [1]] ++ flushPhases.map .writer ++ [.openReader fun _ => true, .beginTxn])
    let r' := run (Nodes.next exactFilter) r ([putT [97] [2]] ++ flushPhases.map .writer ++
      compactPhases.map .writer ++ refreshPhases [3])
    let t := run (Nodes.next exactFilter) (.initial "wal.log")
      ([putT [97] [1], .writer (.beginFlush heldLease), putT [97] [2],
        .writer (.finishFlush 0 true), .writer (.commitFlush 0 heldLease .allOk 4),
        .openReader fun _ => true, .beginTxn])
    let t' := run (Nodes.next exactFilter) t (flushPhases.map .writer ++ refreshPhases [2])
    reads r = [some [1]] ∧ reads r' = [none] ∧ reads t = [some [1]] ∧ reads t' = [some [2]] := by
  decide

end DatabaseReaderTxns
