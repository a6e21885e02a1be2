import Keystone.StorageCluster

/-! # The tables of an engine and the manifest it knows

`open` skips a table that it cannot load and remembers the manifest all the same. The next manifest
is built from the tables in the view, and the remembered ETag lets it through: what `open` has
skipped is lost for good with the first commit. -/
namespace StorageLsmOpen

open GuardedRuns List StorageLsmEngine StorageManifest StorageMemTable StorageWal LsmEngine
open StorageLsmSystem StorageLsmSteps StorageLsmInvariant
open LsmEngine (openEngine loadTables reconcile insertRow)
open StorageCluster (isSave unsaved_run)

/-- `open` with a manifest request that may fail as well: it comes after the replay of the log
and before the tables. -/
def openWithManifest (wal : Wal) (store : Store) (manifestIo : Bool) (fetch : ℕ → Bool) :
    Except StorageError LsmEngine :=
  match wal.reopen.replay with
  | .error err => .error err
  | .ok _ =>
    match store.loadManifest manifestIo with
    | .error err => .error err
    | .ok _ => openEngine wal store fetch

theorem openWithManifest_cases : (∃ err, openWithManifest wal store manifestIo fetch = .error err) ∨
      ∃ e, openWithManifest wal store manifestIo fetch = .ok e ∧
        openEngine wal store fetch = .ok e := by
  unfold openWithManifest
  cases wal.reopen.replay with
  | error err => exact .inl ⟨err, rfl⟩
  | ok replayed =>
    cases manifestIo with
    | false => exact .inl ⟨_, rfl⟩
    | true =>
      cases hopen : openEngine wal store fetch with
      | error err => exact .inl ⟨err, by simp [Store.loadManifest]⟩
      | ok e => exact .inr ⟨e, by simp [Store.loadManifest], rfl⟩

def AllLoad (store : Store) (fetch : ℕ → Bool) : Prop :=
  ∀ id ∈ store.manifestIds, fetch id = true ∧ (store.sst id).isSome = true

instance (store : Store) (fetch : ℕ → Bool) : Decidable (AllLoad store fetch) :=
  inferInstanceAs (Decidable (∀ id ∈ store.manifestIds, _))

def InStep (e : LsmEngine) : Prop :=
  ∀ id, id ∈ e.view.sstables.map SSTable.id ↔ id ∈ (e.ws.manifestEtag.getD .default).sstableIds

theorem mem_loadTables_ids {fetch : ℕ → Bool} {id : ℕ} :
    id ∈ (loadTables store fetch).map SSTable.id ↔
      id ∈ store.manifestIds ∧ fetch id = true ∧ (store.sst id).isSome = true := by
  simp only [mem_map, mem_loadTables, Option.isSome_iff_exists]
  constructor
  · rintro ⟨t, ⟨i, hi, hfetch, u, hu, rfl⟩, rfl⟩
    exact ⟨hi, hfetch, u, hu⟩
  · rintro ⟨hi, hfetch, u, hu⟩
    exact ⟨_, ⟨id, hi, hfetch, u, hu, rfl⟩, rfl⟩

section Opened

variable {wal : Wal} {store : Store} {fetch : ℕ → Bool} {e : LsmEngine}

theorem listed_iff_allLoad (h : LsmEngine.Opened wal store fetch e) :
    (∀ id ∈ store.manifestIds, id ∈ e.view.sstables.map SSTable.id) ↔ AllLoad store fetch := by
  simp only [h.tables_eq, mem_loadTables_ids]
  exact ⟨fun hall id hid => (hall id hid).2, fun hall id hid => ⟨hid, hall id hid⟩⟩

theorem inStep_iff_allLoad (h : LsmEngine.Opened wal store fetch e) :
    InStep e ↔ AllLoad store fetch := by
  rw [← listed_iff_allLoad h]
  unfold InStep
  rw [h.etag]
  refine ⟨fun hin id hid => (hin id).mpr hid, fun hall id => ⟨fun hid => ?_, hall id⟩⟩
  rw [h.tables_eq] at hid
  exact (mem_loadTables_ids.mp hid).1

end Opened

inductive SharedEvent where
  | own (e : Event)
  | foreign (store : Store)

def nextShared (filter : BloomFilter) (σ : Sys) : SharedEvent → Sys
  | .own e => next filter σ e
  | .foreign store => { σ with store := store }

def RestartsLoad (σ : Sys) : SharedEvent → Prop
  | .own (.crashOpen fetch) => AllLoad σ.store fetch
  | _ => True

def consumedIds (σ : Sys) : Event → List ℕ
  | .commitCompact task _ _ _ =>
    match σ.compactions[task]? with
    | some (p, some _) => p.sstables.map SSTable.id
    | _ => []
  | _ => []

/-- A step of the engine keeps every listed id in the manifest, up to those that a compaction
has consumed. -/
def KeepsListed (filter : BloomFilter) (σ : Sys) : SharedEvent → Prop
  | .own e => ∀ id ∈ σ.store.manifestIds,
      id ∈ (next filter σ e).store.manifestIds ∨ id ∈ consumedIds σ e
  | .foreign _ => True

structure Tracks (σ : Sys) : Prop where
  inStep : InStep σ.engine
  built : ∀ f ∈ σ.flushes, ∀ t ∈ f.2, t.id = f.1.sstableId

namespace Tracks

variable {filter : BloomFilter} {σ : Sys}

theorem apply_op (h : Tracks σ) (he : Enabled σ op) : Tracks (apply filter σ op) := by
  cases op with
  | publish task p t lease =>
    have hid : t.id = p.sstableId := h.built _ (mem_of_getElem? he.1) t rfl
    refine ⟨fun id => ?_, fun f hf => h.built f ((eraseIdx_sublist ..).subset hf)⟩
    simp [apply, flushManifest, hid]
  | replace task p merged lease deleted => exact ⟨fun id => Iff.rfl, h.built⟩
  | freeze =>
    exact ⟨h.inStep, forall_mem_freeze h.built (by simp)⟩
  | uploadFlush task p =>
    refine ⟨h.inStep, forall_mem_set h.built fun t ht => ?_⟩
    rw [← Option.some.inj ht]
    rfl
  | dropFlush task =>
    exact ⟨h.inStep, fun f hf => h.built f ((eraseIdx_sublist ..).subset hf)⟩
  | _ => exact ⟨h.inStep, h.built⟩

theorem crash (h : Tracks σ) (hload : AllLoad σ.store fetch) : Tracks (σ.crashOpen fetch) := by
  unfold Sys.crashOpen
  split
  next e hopen =>
    exact ⟨(inStep_iff_allLoad (openEngine_ok hopen)).mpr hload, by simp⟩
  next => exact h

theorem step (h : Tracks σ) (he : RestartsLoad σ e) : Tracks (nextShared filter σ e) := by
  cases e with
  | foreign store => exact ⟨h.inStep, h.built⟩
  | own e =>
    by_cases hc : Event.isCrash e = true
    · cases e with
      | crashOpen fetch => exact h.crash he
      | _ => cases hc
    · exact next_invariant (fun τ op hτ hop => hτ.apply_op hop) (by simpa using hc) h

/-- The manifest before a commit that goes through is the one the engine is in step with, and
the new one is built from the view. -/
theorem keeps (h : Tracks σ) (e : SharedEvent) : KeepsListed filter σ e := by
  cases e with
  | foreign store => trivial
  | own e =>
    intro id hid
    by_cases hc : Event.isCrash e = true
    · cases e with
      | crashOpen fetch =>
        refine .inl ?_
        simp only [StorageLsmSystem.next, Sys.crashOpen]
        split <;> exact hid
      | _ => cases hc
    obtain ⟨ops, hdoes, hnext⟩ := next_does filter σ (by simpa using hc)
    have henabled := does_enabled filter hdoes
    have hview : σ.engine.ws.manifestEtag = σ.store.manifest → id ∈ σ.tables.map SSTable.id := by
      intro hetag
      refine (h.inStep id).mpr ?_
      rw [hetag]
      exact hid
    rw [hnext]
    cases hdoes with
    | flushed task lease io threshold p t htask hetag
    | flushedAndCaptured task lease io threshold p t htask hetag =>
      exact .inl (mem_append_left _ (hview hetag))
    | compacted task lease saveManifest deleted p merged htask hetag =>
      by_cases hcap : id ∈ p.sstables.map SSTable.id
      · exact .inr (by simpa [consumedIds, htask] using hcap)
      · obtain ⟨t, ht, rfl⟩ := mem_map.mp (hview hetag)
        refine .inl (mem_map.mpr ⟨t, mem_append_left _ ?_, rfl⟩)
        exact mem_filter.mpr ⟨ht, by simpa using hcap⟩
    | _ =>
      refine .inl ?_
      rw [manifestIds_eq (unsaved_run filter henabled).manifest]
      exact hid

end Tracks

structure Skips (id : ℕ) (σ : Sys) : Prop where
  etag : σ.engine.ws.manifestEtag = σ.store.manifest
  listed : id ∈ σ.store.manifestIds
  missing : id ∉ σ.tables.map SSTable.id

namespace Skips

variable (filter : BloomFilter) {σ : Sys} {id : ℕ}

theorem commit (h : Skips id σ) (hp : σ.flushes[0]? = some (p, none)) (hid : id ≠ p.sstableId) :
    ¬ Along (nextShared filter) (KeepsListed filter) σ
      [.own (.finishFlush 0 true), .own (.commitFlush 0 heldLease .allOk 4)] := by
  rintro ⟨_, hkeeps, _⟩
  simp only [nextShared, finishFlush_ok filter σ hp] at hkeeps
  have hready : (apply filter σ (.uploadFlush 0 p)).flushes[0]? =
    some (p, some (flushTable filter p)) := by
    obtain ⟨hlt, _⟩ := List.getElem?_eq_some_iff.mp hp
    simp [apply, hlt]
  obtain ⟨tail, htail, hnext⟩ := commitFlush_ok filter (apply filter σ (.uploadFlush 0 p))
    heldLease 4 hready h.etag
  have hids : (next filter (apply filter σ (.uploadFlush 0 p))
      (.commitFlush 0 heldLease .allOk 4)).store.manifestIds =
        σ.tables.map SSTable.id ++ [p.sstableId] := by
    rw [hnext]
    rcases htail with rfl | rfl <;> rfl
  rcases hkeeps id h.listed with hmem | hmem
  · rw [hids, mem_append, mem_singleton] at hmem
    exact hmem.elim h.missing hid
  · cases hmem

theorem freeze (h : Skips id σ) (hlt : id < σ.nextId) (hf : σ.flushes = [])
    (hmem : σ.mem.toEntries.entries.isEmpty = false) :
    Skips id (apply filter σ .freeze) ∧
      ∃ p, (apply filter σ .freeze).flushes[0]? = some (p, none) ∧ id ≠ p.sstableId := by
  refine ⟨{ h with }, ⟨σ.mem.toEntries, σ.nextId⟩, ?_, ne_of_lt hlt⟩
  simp [apply, hmem, hf]

/-- Without a flush in flight, one write is enough to bring one about. -/
theorem begins (h : Skips id σ) (hlt : id < σ.nextId) (hf : σ.flushes = []) :
    ∃ events : List SharedEvent, Along (nextShared filter) RestartsLoad σ events ∧
      Skips id (run (nextShared filter) σ events) ∧
      ∃ p, (run (nextShared filter) σ events).flushes[0]? = some (p, none) ∧ id ≠ p.sstableId := by
  have hskips : Skips id (apply filter σ (.addRows (putRow [] []))) := { h with }
  have hmem : (apply filter σ (.addRows (putRow [] []))).mem.toEntries.entries.isEmpty = false :=
    isEmpty_eq_false_iff_exists_mem.mpr ⟨_, OrderedMaps.OrderedMap.mem_insert.mpr (.inl rfl)⟩
  rcases writeBatch_cases filter σ with
    ⟨_, hwrite⟩ | ⟨_, _, hwrite⟩ | ⟨_, hlease, _⟩
  · refine ⟨[.own (put [] []), .own (.beginFlush heldLease)], ⟨trivial, trivial, trivial⟩, ?_⟩
    have hfreeze : run (nextShared filter) σ [.own (put [] []), .own (.beginFlush heldLease)] =
        apply filter (next filter σ (put [] [])) .freeze :=
      beginFlush_ok filter (next filter σ (put [] [])) (rfl : heldLease.valid = true)
    rw [hfreeze, put, hwrite]
    refine freeze filter { hskips with } hlt hf hmem
  · refine ⟨[.own (put [] [])], ⟨trivial, trivial⟩, ?_⟩
    obtain ⟨hfrozen, hpending⟩ := hskips.freeze filter hlt hf hmem
    have hrun : run (nextShared filter) σ [.own (put [] [])] = next filter σ (put [] []) := rfl
    rw [hrun, put, hwrite]
    exact ⟨{ hfrozen with }, hpending⟩
  · cases hlease

end Skips

/-- `open` fails, or it returns an engine with every listed table exactly if all of them can be
loaded. And exactly then no commit drops a listed table that no compaction has consumed: in no
run of the engine in which restarts load all tables as well, whatever other nodes do to the
store. -/
theorem open_keeps_tables_iff_all_load (filter : BloomFilter) (wal : Wal) (store : Store)
    (manifestIo : Bool) (fetch : ℕ → Bool) :
    (∃ err, openWithManifest wal store manifestIo fetch = .error err) ∨
      ∃ e, openWithManifest wal store manifestIo fetch = .ok e ∧
        ((∀ id ∈ store.manifestIds, id ∈ e.view.sstables.map SSTable.id) ↔ AllLoad store fetch) ∧
        ((∀ events, Along (nextShared filter) RestartsLoad ⟨e, store, [], [], [], []⟩ events →
            Along (nextShared filter) (KeepsListed filter) ⟨e, store, [], [], [], []⟩ events) ↔
          AllLoad store fetch) := by
  rcases openWithManifest_cases with herr | ⟨e, hok, hopen⟩
  · exact .inl herr
  have hopened := openEngine_ok hopen
  refine .inr ⟨e, hok, listed_iff_allLoad hopened, fun hkeeps => ?_, fun hload events hevents => ?_⟩
  · rw [← listed_iff_allLoad hopened]
    intro id hid
    by_contra hmissing
    have hskips : Skips id ⟨e, store, [], [], [], []⟩ := ⟨hopened.etag, hid, hmissing⟩
    obtain ⟨events, hevents, hbegun, p, hp, hne⟩ :=
      hskips.begins filter (hopened.ids_lt id hid) rfl
    refine hbegun.commit filter hp hne (along_append.mp (hkeeps (events ++ _) ?_)).2
    exact along_append.mpr ⟨hevents, trivial, trivial, trivial⟩
  · have htracks : Tracks ⟨e, store, [], [], [], []⟩ :=
      ⟨(inStep_iff_allLoad hopened).mpr hload, by simp⟩
    exact hevents.of_invariant (fun _ _ h he => h.step he) (fun _ e h _ => h.keeps e) htracks

/-- One request fails while the node restarts: `open` returns without table 1, and the next flush
writes a manifest without it. -/
theorem skipped_table_lost_with_next_flush :
    let σ := run (next exactFilter) (initial "wal.log") ([put [97] [1]] ++ flushPhases)
    let τ := run (next exactFilter) σ ([.crashOpen fun _ => false, put [98] [2]] ++ flushPhases)
    σ.store.manifestIds = [1] ∧
      (openWithManifest σ.wal σ.store true fun _ => false).toOption.map
        (fun e => e.view.sstables.map SSTable.id) = some [] ∧
      τ.store.manifestIds = [2] ∧ τ.engine.read [97] = none := by
  decide

end StorageLsmOpen
