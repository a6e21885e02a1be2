import Keystone.StorageLease
import Keystone.StorageLsmInvariant

/-! # Several nodes on one store

Every node runs an engine and a lease manager of its own; they share the tables, the manifest and
the lease object. -/
namespace StorageCluster

open Function GuardedRuns List
open StorageMemTable StorageManifest StorageLsmEngine
open StorageLsmSystem StorageLsmSteps StorageLsmInvariant StorageLease
open LsmEngine (reconcile openEngine)

def pendingIds (σ : Sys) : List ℕ := flushIds σ ++ compactIds σ

/-- The engine stands on the manifest that is current, and `listed` are the ids of all
manifests so far: what it has in flight is new, and whatever it commits leaves the largest
id of all in the manifest. -/
structure Issues (listed : List ℕ) (σ : Sys) : Prop where
  nodup : (pendingIds σ).Nodup
  pending_lt : ∀ id ∈ pendingIds σ, id < σ.nextId
  unlisted : ∀ id ∈ pendingIds σ, id ∉ listed
  listed_lt : ∀ id ∈ listed, id < σ.nextId
  tables : ∀ t ∈ σ.tables, t.id ∈ listed
  captured_lt : ∀ c ∈ σ.compactions, ∀ t ∈ c.1.sstables, t.id < c.1.newId
  flush_built : ∀ f ∈ σ.flushes, ∀ t ∈ f.2, t.id = f.1.sstableId
  compact_built : ∀ c ∈ σ.compactions, ∀ t ∈ c.2, t.id = c.1.newId
  top : (∃ t ∈ σ.tables, ∀ id ∈ listed, id ≤ t.id) ∨
    ∀ id ∈ pendingIds σ, ∀ x ∈ listed, x < id

def Keyed (store : Store) : Prop := ∀ id t, store.sst id = some t → t.id = id

namespace Issues

variable {filter : BloomFilter} {listed : List ℕ} {σ σ' : Sys}

theorem of_sublist (h : Issues listed σ) (hid : σ'.nextId = σ.nextId)
    (htables : σ'.tables = σ.tables) (hpending : (pendingIds σ').Sublist (pendingIds σ))
    (hcaptured : ∀ c ∈ σ'.compactions, ∃ x ∈ σ.compactions, x.1 = c.1)
    (hflush : ∀ f ∈ σ'.flushes, ∀ t ∈ f.2, t.id = f.1.sstableId)
    (hcompact : ∀ c ∈ σ'.compactions, ∀ t ∈ c.2, t.id = c.1.newId) : Issues listed σ' where
  nodup := h.nodup.sublist hpending
  pending_lt := fun id hi => hid ▸ h.pending_lt id (hpending.subset hi)
  unlisted := fun id hi => h.unlisted id (hpending.subset hi)
  listed_lt := hid ▸ h.listed_lt
  tables := htables ▸ h.tables
  captured_lt := by
    intro c hc t ht
    obtain ⟨x, hx, hxc⟩ := hcaptured c hc
    rw [← hxc] at ht ⊢
    exact h.captured_lt x hx t ht
  flush_built := hflush
  compact_built := hcompact
  top := by
    rw [htables]
    exact h.top.imp_right fun hall id hi => hall id (hpending.subset hi)

theorem issue (h : Issues listed σ) (hid : σ'.nextId = σ.nextId + 1)
    (htables : σ'.tables = σ.tables) (hpending : (pendingIds σ').Perm (σ.nextId :: pendingIds σ))
    (hcaptured : ∀ c ∈ σ'.compactions, c ∈ σ.compactions ∨
      (c.1.newId = σ.nextId ∧ ∀ t ∈ c.1.sstables, t ∈ σ.tables))
    (hflush : ∀ f ∈ σ'.flushes, f ∈ σ.flushes ∨ f.2 = none)
    (hcompact : ∀ c ∈ σ'.compactions, c ∈ σ.compactions ∨ c.2 = none) : Issues listed σ' := by
  have hcases : ∀ id ∈ pendingIds σ', id = σ.nextId ∨ id ∈ pendingIds σ :=
    fun id hi => mem_cons.mp (hpending.mem_iff.mp hi)
  refine ⟨?_, ?_, ?_, ?_, htables ▸ h.tables, ?_, ?_, ?_, ?_⟩
  · refine hpending.nodup_iff.mpr (nodup_cons.mpr ⟨fun hi => ?_, h.nodup⟩)
    exact lt_irrefl _ (h.pending_lt _ hi)
  · intro id hi
    rw [hid]
    rcases hcases id hi with rfl | hi
    · exact Nat.lt_succ_self _
    · exact Nat.lt_succ_of_lt (h.pending_lt id hi)
  · intro id hi hl
    rcases hcases id hi with rfl | hi
    · exact lt_irrefl _ (h.listed_lt _ hl)
    · exact h.unlisted id hi hl
  · intro id hl
    rw [hid]
    exact Nat.lt_succ_of_lt (h.listed_lt id hl)
  · intro c hc t ht
    rcases hcaptured c hc with hc | ⟨hnew, hsub⟩
    · exact h.captured_lt c hc t ht
    · rw [hnew]
      exact h.listed_lt _ (h.tables t (hsub t ht))
  · intro f hf t ht
    rcases hflush f hf with hf | hnone
    · exact h.flush_built f hf t ht
    · rw [hnone] at ht
      cases ht
  · intro c hc t ht
    rcases hcompact c hc with hc | hnone
    · exact h.compact_built c hc t ht
    · rw [hnone] at ht
      cases ht
  · rw [htables]
    refine h.top.imp_right fun hall id hi x hx => ?_
    rcases hcases id hi with rfl | hi
    · exact h.listed_lt x hx
    · exact hall id hi x hx

/-- A task is committed: its id joins the listed ones. The largest id stays listed, since a
captured table is older than the one that replaces it. -/
theorem save (h : Issues listed σ) (hids : ids = σ'.tables.map SSTable.id) (hn : n ∈ pendingIds σ)
    (hnew : ∃ t ∈ σ'.tables, t.id = n)
    (htables : ∀ t ∈ σ'.tables, t.id = n ∨ t ∈ σ.tables)
      (hkeeps : ∀ t ∈ σ.tables, t ∈ σ'.tables ∨ t.id < n)
    (hpending : (pendingIds σ').Sublist (pendingIds σ)) (hgone : n ∉ pendingIds σ')
    (hid : σ'.nextId = σ.nextId) (hflushes : ∀ f ∈ σ'.flushes, f ∈ σ.flushes)
    (hcompactions : ∀ c ∈ σ'.compactions, c ∈ σ.compactions) :
    (∃ id ∈ ids, id ∉ listed) ∧ (∀ id ∈ ids ++ listed, ∃ x ∈ ids, id ≤ x) ∧
      Issues (ids ++ listed) σ' := by
  obtain ⟨new, hnewMem, hnewId⟩ := hnew
  have hmem t (ht : t ∈ σ'.tables) : t.id ∈ ids := hids ▸ mem_map_of_mem ht
  have hcases : ∀ id ∈ ids ++ listed, id = n ∨ id ∈ listed := by
    intro id hi
    rcases mem_append.mp hi with hi | hi
    · obtain ⟨t, ht, rfl⟩ := mem_map.mp (hids ▸ hi)
      exact (htables t ht).imp_right (h.tables t)
    · exact .inr hi
  have htop : ∃ t ∈ σ'.tables, ∀ id ∈ ids ++ listed, id ≤ t.id := by
    have habove : (∀ x ∈ listed, x < n) → ∃ t ∈ σ'.tables, ∀ id ∈ ids ++ listed, id ≤ t.id := by
      intro hall
      refine ⟨new, hnewMem, fun id hi => ?_⟩
      rw [hnewId]
      rcases hcases id hi with rfl | hi
      · exact le_rfl
      · exact le_of_lt (hall id hi)
    rcases h.top with ⟨t, ht, hmax⟩ | hall
    · rcases lt_or_ge t.id n with hlt | hge
      · exact habove fun x hx => lt_of_le_of_lt (hmax x hx) hlt
      · refine ⟨t, (hkeeps t ht).resolve_right (not_lt.mpr hge), fun id hi => ?_⟩
        rcases hcases id hi with rfl | hi
        · exact hge
        · exact hmax id hi
    · exact habove (hall n hn)
  refine ⟨⟨n, hnewId ▸ hmem new hnewMem, h.unlisted n hn⟩, fun id hi => ?_, ?_⟩
  · obtain ⟨t, ht, hmax⟩ := htop
    exact ⟨t.id, hmem t ht, hmax id hi⟩
  · refine {
      nodup := h.nodup.sublist hpending
      pending_lt := fun id hi => hid ▸ h.pending_lt id (hpending.subset hi)
      unlisted := fun id hi hl => ?_
      listed_lt := fun id hl => ?_
      tables := fun t ht => mem_append_left _ (hmem t ht)
      captured_lt := fun c hc => h.captured_lt c (hcompactions c hc)
      flush_built := fun f hf => h.flush_built f (hflushes f hf)
      compact_built := fun c hc => h.compact_built c (hcompactions c hc)
      top := .inl htop }
    · rcases hcases id hl with rfl | hl
      · exact hgone hi
      · exact h.unlisted id (hpending.subset hi) hl
    · rw [hid]
      rcases hcases id hl with rfl | hl
      · exact h.pending_lt _ hn
      · exact h.listed_lt id hl

end Issues

def isSave : Op → Bool
  | .publish .. => true
  | .replace .. => true
  | _ => false

structure Unsaved (σ σ' : Sys) : Prop where
  manifest : σ'.store.manifest = σ.store.manifest
  etag : σ'.engine.ws.manifestEtag = σ.engine.ws.manifestEtag
  keyed : Keyed σ.store → Keyed σ'.store
  issues : ∀ listed, Issues listed σ → Issues listed σ'

structure SavedBy (lease : LeaseHandle) (σ σ' : Sys) (m : Manifest) : Prop where
  matched : σ.engine.ws.manifestEtag = σ.store.manifest
  manifest : σ'.store.manifest = some m
  etag : σ'.engine.ws.manifestEtag = some m
  token : m.writerFencingToken = lease.token
  keyed : Keyed σ.store → Keyed σ'.store
  issues : ∀ listed, Issues listed σ → (∃ id ∈ m.sstableIds, id ∉ listed) ∧
    (∀ id ∈ m.sstableIds ++ listed, ∃ x ∈ m.sstableIds, id ≤ x) ∧
    Issues (m.sstableIds ++ listed) σ'

namespace Unsaved

variable {filter : BloomFilter} {σ σ' τ : Sys}

theorem refl (σ : Sys) : Unsaved σ σ := ⟨rfl, rfl, id, fun _ h => h⟩

theorem trans (h : Unsaved σ σ') (h' : Unsaved σ' τ) : Unsaved σ τ :=
  ⟨h'.manifest.trans h.manifest, h'.etag.trans h.etag, h'.keyed ∘ h.keyed,
    fun listed hi => h'.issues listed (h.issues listed hi)⟩

end Unsaved

variable {store : Store}

theorem keyed_putSst (h : Keyed store) : Keyed (store.putSst t) := by
  intro id u hu
  by_cases hid : id = t.id
  · rw [hid, Store.sst_putSst_self] at hu
    rw [hid, Option.some.inj hu]
  · rw [Store.sst_putSst_of_ne store hid] at hu
    exact h id u hu

theorem keyed_deleteSsts (h : Keyed store) : Keyed (store.deleteSsts ids) := by
  intro id t ht
  by_cases hid : id ∈ ids
  · simp [Store.deleteSsts, hid] at ht
  · rw [Store.sst_deleteSsts_of_notMem store hid] at ht
    exact h id t ht

section Ops

variable (filter : BloomFilter) {σ : Sys}

theorem mem_set_cases {l : List α} {i : ℕ} (h : x ∈ l.set i a) :
    x ∈ l ∨ x = a := mem_or_eq_of_mem_set h

theorem unsaved_freeze : Unsaved σ (apply filter σ .freeze) := by
  refine ⟨rfl, rfl, id, fun listed h => ?_⟩
  by_cases hemp : σ.mem.toEntries.entries.isEmpty = true
  · refine h.of_sublist ?_ rfl ?_ ?_ ?_ ?_
    · simp [apply, hemp]
    · simp [pendingIds, flushIds, compactIds, apply, hemp]
    · exact fun c hc => ⟨c, hc, rfl⟩
    · simpa [apply, hemp] using h.flush_built
    · exact h.compact_built
  · refine h.issue ?_ rfl ?_ ?_ ?_ ?_
    · simp [apply, hemp]
    · simp only [pendingIds, flushIds, apply, hemp, map_append, append_assoc,
        Bool.false_eq_true, if_false]
      exact perm_middle
    · exact fun c hc => .inl hc
    · simp only [apply, hemp, mem_append, mem_singleton, Bool.false_eq_true, if_false]
      rintro f (hf | rfl)
      · exact .inl hf
      · exact .inr rfl
    · exact fun c hc => .inl hc

theorem unsaved_capture : Unsaved σ (apply filter σ .capture) := by
  refine ⟨rfl, rfl, id, fun listed h => h.issue rfl rfl ?_ ?_ ?_ ?_⟩
  · simp only [pendingIds, compactIds, apply, map_append, ← append_assoc]
    exact perm_append_singleton _ _
  · simp only [apply, mem_append, mem_singleton]
    rintro c (hc | rfl)
    · exact .inl hc
    · exact .inr ⟨rfl, fun t ht => ht⟩
  · exact fun f hf => .inl hf
  · simp only [apply, mem_append, mem_singleton]
    rintro c (hc | rfl)
    · exact .inl hc
    · exact .inr rfl

variable {task : ℕ} {p : PendingFlush}

theorem unsaved_uploadFlush (he : σ.flushes[task]? = some (p, none)) :
    Unsaved σ (apply filter σ (.uploadFlush task p)) := by
  refine ⟨rfl, rfl, fun h => keyed_putSst h, fun listed h => h.of_sublist rfl rfl ?_ ?_ ?_ ?_⟩
  · have hids : flushIds (apply filter σ (.uploadFlush task p)) = flushIds σ := map_set_of_eq he rfl
    rw [pendingIds, hids]
    exact List.Sublist.refl _
  · exact fun c hc => ⟨c, hc, rfl⟩
  · intro f hf t ht
    rcases mem_set_cases hf with hf | rfl
    · exact h.flush_built f hf t ht
    · rw [← Option.some.inj ht]
      rfl
  · exact h.compact_built

theorem unsaved_uploadCompact {p : PendingCompaction} (he : σ.compactions[task]? = some (p, none)) :
    Unsaved σ (apply filter σ (.uploadCompact task p)) := by
  refine ⟨rfl, rfl, fun h => keyed_putSst h, fun listed h => h.of_sublist rfl rfl ?_ ?_ ?_ ?_⟩
  · have hids : compactIds (apply filter σ (.uploadCompact task p)) = compactIds σ :=
      map_set_of_eq he rfl
    rw [pendingIds, hids]
    exact List.Sublist.refl _
  · intro c hc
    rcases mem_set_cases hc with hc | rfl
    · exact ⟨c, hc, rfl⟩
    · exact ⟨_, mem_of_getElem? he, rfl⟩
  · exact h.flush_built
  · intro c hc t ht
    rcases mem_set_cases hc with hc | rfl
    · exact h.compact_built c hc t ht
    · rw [← Option.some.inj ht]
      rfl

theorem unsaved_dropFlush : Unsaved σ (apply filter σ (.dropFlush task)) := by
  have hsub := eraseIdx_sublist σ.flushes task
  refine ⟨rfl, rfl, id, fun listed h => h.of_sublist rfl rfl ?_ ?_ ?_ ?_⟩
  · exact (hsub.map _).append_right _
  · exact fun c hc => ⟨c, hc, rfl⟩
  · exact fun f hf => h.flush_built f (hsub.subset hf)
  · exact h.compact_built

theorem unsaved_dropCompact : Unsaved σ (apply filter σ (.dropCompact task)) := by
  have hsub := eraseIdx_sublist σ.compactions task
  refine ⟨rfl, rfl, id, fun listed h => h.of_sublist rfl rfl ?_ ?_ ?_ ?_⟩
  · exact (hsub.map _).append_left _
  · exact fun c hc => ⟨c, hsub.subset hc, rfl⟩
  · exact h.flush_built
  · exact fun c hc => h.compact_built c (hsub.subset hc)

theorem unsaved_op (he : Enabled σ op) (hop : isSave op = false) :
    Unsaved σ (apply filter σ op) := by
  cases op with
  | publish | replace => cases hop
  | freeze => exact unsaved_freeze filter
  | capture => exact unsaved_capture filter
  | uploadFlush task p => exact unsaved_uploadFlush filter he
  | uploadCompact task p => exact unsaved_uploadCompact filter he
  | dropFlush task => exact unsaved_dropFlush filter
  | dropCompact task => exact unsaved_dropCompact filter
  | shipSegment =>
    refine ⟨manifest_shipSegment, rfl, fun h => ?_, fun _ h => { h with }⟩
    simp only [apply]
    split_ifs
    · exact h
    · exact h
  | _ => exact ⟨rfl, rfl, id, fun _ h => { h with }⟩

theorem unsaved_run (he : Along (apply filter) Enabled σ ops)
    (hops : ∀ op ∈ ops, isSave op = false := by simp [isSave]) :
    Unsaved σ (run (apply filter) σ ops) := by
  induction ops generalizing σ with
  | nil => exact .refl σ
  | cons op ops ih =>
    exact (unsaved_op filter he.1 (hops op mem_cons_self)).trans
      (ih he.2 fun x hx => hops x (.tail _ hx))

theorem not_mem_eraseIdx {l : List ℕ} (hl : l.Nodup) (hi : l[i]? = some a) : a ∉ l.eraseIdx i := by
  obtain ⟨h, rfl⟩ := List.getElem?_eq_some_iff.mp hi
  have hperm := getElem_cons_eraseIdx_perm h
  exact (nodup_cons.mp (hperm.nodup_iff.mpr hl)).1

variable {lease : LeaseHandle}

theorem saved_publish {t : SSTable} (he : Enabled σ (.publish task p t lease)) :
    SavedBy lease σ (apply filter σ (.publish task p t lease)) (flushManifest σ p lease) := by
  obtain ⟨htask, hetag⟩ := he
  refine ⟨hetag, rfl, rfl, rfl, id, fun listed h => ?_⟩
  have hid : t.id = p.sstableId := h.flush_built _ (mem_of_getElem? htask) t rfl
  set σ' := apply filter σ (.publish task p t lease)
  have hids : (flushManifest σ p lease).sstableIds = σ'.tables.map SSTable.id := by
    simp [σ', flushManifest, apply, Sys.tables, hid]
  have hmem : p.sstableId ∈ flushIds σ := Placement.mem_flushIds htask
  have hpending : pendingIds σ' = (flushIds σ).eraseIdx task ++ compactIds σ := by
    simp [σ', pendingIds, flushIds, compactIds, apply, eraseIdx_map]
  have hnodup := nodup_append.mp h.nodup
  refine h.save hids (mem_append_left _ hmem) ⟨t, by simp [σ', apply, Sys.tables],
    hid⟩ ?_ ?_ ?_ ?_ rfl ?_ ?_
  · intro u hu
    rcases mem_append.mp hu with hu | hu
    · exact .inr hu
    · rw [mem_singleton.mp hu]
      exact .inl hid
  · exact fun u hu => .inl (mem_append_left _ hu)
  · rw [hpending]
    exact (eraseIdx_sublist ..).append_right _
  · rw [hpending, mem_append, not_or]
    refine ⟨not_mem_eraseIdx hnodup.1 ?_, fun hc => hnodup.2.2 _ hmem _ hc rfl⟩
    rw [flushIds, List.getElem?_map, htask]
    rfl
  · exact fun f hf => (eraseIdx_sublist ..).subset hf
  · exact fun c hc => hc

theorem saved_replace {p : PendingCompaction}
    (he : Enabled σ (.replace task p merged lease deleted)) :
    SavedBy lease σ (apply filter σ (.replace task p merged lease deleted))
      (compactManifest σ p merged lease) := by
  obtain ⟨htask, hetag⟩ := he
  refine ⟨hetag, rfl, rfl, rfl, fun h => keyed_deleteSsts h, fun listed h => ?_⟩
  have hid : merged.id = p.newId := h.compact_built _ (mem_of_getElem? htask) merged rfl
  have hmem : p.newId ∈ compactIds σ := Placement.mem_compactIds htask
  have hpending : pendingIds (apply filter σ (.replace task p merged lease deleted)) =
      flushIds σ ++ (compactIds σ).eraseIdx task := by
    simp [pendingIds, flushIds, compactIds, apply, eraseIdx_map]
  have hnodup := nodup_append.mp h.nodup
  refine h.save rfl (mem_append_right _ hmem)
    ⟨merged, mem_append_right _ (mem_singleton.mpr rfl), hid⟩ ?_ ?_ ?_ ?_ rfl ?_ ?_
  · intro u hu
    rcases mem_append.mp hu with hu | hu
    · exact .inr (mem_filter.mp hu).1
    · rw [mem_singleton.mp hu]
      exact .inl hid
  · intro u hu
    by_cases hcap : u.id ∈ p.sstables.map SSTable.id
    · obtain ⟨x, hx, hxu⟩ := mem_map.mp hcap
      rw [← hxu]
      exact .inr (h.captured_lt _ (mem_of_getElem? htask) x hx)
    · exact .inl (mem_append_left _ (mem_filter.mpr ⟨hu, by simpa using hcap⟩))
  · rw [hpending]
    exact (eraseIdx_sublist ..).append_left _
  · rw [hpending, mem_append, not_or]
    refine ⟨fun hf => hnodup.2.2 _ hf _ hmem rfl, not_mem_eraseIdx hnodup.2.1 ?_⟩
    rw [compactIds, List.getElem?_map, htask]
    rfl
  · exact fun f hf => hf
  · exact fun c hc => (eraseIdx_sublist ..).subset hc

theorem SavedBy.prepend (h : SavedBy lease σ' τ m) (h' : Unsaved σ σ') : SavedBy lease σ τ m where
  matched := h'.etag.symm.trans (h.matched.trans h'.manifest)
  manifest := h.manifest
  etag := h.etag
  token := h.token
  keyed := h.keyed ∘ h'.keyed
  issues := fun listed hi => h.issues listed (h'.issues listed hi)

theorem SavedBy.append (h : SavedBy lease σ σ' m) (h' : Unsaved σ' τ) : SavedBy lease σ τ m where
  matched := h.matched
  manifest := h'.manifest.trans h.manifest
  etag := h'.etag.trans h.etag
  token := h.token
  keyed := h'.keyed ∘ h.keyed
  issues := fun listed hi => by
    obtain ⟨hfresh, htop, hissues⟩ := h.issues listed hi
    exact ⟨hfresh, htop, h'.issues _ hissues⟩

theorem saved_flush
    (he : Along (apply filter) Enabled σ (.shipSegment :: .publish task p t lease :: rest))
    (hrest : ∀ op ∈ rest, isSave op = false := by simp [isSave]) :
    SavedBy lease σ (run (apply filter) σ (.shipSegment :: .publish task p t lease :: rest))
      (flushManifest (apply filter σ .shipSegment) p lease) := by
  obtain ⟨hship, hpublish, hlast⟩ := he
  exact ((saved_publish filter hpublish).prepend (unsaved_op filter hship rfl)).append
    (unsaved_run filter hlast hrest)

end Ops

def commitLease : Event → Option LeaseHandle
  | .commitFlush _ lease _ _ => some lease
  | .commitCompact _ lease _ _ => some lease
  | _ => none

/-- Every engine step leaves the manifest alone, or is a commit that found the manifest as
the engine last knew it. -/
theorem next_effect (filter : BloomFilter) (he : Event.isCrash e = false) :
    Unsaved σ (next filter σ e) ∨
      ∃ lease m, commitLease e = some lease ∧ SavedBy lease σ (next filter σ e) m := by
  obtain ⟨ops, hdoes, hnext⟩ := next_does filter σ he
  have henabled := does_enabled filter hdoes
  rw [hnext]
  cases hdoes with
  | flushed task lease | flushedAndCaptured task lease =>
    exact .inr ⟨lease, _, rfl, saved_flush filter henabled⟩
  | compacted task lease saveManifest deleted p merged h hetag =>
    exact .inr ⟨lease, _, rfl, saved_replace filter henabled.1⟩
  | _ => exact .inl (unsaved_run filter henabled)

/-- One process: its engine with the tasks in flight, and its lease manager. `shown` are the
values its lease handle has had since it started; a commit may carry any of them, since it
reads the handle some time before its update reaches the store. `loaded` counts the manifest
updates that had gone through when it last loaded or wrote the manifest. -/
structure Node where
  engine : LsmEngine
  flushes : List (PendingFlush × Option SSTable)
  compactions : List (PendingCompaction × Option SSTable)
  manager : LeaseManager
  shown : List LeaseHandle
  loaded : ℕ

/-- A manifest update that went through, with the tokens that had been granted by then. -/
structure Save where
  manifest : Manifest
  granted : List ℕ
  deriving DecidableEq

structure Cluster (N : Type) where
  node : N → Node
  store : Store
  lease : Option Lease
  granted : List ℕ
  saves : List Save

inductive ClusterEvent (N : Type) where
  | acquireGet (i : N) (now : ℕ) (io : Bool)
  | acquirePut (i : N) (now : ℕ) (io : Bool)
  | renew (i : N) (now : ℕ) (io : Bool)
  | engine (i : N) (e : Event)
  | restart (i : N) (fetch : ℕ → Bool)

def leasesOf : Event → List LeaseHandle
  | .writeBatch _ lease _ => [lease]
  | .beginFlush lease => [lease]
  | .commitFlush _ lease _ _ => [lease]
  | .beginCompact lease => [lease]
  | .commitCompact _ lease _ _ => [lease]
  | _ => []

namespace Cluster

variable {N : Type} [DecidableEq N]

def sys (c : Cluster N) (i : N) : Sys :=
  ⟨(c.node i).engine, c.store, (c.node i).flushes, (c.node i).compactions, [], []⟩

def setNode (c : Cluster N) (i : N) (n : Node) : Cluster N :=
  { c with node := Function.update c.node i n }

def setManager (c : Cluster N) (i : N) (m : LeaseManager) : Cluster N :=
  c.setNode i { c.node i with manager := m, shown := m.handle :: (c.node i).shown }

/-- The manifest updates after a step that left `manifest` behind. An update lists an id that
no manifest has listed before, so each one shows as a change. -/
def savesAfter (c : Cluster N) (manifest : Option Manifest) : List Save :=
  match manifest with
  | some m => if some m = c.store.manifest then c.saves else ⟨m, c.granted⟩ :: c.saves
  | none => c.saves

omit [DecidableEq N] in
theorem savesAfter_same (c : Cluster N) : c.savesAfter c.store.manifest = c.saves := by
  unfold savesAfter
  cases c.store.manifest <;> simp

omit [DecidableEq N] in
theorem savesAfter_new (c : Cluster N) (h : some m ≠ c.store.manifest) :
    c.savesAfter (some m) = ⟨m, c.granted⟩ :: c.saves :=
  if_neg h

def engineStep (filter : BloomFilter) (c : Cluster N) (i : N) (e : Event) : Cluster N :=
  let σ := StorageLsmSystem.next filter (c.sys i) e
  let saves := c.savesAfter σ.store.manifest
  { c.setNode i { c.node i with
      engine := σ.engine
      flushes := σ.flushes
      compactions := σ.compactions
      loaded := if saves = c.saves then (c.node i).loaded else saves.length } with
    store := σ.store
    saves := saves }

/-- A new process: it loads the manifest and starts without a lease. -/
def restart (c : Cluster N) (i : N) (fetch : ℕ → Bool) : Cluster N :=
  match openEngine (c.node i).engine.ws.wal c.store fetch with
  | .error _ => c
  | .ok engine =>
    let manager := LeaseManager.new (c.node i).manager.holderId (c.node i).manager.ttlMs
    c.setNode i ⟨engine, [], [], manager, [manager.handle], c.saves.length⟩

def next (filter : BloomFilter) (c : Cluster N) : ClusterEvent N → Cluster N
  | .acquireGet i now io => c.setManager i ((c.node i).manager.acquireGet c.lease now io).1
  | .acquirePut i now io =>
    let (manager, lease, result) := (c.node i).manager.acquirePut c.lease now io
    { c.setManager i manager with
      lease := lease
      granted := match result with
        | some (.ok token) => token :: c.granted
        | _ => c.granted }
  | .renew i now io =>
    let (manager, lease, _) := (c.node i).manager.renew c.lease now io
    { c.setManager i manager with lease := lease }
  | .engine i e =>
    if Event.isCrash e = false ∧ ∀ lease ∈ leasesOf e, lease ∈ (c.node i).shown then
      c.engineStep filter i e
    else c
  | .restart i fetch => c.restart i fetch

def initial (holderId path : N → String) (ttlMs : N → ℕ) : Cluster N where
  node i := ⟨freshEngine (path i), [], [], .new (holderId i) (ttlMs i), [⟨0, false⟩], 0⟩
  store := .empty
  lease := none
  granted := []
  saves := []

end Cluster

def manifestAt (manifests : List Manifest) (n : ℕ) : Option Manifest :=
  (manifests.drop (manifests.length - n)).head?

theorem manifestAt_length : manifestAt manifests manifests.length = manifests.head? := by
  simp [manifestAt]

theorem manifestAt_cons (hn : n ≤ manifests.length) :
    manifestAt (m :: manifests) n = manifestAt manifests n := by
  have hlen : (m :: manifests).length - n = manifests.length - n + 1 := by
    rw [length_cons]
    omega
  rw [manifestAt, hlen, drop_succ_cons, manifestAt]

/-- Among manifests that are all different, only the newest one looks like the newest one. -/
theorem eq_length_of_manifestAt (hd : manifests.Nodup) (hn : n ≤ manifests.length)
    (h : manifestAt manifests n = manifests.head?) :
    n = manifests.length := by
  by_contra hne
  obtain ⟨k, hk⟩ : ∃ k, manifests.length - n = k + 1 := ⟨manifests.length - n - 1, by omega⟩
  cases manifests with
  | nil => simp at hk
  | cons m rest =>
    rw [manifestAt, hk, drop_succ_cons, List.head?_cons] at h
    have hmem : m ∈ rest := mem_of_mem_drop (mem_of_head? h)
    exact (nodup_cons.mp hd).1 hmem

namespace Cluster

variable {N : Type}

def manifests (c : Cluster N) : List Manifest := c.saves.map Save.manifest

def listed (c : Cluster N) : List ℕ := c.saves.flatMap fun s => s.manifest.sstableIds

/-- No two manifests are the same; every node knows one of them, and the nodes that know the
newest one have ids in flight that none of them lists. -/
structure Consistent (c : Cluster N) : Prop where
  head : c.store.manifest = c.manifests.head?
  distinct : c.manifests.Nodup
  top : ∀ id ∈ c.listed, ∃ x ∈ c.store.manifestIds, id ≤ x
  keyed : Keyed c.store
  loaded_le : ∀ i, (c.node i).loaded ≤ c.saves.length
  etag : ∀ i, (c.node i).engine.ws.manifestEtag = manifestAt c.manifests (c.node i).loaded
  issues : ∀ i, (c.node i).loaded = c.saves.length → Issues c.listed (c.sys i)

namespace Consistent

variable {c c' : Cluster N} {i : N} (h : Consistent c)

include h

theorem loaded_eq (hi : (c.node i).engine.ws.manifestEtag = c.store.manifest) :
    (c.node i).loaded = c.saves.length := by
  have hlen : c.manifests.length = c.saves.length := length_map _
  rw [h.etag i, h.head] at hi
  rw [← hlen]
  exact eq_length_of_manifestAt h.distinct (hlen ▸ h.loaded_le i) hi

theorem mem_listed {id : ℕ} (hid : id ∈ c.store.manifestIds) : id ∈ c.listed := by
  rw [Store.manifestIds, h.head] at hid
  cases hm : c.saves with
  | nil => simp [manifests, hm, Manifest.default] at hid
  | cons s rest =>
    simp only [manifests, hm] at hid
    rw [listed, hm, flatMap_cons]
    exact mem_append_left _ hid

theorem of_same (hstore : c'.store = c.store) (hsaves : c'.saves = c.saves)
    (hnode : ∀ j, (c'.node j).engine = (c.node j).engine ∧
      (c'.node j).flushes = (c.node j).flushes ∧
      (c'.node j).compactions = (c.node j).compactions ∧ (c'.node j).loaded = (c.node j).loaded) :
    Consistent c' := by
  have hsys : ∀ j, c'.sys j = c.sys j := by
    intro j
    obtain ⟨he, hf, hc, _⟩ := hnode j
    simp [sys, he, hf, hc, hstore]
  have hmanifests : c'.manifests = c.manifests := by rw [manifests, hsaves, manifests]
  have hlisted : c'.listed = c.listed := by rw [listed, hsaves, listed]
  constructor
  · rw [hstore, hmanifests]; exact h.head
  · rw [hmanifests]; exact h.distinct
  · rw [hstore, hlisted]; exact h.top
  · rw [hstore]; exact h.keyed
  · intro j
    rw [(hnode j).2.2.2, hsaves]
    exact h.loaded_le j
  · intro j
    rw [(hnode j).1, (hnode j).2.2.2, hmanifests]
    exact h.etag j
  · intro j
    rw [(hnode j).2.2.2, hsaves, hlisted, hsys]
    exact h.issues j

omit h in
theorem initial (holderId path : N → String) (ttlMs : N → ℕ) :
    Consistent (Cluster.initial holderId path ttlMs) where
  head := rfl
  distinct := .nil
  top := by simp [listed, Cluster.initial]
  keyed := by simp [Keyed, Cluster.initial, Store.empty]
  loaded_le := fun _ => le_rfl
  etag := fun _ => rfl
  issues := by
    intro i _
    constructor <;>
      simp [pendingIds, flushIds, compactIds, listed, Cluster.initial, sys, Sys.tables, freshEngine]

variable [DecidableEq N]

theorem set_unsaved (hmanifest : store.manifest = c.store.manifest) (hkeyed : Keyed store)
    (hle : n.loaded ≤ c.saves.length) (hetag : n.engine.ws.manifestEtag =
      manifestAt c.manifests n.loaded)
    (hissues : n.loaded = c.saves.length →
      Issues c.listed ⟨n.engine, store, n.flushes, n.compactions, [], []⟩) :
    Consistent { c.setNode i n with store := store } := by
  refine ⟨hmanifest.trans h.head, h.distinct, ?_, hkeyed, ?_, ?_, ?_⟩
  · intro id hid
    rw [manifestIds_eq hmanifest]
    exact h.top id hid
  · exact (forall_update_iff c.node (p := fun _ x => x.loaded ≤ c.saves.length)).mpr
      ⟨hle, fun j _ => h.loaded_le j⟩
  · exact (forall_update_iff c.node
      (p := fun _ x => x.engine.ws.manifestEtag = manifestAt c.manifests x.loaded)).mpr
      ⟨hetag, fun j _ => h.etag j⟩
  · exact (forall_update_iff c.node (p := fun _ x => x.loaded = c.saves.length →
      Issues c.listed ⟨x.engine, store, x.flushes, x.compactions, [], []⟩)).mpr
      ⟨hissues, fun j _ hload => { h.issues j hload with }⟩

theorem set_saved {granted : List ℕ} (hmanifest : store.manifest = some m)
    (hkeyed : Keyed store) (hetag : n.engine.ws.manifestEtag = some m)
    (hloaded : n.loaded = c.saves.length + 1) (hfresh : ∃ id ∈ m.sstableIds, id ∉ c.listed)
    (htop : ∀ id ∈ m.sstableIds ++ c.listed, ∃ x ∈ m.sstableIds, id ≤ x)
    (hissues : Issues (m.sstableIds ++ c.listed)
      ⟨n.engine, store, n.flushes, n.compactions, [], []⟩) :
    Consistent { c.setNode i n with store := store, saves := ⟨m, granted⟩ :: c.saves } := by
  have hlen : c.manifests.length = c.saves.length := length_map _
  have hnew : m ∉ c.manifests := by
    intro hm
    obtain ⟨id, hid, hnot⟩ := hfresh
    obtain ⟨s, hs, rfl⟩ := mem_map.mp hm
    exact hnot (mem_flatMap.mpr ⟨s, hs, hid⟩)
  refine ⟨hmanifest, nodup_cons.mpr ⟨hnew, h.distinct⟩, ?_, hkeyed, ?_, ?_, ?_⟩
  · intro id hid
    have hids : store.manifestIds = m.sstableIds := by rw [Store.manifestIds, hmanifest]; rfl
    rw [hids]
    exact htop id hid
  · refine (forall_update_iff c.node
      (p := fun _ x => x.loaded ≤ c.saves.length + 1)).mpr ⟨le_of_eq hloaded, fun j _ => ?_⟩
    exact Nat.le_succ_of_le (h.loaded_le j)
  · refine (forall_update_iff c.node (p := fun _ x => x.engine.ws.manifestEtag =
      manifestAt (m :: c.manifests) x.loaded)).mpr ⟨?_, fun j _ => ?_⟩
    · have hlast : manifestAt (m :: c.manifests) (c.manifests.length + 1) = some m :=
        manifestAt_length
      rw [hetag, hloaded, ← hlen, hlast]
    · rw [manifestAt_cons (hlen ▸ h.loaded_le j)]
      exact h.etag j
  · refine (forall_update_iff c.node (p := fun _ x => x.loaded = c.saves.length + 1 →
      Issues (m.sstableIds ++ c.listed) ⟨x.engine, store, x.flushes, x.compactions, [], []⟩)).mpr
      ⟨fun _ => hissues, fun j _ hload => ?_⟩
    exact absurd (h.loaded_le j) (by omega)

variable (filter : BloomFilter)

theorem set_manager (i : N) (m : LeaseManager) : Consistent (c.setManager i m) := by
  refine h.of_same rfl rfl ?_
  exact (forall_update_iff c.node (p := fun j x => x.engine = (c.node j).engine ∧
    x.flushes = (c.node j).flushes ∧ x.compactions = (c.node j).compactions ∧
    x.loaded = (c.node j).loaded)).mpr ⟨⟨rfl, rfl, rfl, rfl⟩, fun _ _ => ⟨rfl, rfl, rfl, rfl⟩⟩

theorem engineStep_cases (i : N) (he : Event.isCrash e = false) :
    Consistent (c.engineStep filter i e) ∧
      ((c.engineStep filter i e).saves = c.saves ∨
        ∃ lease m, commitLease e = some lease ∧ m.writerFencingToken = lease.token ∧
          (c.node i).loaded = c.saves.length ∧
          (c.engineStep filter i e).saves = ⟨m, c.granted⟩ :: c.saves) := by
  have heffect := next_effect (σ := c.sys i) filter he
  set σ := StorageLsmSystem.next filter (c.sys i) e with hσ
  rcases heffect with hun | ⟨lease, m, hlease, hsaved⟩
  · have hsaves : c.savesAfter σ.store.manifest = c.saves := by
      rw [hun.manifest]
      exact c.savesAfter_same
    have hstep : c.engineStep filter i e = { c.setNode i { c.node i with
        engine := σ.engine
        flushes := σ.flushes
        compactions := σ.compactions } with
        store := σ.store } := by
      simp only [engineStep, ← hσ, hsaves]
      rfl
    rw [hstep]
    refine ⟨h.set_unsaved hun.manifest (hun.keyed h.keyed) (h.loaded_le i)
      (hun.etag.trans (h.etag i)) fun hload => ?_, .inl rfl⟩
    exact { hun.issues _ (h.issues i hload) with }
  · have hload := h.loaded_eq hsaved.matched
    obtain ⟨hfresh, htop, hissues⟩ := hsaved.issues _ (h.issues i hload)
    have hchanged : some m ≠ c.store.manifest := by
      intro hm
      obtain ⟨id, hid, hnot⟩ := hfresh
      refine hnot (h.mem_listed ?_)
      rw [Store.manifestIds, ← hm]
      exact hid
    have hsaves : c.savesAfter σ.store.manifest =
        ⟨m, c.granted⟩ :: c.saves := by
      rw [hsaved.manifest, c.savesAfter_new hchanged]
    have hstep : c.engineStep filter i e = { c.setNode i { c.node i with
        engine := σ.engine
        flushes := σ.flushes
        compactions := σ.compactions
        loaded := c.saves.length + 1 } with
        store := σ.store
        saves := ⟨m, c.granted⟩ :: c.saves } := by
      simp [engineStep, ← hσ, hsaves]
    rw [hstep]
    exact ⟨h.set_saved hsaved.manifest (hsaved.keyed h.keyed) hsaved.etag rfl hfresh htop
      { hissues with }, .inr ⟨lease, m, hlease, hsaved.token, hload, rfl⟩⟩

theorem restart (i : N) (fetch : ℕ → Bool) : Consistent (c.restart i fetch) := by
  unfold Cluster.restart
  split
  · exact h
  · rename_i engine hopen
    have hopened := LsmEngine.openEngine_ok hopen
    have hlen : c.manifests.length = c.saves.length := length_map _
    refine h.set_unsaved rfl h.keyed le_rfl ?_ fun _ => ?_
    · rw [← hlen, manifestAt_length, hopened.etag]
      exact h.head
    · refine ⟨.nil, by simp [pendingIds, flushIds, compactIds],
        by simp [pendingIds, flushIds, compactIds], fun id hid => ?_, fun t ht => ?_, by simp,
        by simp, by simp, .inr (by simp [pendingIds, flushIds, compactIds])⟩
      · obtain ⟨x, hx, hle⟩ := h.top id hid
        exact lt_of_le_of_lt hle (hopened.ids_lt x hx)
      · rw [Sys.tables, hopened.tables_eq] at ht
        obtain ⟨id, hid, _, u, _, rfl⟩ := LsmEngine.mem_loadTables.mp ht
        exact h.mem_listed hid

theorem next (e : ClusterEvent N) : Consistent (c.next filter e) := by
  cases e with
  | acquireGet i now io => exact h.set_manager i _
  | acquirePut i now io | renew i now io =>
    exact (h.set_manager i _).of_same rfl rfl fun _ => ⟨rfl, rfl, rfl, rfl⟩
  | engine i e =>
    simp only [Cluster.next]
    split_ifs with hstep
    · exact (h.engineStep_cases filter i hstep.1).1
    · exact h
  | restart i fetch => exact h.restart i fetch

end Consistent

def Fenced (c : Cluster N) : Prop :=
  ∀ s ∈ c.saves, ∀ t ∈ s.granted, t ≤ s.manifest.writerFencingToken

instance (c : Cluster N) : Decidable c.Fenced := by
  unfold Fenced
  infer_instance

/-- A commit with a token below one that has been granted comes only after another node has
updated the manifest since this node last loaded or wrote it. -/
def Overtaken (c : Cluster N) : ClusterEvent N → Prop
  | .engine i e => ∀ lease ∈ commitLease e, (∃ t ∈ c.granted, lease.token < t) →
      (c.node i).loaded < c.saves.length
  | _ => True

instance (c : Cluster N) : (e : ClusterEvent N) → Decidable (c.Overtaken e)
  | .engine i e => by unfold Overtaken; infer_instance
  | .acquireGet .. => .isTrue trivial
  | .acquirePut .. => .isTrue trivial
  | .renew .. => .isTrue trivial
  | .restart .. => .isTrue trivial

variable [DecidableEq N] {filter : BloomFilter} {c : Cluster N}

theorem saves_restart (i : N) (fetch : ℕ → Bool) : (c.restart i fetch).saves = c.saves := by
  unfold restart
  split <;> rfl

theorem fenced_step (h : Consistent c) (hf : c.Fenced) (he : c.Overtaken e) :
    (c.next filter e).Fenced := by
  cases e with
  | acquireGet i now io | acquirePut i now io | renew i now io => exact hf
  | restart i fetch =>
    unfold Fenced
    rw [next, saves_restart]
    exact hf
  | engine i e =>
    simp only [next]
    split_ifs with hstep
    · obtain ⟨_, hsaves | ⟨lease, m, hlease, htoken, hload, hsaves⟩⟩ :=
        h.engineStep_cases filter i hstep.1
      · unfold Fenced
        rw [hsaves]
        exact hf
      · unfold Fenced
        rw [hsaves]
        refine forall_mem_cons.mpr ⟨fun t ht => ?_, hf⟩
        by_contra hlt
        have := he lease hlease ⟨t, ht, by rw [← htoken]; exact not_le.mp hlt⟩
        exact absurd hload (ne_of_lt this)
    · exact hf

end Cluster

/-- In every run in which a commit with an outdated token comes only after another node has
updated the manifest, no update with an outdated token goes through. -/
theorem fencing_holds_once_overtaken {N : Type} [DecidableEq N] (filter : BloomFilter)
    (holderId path : N → String) (ttlMs : N → ℕ) (events : List (ClusterEvent N))
    (h : Along (Cluster.next filter) Cluster.Overtaken (Cluster.initial holderId path ttlMs)
      events) :
    (run (Cluster.next filter) (Cluster.initial holderId path ttlMs) events).Fenced := by
  have hinv := h.invariant (I := fun c => c.Consistent ∧ c.Fenced)
    (fun c e hc he => ⟨hc.1.next filter e, Cluster.fenced_step hc.1 hc.2 he⟩)
    ⟨.initial holderId path ttlMs, by simp [Cluster.Fenced, Cluster.initial]⟩
  exact hinv.2

/-- Two nodes, the first of which takes the lease and prepares a flush before it pauses; the
second one takes the lease over after it has expired. -/
def takeover : List (ClusterEvent Bool) :=
  [.acquireGet false 0 true, .acquirePut false 0 true,
    .engine false (.writeBatch (putRow [97] [1]) ⟨1, true⟩ .ok),
    .engine false (.beginFlush ⟨1, true⟩), .engine false (.finishFlush 0 true),
    .acquireGet true 100 true, .acquirePut true 100 true]

def twoNodes : Cluster Bool :=
  .initial (fun i => if i then "b" else "a") (fun _ => "wal.log") fun _ => 10

/-- The new holder flushes first, and the old one is refused. -/
theorem late_flush_of_old_holder_refused : (run (Cluster.next exactFilter) twoNodes (takeover ++
      [.engine true (.writeBatch (putRow [98] [2]) ⟨2, true⟩ .ok),
        .engine true (.beginFlush ⟨2, true⟩), .engine true (.finishFlush 0 true),
        .engine true (.commitFlush 0 ⟨2, true⟩ .allOk 4),
        .engine false (.commitFlush 0 ⟨1, true⟩ .allOk 4)])).Fenced :=
  fencing_holds_once_overtaken exactFilter _ _ _ _ (by decide)

/-- The old holder commits its flush before the new one has written the manifest. -/
theorem old_holder_advances_manifest :
    let c := run (Cluster.next exactFilter) twoNodes
      (takeover ++ [.engine false (.commitFlush 0 ⟨1, true⟩ .allOk 4)])
    c.granted = [2, 1] ∧ c.saves = [⟨⟨[1], 1, 1, 1⟩, [2, 1]⟩] ∧
      c.store.manifest = some ⟨[1], 1, 1, 1⟩ ∧ ¬ c.Fenced := by
  decide

end StorageCluster
