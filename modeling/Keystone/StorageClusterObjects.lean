import Keystone.StorageCluster
import Mathlib.Data.Fintype.Basic

/-! # Who wrote the tables of the manifest

Every node numbers its tables from the manifest it has loaded, and uploads them before it updates
the manifest. Two nodes can so give out the same id, and an upload overwrites what is there. -/
namespace StorageClusterObjects

open Function GuardedRuns List StorageLsmEngine StorageManifest StorageMemTable Store
open StorageLsmSystem StorageLsmSteps StorageLsmInvariant StorageCluster
open LsmEngine (reconcile openEngine)

/-- What an engine has in flight is in the store as it was uploaded, and its view and its
captured tables are no others than manifests have listed. -/
structure Stands (listed : List ℕ) (σ : Sys) : Prop where
  issues : Issues listed σ
  stored_flush : ∀ f ∈ σ.flushes, ∀ t ∈ f.2, σ.store.sst t.id = some t
  stored_compact : ∀ c ∈ σ.compactions, ∀ t ∈ c.2, σ.store.sst t.id = some t
  view_listed : ∀ t ∈ σ.tables, t.id ∈ σ.store.manifestIds
  captured_listed : ∀ c ∈ σ.compactions, ∀ t ∈ c.1.sstables, t.id ∈ listed

def uploadId (σ : Sys) : Event → Option ℕ
  | .finishFlush task true =>
    match σ.flushes[task]? with
    | some (p, none) => some p.sstableId
    | _ => none
  | .finishCompact task true =>
    match σ.compactions[task]? with
    | some (p, none) => some p.newId
    | _ => none
  | _ => none

def committedTable (σ : Sys) : Event → Option SSTable
  | .commitFlush task _ _ _ => σ.flushes[task]?.bind Prod.snd
  | .commitCompact task _ _ _ => σ.compactions[task]?.bind Prod.snd
  | _ => none

namespace Stands

variable {filter : BloomFilter} {listed : List ℕ} {σ : Sys} (h : Stands listed σ)

include h

theorem flush_ne_compact (hf : f ∈ σ.flushes) (hc : c ∈ σ.compactions) :
    f.1.sstableId ≠ c.1.newId :=
  (nodup_append.mp h.issues.nodup).2.2 _ (mem_map_of_mem hf) _
    (mem_map_of_mem hc)

theorem upload_flush (he : σ.flushes[task]? = some (p, none)) :
    Stands listed (apply filter σ (.uploadFlush task p)) := by
  have hissues := (unsaved_uploadFlush filter he).issues listed h.issues
  have hp := mem_of_getElem? he
  have hkeep : ∀ id, id ≠ p.sstableId → (apply filter σ (.uploadFlush task p)).store.sst id =
    σ.store.sst id :=
    fun id hid => sst_putSst_of_ne _ hid
  refine ⟨hissues, fun f hf t ht => ?_, fun c hc t ht => ?_, h.view_listed, h.captured_listed⟩
  · rcases mem_or_eq_of_mem_set hf with hf | rfl
    · rw [hkeep _ fun hid => ?_]
      · exact h.stored_flush f hf t ht
      · -- an earlier upload under the same id would be the same task
        rw [h.issues.flush_built f hf t ht] at hid
        have hsame : f = (p, none) := inj_on_of_nodup_map
          (nodup_append.mp h.issues.nodup).1 hf hp hid
        rw [hsame] at ht
        cases ht
    · rw [← Option.some.inj ht]
      exact sst_putSst_self _ _
  · rw [hkeep _ fun hid => ?_]
    · exact h.stored_compact c hc t ht
    · rw [h.issues.compact_built c hc t ht] at hid
      exact h.flush_ne_compact hp hc hid.symm

theorem upload_compact (he : σ.compactions[task]? = some (p, none)) :
    Stands listed (apply filter σ (.uploadCompact task p)) := by
  have hissues := (unsaved_uploadCompact filter he).issues listed h.issues
  have hp := mem_of_getElem? he
  have hkeep : ∀ id, id ≠ p.newId → (apply filter σ (.uploadCompact task p)).store.sst id =
    σ.store.sst id :=
    fun id hid => sst_putSst_of_ne _ hid
  refine ⟨hissues, fun f hf t ht => ?_, fun c hc t ht => ?_, h.view_listed, fun c hc => ?_⟩
  · rw [hkeep _ fun hid => ?_]
    · exact h.stored_flush f hf t ht
    · rw [h.issues.flush_built f hf t ht] at hid
      exact h.flush_ne_compact hf hp hid
  · rcases mem_or_eq_of_mem_set hc with hc | rfl
    · rw [hkeep _ fun hid => ?_]
      · exact h.stored_compact c hc t ht
      · rw [h.issues.compact_built c hc t ht] at hid
        have hsame : c = (p, none) := inj_on_of_nodup_map
          (nodup_append.mp h.issues.nodup).2.1 hc hp hid
        rw [hsame] at ht
        cases ht
    · rw [← Option.some.inj ht]
      exact sst_putSst_self _ _
  · rcases mem_or_eq_of_mem_set hc with hc | rfl
    · exact h.captured_listed c hc
    · exact h.captured_listed (p, none) hp

theorem unsaved_op (he : Enabled σ op) (hop : isSave op = false) :
    Stands listed (apply filter σ op) := by
  have hissues := (StorageCluster.unsaved_op filter he hop).issues listed h.issues
  cases op with
  | publish | replace => cases hop
  | uploadFlush task p => exact h.upload_flush he
  | uploadCompact task p => exact h.upload_compact he
  | freeze =>
    refine ⟨hissues, fun f hf t ht => ?_, h.stored_compact, h.view_listed, h.captured_listed⟩
    rcases mem_flushes_freeze hf with hf | rfl
    · exact h.stored_flush f hf t ht
    · cases ht
  | capture =>
    refine ⟨hissues, h.stored_flush, fun c hc t ht => ?_, h.view_listed, fun c hc t ht => ?_⟩
    all_goals rcases mem_compactions_capture hc with hc | rfl
    · exact h.stored_compact c hc t ht
    · cases ht
    · exact h.captured_listed c hc t ht
    · exact h.issues.tables t ht
  | dropFlush task =>
    exact ⟨hissues, fun f hf => h.stored_flush f ((eraseIdx_sublist ..).subset hf),
      h.stored_compact, h.view_listed, h.captured_listed⟩
  | dropCompact task =>
    have hsub := eraseIdx_sublist σ.compactions task
    exact ⟨hissues, h.stored_flush, fun c hc => h.stored_compact c (hsub.subset hc), h.view_listed,
      fun c hc => h.captured_listed c (hsub.subset hc)⟩
  | shipSegment =>
    refine ⟨hissues, ?_, ?_, ?_, h.captured_listed⟩
    · rw [sst_shipSegment]
      exact h.stored_flush
    · rw [sst_shipSegment]
      exact h.stored_compact
    · rw [manifestIds_eq (manifest_shipSegment)]
      exact h.view_listed
  | _ => exact ⟨hissues, h.stored_flush, h.stored_compact, h.view_listed, h.captured_listed⟩

theorem unsaved_run (he : Along (apply filter) Enabled σ ops)
    (hops : ∀ op ∈ ops, isSave op = false) : Stands listed (run (apply filter) σ ops) := by
  induction ops generalizing σ with
  | nil => exact h
  | cons op ops ih =>
    exact ih (h.unsaved_op he.1 (hops op mem_cons_self)) he.2
      fun x hx => hops x (.tail _ hx)

end Stands

/-- The step from `σ` to `σ'` writes the manifest `m`, which lists the table `t` over what was
listed before. -/
structure Adds (listed : List ℕ) (σ σ' : Sys) (t : SSTable) (m : Manifest) : Prop where
  ids : ∀ id ∈ m.sstableIds, id = t.id ∨ id ∈ σ.store.manifestIds
  new : t.id ∈ m.sstableIds
  fresh : t.id ∉ listed
  stored : σ.store.sst t.id = some t
  kept : ∀ id ∈ m.sstableIds, σ'.store.sst id = σ.store.sst id
  stands : Stands (m.sstableIds ++ listed) σ'

section Saves

variable (filter : BloomFilter) {listed : List ℕ} {σ : Sys}

variable {task : ℕ} {lease : LeaseHandle}

theorem adds_publish (h : Stands listed σ) (he : Enabled σ (.publish task p t lease)) :
    Adds listed σ (apply filter σ (.publish task p t lease)) t (flushManifest σ p lease) := by
  have hmem := mem_of_getElem? he.1
  have hid : t.id = p.sstableId := h.issues.flush_built _ hmem t rfl
  refine ⟨fun id hid' => ?_, mem_append_right _ (mem_singleton.mpr hid), ?_,
    h.stored_flush _ hmem t rfl, fun _ _ => rfl, ?_⟩
  · rcases mem_append.mp hid' with hview | hnew
    · obtain ⟨u, hu, rfl⟩ := mem_map.mp hview
      exact .inr (h.view_listed u hu)
    · rw [mem_singleton.mp hnew, hid]
      exact .inl rfl
  · rw [hid]
    exact h.issues.unlisted _ (mem_append_left _ (mem_map_of_mem hmem))
  · refine ⟨((saved_publish filter he).issues listed h.issues).2.2,
      fun f hf => h.stored_flush f ((eraseIdx_sublist ..).subset hf), h.stored_compact,
      fun u hu => ?_, fun c hc u hu => mem_append_right _ (h.captured_listed c hc u hu)⟩
    rcases mem_append.mp hu with hu | hu
    · exact mem_append_left _ (mem_map_of_mem hu)
    · rw [mem_singleton.mp hu, hid]
      exact mem_append_right _ (mem_singleton.mpr rfl)

/-- The tables that a compaction deletes are neither in the new manifest nor in flight. -/
theorem adds_replace (h : Stands listed σ) (he : Enabled σ (.replace task p merged lease deleted)) :
    Adds listed σ (apply filter σ (.replace task p merged lease deleted)) merged
      (compactManifest σ p merged lease) := by
  have hmem := mem_of_getElem? he.1
  have hid : merged.id = p.newId := h.issues.compact_built _ hmem merged rfl
  set gone := (p.sstables.map SSTable.id).filter deleted
  have hcaptured : ∀ id, id ∉ listed → id ∉ gone := by
    intro id hid hdel
    obtain ⟨u, hu, rfl⟩ := mem_map.mp (mem_filter.mp hdel).1
    exact hid (h.captured_listed _ hmem u hu)
  have hkeep : ∀ id, id ∉ gone →
      (apply filter σ (.replace task p merged lease deleted)).store.sst id = σ.store.sst id :=
    fun id hid => sst_deleteSsts_of_notMem _ hid
  have hpending : ∀ id ∈ pendingIds σ, id ∉ gone :=
    fun id hpend => hcaptured id (h.issues.unlisted id hpend)
  have hnew : merged.id ∉ listed := by
    rw [hid]
    exact h.issues.unlisted _ (mem_append_right _ (mem_map_of_mem hmem))
  have hcases : ∀ u ∈ reconcile σ.tables p merged, u = merged ∨
      u ∈ σ.tables ∧ u.id ∉ p.sstables.map SSTable.id := by
    intro u hu
    rcases mem_append.mp hu with hu | hu
    · obtain ⟨htable, hnot⟩ := mem_filter.mp hu
      exact .inr ⟨htable, by simpa using hnot⟩
    · exact .inl (mem_singleton.mp hu)
  have hlast : merged ∈ reconcile σ.tables p merged :=
    mem_append_right _ (mem_singleton.mpr rfl)
  refine ⟨fun id hlisted => ?_, mem_map_of_mem hlast, hnew,
    h.stored_compact _ hmem merged rfl, fun id hlisted => hkeep id ?_, ?_⟩
  · obtain ⟨u, hu, rfl⟩ := mem_map.mp hlisted
    rcases hcases u hu with rfl | ⟨htable, _⟩
    · exact .inl rfl
    · exact .inr (h.view_listed u htable)
  · obtain ⟨u, hu, rfl⟩ := mem_map.mp hlisted
    rcases hcases u hu with rfl | ⟨_, hnot⟩
    · exact hcaptured _ hnew
    · exact fun hdel => hnot (mem_filter.mp hdel).1
  · have hsub := eraseIdx_sublist σ.compactions task
    refine ⟨((saved_replace filter he).issues listed h.issues).2.2, fun f hf t ht => ?_,
      fun c hc t ht => ?_, fun u hu => mem_map_of_mem hu,
      fun c hc u hu => mem_append_right _ (h.captured_listed c (hsub.subset hc) u hu)⟩
    · rw [hkeep]
      · exact h.stored_flush f hf t ht
      · rw [h.issues.flush_built f hf t ht]
        exact hpending _ (mem_append_left _ (mem_map_of_mem hf))
    · rw [hkeep]
      · exact h.stored_compact c (hsub.subset hc) t ht
      · rw [h.issues.compact_built c (hsub.subset hc) t ht]
        exact hpending _ (mem_append_right _ (mem_map.mpr ⟨c, hsub.subset hc, rfl⟩))

theorem adds_flush (h : Stands listed σ)
    (he : Along (apply filter) Enabled σ (.shipSegment :: .publish task p t lease :: rest))
    (hrest : ∀ op ∈ rest, isSave op = false)
    (hsst : (run (apply filter) σ (.shipSegment :: .publish task p t lease :: rest)).store.sst =
      σ.store.sst) :
    Adds listed σ (run (apply filter) σ (.shipSegment :: .publish task p t lease :: rest)) t
      (flushManifest (apply filter σ .shipSegment) p lease) := by
  obtain ⟨hship, hpublish, hlast⟩ := he
  have hadds := adds_publish filter (h.unsaved_op hship rfl) hpublish
  refine ⟨fun id hid => ?_, hadds.new, hadds.fresh, ?_, fun id _ => congrFun hsst id,
    hadds.stands.unsaved_run hlast hrest⟩
  · refine (hadds.ids id hid).imp_right fun hmem => ?_
    rw [manifestIds_eq (manifest_shipSegment)] at hmem
    exact hmem
  · rw [← sst_shipSegment filter σ]
    exact hadds.stored

structure Unwritten (σ σ' : Sys) (e : Event) : Prop where
  manifest : σ'.store.manifest = σ.store.manifest
  etag : σ'.engine.ws.manifestEtag = σ.engine.ws.manifestEtag
  kept : ∀ id, uploadId σ e ≠ some id → σ'.store.sst id = σ.store.sst id
  stands : ∀ listed, Stands listed σ → Stands listed σ'

structure Written (σ σ' : Sys) (e : Event) (t : SSTable) (m : Manifest) : Prop where
  table : committedTable σ e = some t
  matched : σ.engine.ws.manifestEtag = σ.store.manifest
  manifest : σ'.store.manifest = some m
  adds : ∀ listed, Stands listed σ → Adds listed σ σ' t m

theorem next_objects (he : Event.isCrash e = false) :
    Unwritten σ (next filter σ e) e ∨ ∃ t m, Written σ (next filter σ e) e t m := by
  obtain ⟨ops, hdoes, hnext⟩ := next_does filter σ he
  have henabled := does_enabled filter hdoes
  rw [hnext]
  have hquiet : (∀ op ∈ ops, isSave op = false) →
      (∀ id, uploadId σ e ≠ some id → (run (apply filter) σ ops).store.sst id = σ.store.sst id) →
      Unwritten σ (run (apply filter) σ ops) e := by
    intro hops hkept
    have hunsaved := unsaved_run filter henabled hops
    exact ⟨hunsaved.manifest, hunsaved.etag, hkept, fun listed h => h.unsaved_run henabled hops⟩
  cases hdoes with
  | uploadedFlush task p htask =>
    refine .inl (hquiet (by simp [isSave]) fun id hid => sst_putSst_of_ne _ ?_)
    rintro rfl
    exact hid (by simp [uploadId, htask, flushTable, SSTable.create])
  | uploadedCompact task p htask =>
    refine .inl (hquiet (by simp [isSave]) fun id hid => sst_putSst_of_ne _ ?_)
    rintro rfl
    exact hid (by simp [uploadId, htask, mergedTable, SSTable.create])
  | flushed task lease io threshold p t htask hetag
  | flushedAndCaptured task lease io threshold p t htask hetag =>
    refine .inr ⟨t, _, by simp [committedTable, htask], hetag, rfl, fun listed h =>
      adds_flush filter h henabled (by simp [isSave]) (sst_shipSegment filter σ)⟩
  | compacted task lease saveManifest deleted p merged htask hetag =>
    exact .inr ⟨merged, _, by simp [committedTable, htask], hetag, rfl, fun listed h =>
      adds_replace filter h henabled.1⟩
  | flushRefused task lease io threshold =>
    exact .inl (hquiet (by simp [isSave]) fun id _ => congrFun (sst_shipSegment filter σ) id)
  | _ => exact .inl (hquiet (by simp [isSave]) fun id _ => rfl)

end Saves

/-- The cluster, and with each id the table of the flush or the compaction whose manifest update
has added the id. -/
structure Traced (N : Type) where
  cluster : Cluster N
  added : ℕ → Option SSTable

namespace Traced

variable {N : Type} [DecidableEq N]

def producedTable (c : Cluster N) : ClusterEvent N → Option SSTable
  | .engine i e => committedTable (c.sys i) e
  | _ => none

def next (filter : BloomFilter) (t : Traced N) (e : ClusterEvent N) : Traced N :=
  let c := t.cluster.next filter e
  ⟨c, fun id => if id ∈ c.store.manifestIds ∧ id ∉ t.cluster.store.manifestIds then
    producedTable t.cluster e else t.added id⟩

def initial (holderId path : N → String) (ttlMs : N → ℕ) : Traced N :=
  ⟨.initial holderId path ttlMs, fun _ => none⟩

end Traced

section Cluster

variable {N : Type}

def Intact (t : Traced N) : Prop :=
  ∀ id ∈ t.cluster.store.manifestIds, t.added id ≠ none ∧ t.cluster.store.sst id = t.added id

def uploaded (c : Cluster N) (i : N) : List SSTable :=
  (c.node i).flushes.filterMap Prod.snd ++ (c.node i).compactions.filterMap Prod.snd

/-- An upload of node `i` under `id` would overwrite no listed table, and none that another node
can still get listed, since it stands on the current manifest. -/
def FreeFor (c : Cluster N) (i : N) (id : ℕ) : Prop :=
  id ∉ c.store.manifestIds ∧ ∀ j, j ≠ i → (c.node j).engine.ws.manifestEtag = c.store.manifest →
    id ∉ (uploaded c j).map SSTable.id

instance [Fintype N] [DecidableEq N] (c : Cluster N) (i : N) (id : ℕ) :
    Decidable (FreeFor c i id) :=
  inferInstanceAs (Decidable (_ ∧ _))

def UploadsFree (t : Traced N) : ClusterEvent N → Prop
  | .engine i e => ∀ id ∈ uploadId (t.cluster.sys i) e, FreeFor t.cluster i id
  | _ => True

instance [Fintype N] [DecidableEq N] (t : Traced N) :
    (e : ClusterEvent N) → Decidable (UploadsFree t e)
  | .engine i e => inferInstanceAs (Decidable (∀ id ∈ uploadId (t.cluster.sys i) e, _))
  | .acquireGet .. | .acquirePut .. | .renew .. | .restart .. => .isTrue trivial

/-- What holds in every run whose uploads are free. -/
structure Sound (t : Traced N) : Prop where
  consistent : t.cluster.Consistent
  intact : Intact t
  stands : ∀ i, (t.cluster.node i).engine.ws.manifestEtag = t.cluster.store.manifest →
    Stands t.cluster.listed (t.cluster.sys i)

theorem Stands.of_same (h : Stands listed σ) (he : σ'.engine = σ.engine) (hs : σ'.store = σ.store)
    (hf : σ'.flushes = σ.flushes) (hc : σ'.compactions = σ.compactions) : Stands listed σ' := by
  obtain ⟨engine, store, flushes, compactions, applied, acked⟩ := σ
  obtain ⟨engine', store', flushes', compactions', applied', acked'⟩ := σ'
  obtain rfl : engine' = engine := he
  obtain rfl : store' = store := hs
  obtain rfl : flushes' = flushes := hf
  obtain rfl : compactions' = compactions := hc
  exact ⟨{ h.issues with }, h.stored_flush, h.stored_compact, h.view_listed, h.captured_listed⟩

theorem Stands.of_kept (h : Stands listed σ) (hmanifest : store.manifest = σ.store.manifest)
    (hflush : ∀ f ∈ σ.flushes, ∀ t ∈ f.2, store.sst t.id = σ.store.sst t.id)
    (hcompact : ∀ c ∈ σ.compactions, ∀ t ∈ c.2, store.sst t.id = σ.store.sst t.id) :
    Stands listed { σ with store := store } where
  issues := { h.issues with }
  stored_flush := fun f hf t ht => (hflush f hf t ht).trans (h.stored_flush f hf t ht)
  stored_compact := fun c hc t ht => (hcompact c hc t ht).trans (h.stored_compact c hc t ht)
  view_listed := fun t ht => by
    rw [manifestIds_eq hmanifest]
    exact h.view_listed t ht
  captured_listed := h.captured_listed

namespace Sound

theorem initial (holderId path : N → String) (ttlMs : N → ℕ) :
    Sound (Traced.initial holderId path ttlMs) where
  consistent := .initial holderId path ttlMs
  intact := by
    intro id hid
    simp [Traced.initial, Cluster.initial, manifestIds, empty, Manifest.default] at hid
  stands := by
    intro i _
    have hissues := (Cluster.Consistent.initial holderId path ttlMs).issues i rfl
    refine ⟨hissues, ?_, ?_, ?_, ?_⟩
    all_goals simp [Traced.initial, Cluster.initial, Cluster.sys, Sys.tables, freshEngine]

variable [DecidableEq N] {filter : BloomFilter} {t : Traced N}

variable {e : ClusterEvent N}

theorem added_same (h : (t.cluster.next filter e).store.manifest = t.cluster.store.manifest) :
    (t.next filter e).added = t.added := by
  funext id
  simp only [Traced.next, manifestIds_eq h]
  rw [if_neg]
  rintro ⟨hmem, hnot⟩
  exact hnot hmem

/-- Node `i` moves, the manifest stays, and so do the objects that it lists and those that other
nodes can still get listed. -/
theorem set_unwritten (h : Sound t) (i : N) (hnext : t.cluster.next filter e = c)
    (hmanifest : c.store.manifest = t.cluster.store.manifest) (hsaves : c.saves = t.cluster.saves)
    (hlisted : ∀ id ∈ t.cluster.store.manifestIds, c.store.sst id = t.cluster.store.sst id)
    (hothers : ∀ j, j ≠ i → c.node j = t.cluster.node j)
    (hpending : ∀ j, j ≠ i → (t.cluster.node j).engine.ws.manifestEtag = t.cluster.store.manifest →
      ∀ u ∈ uploaded t.cluster j, c.store.sst u.id = t.cluster.store.sst u.id)
    (hi : (c.node i).engine.ws.manifestEtag = t.cluster.store.manifest →
      Stands t.cluster.listed (c.sys i)) :
    Sound (t.next filter e) := by
  subst hnext
  refine ⟨h.consistent.next filter e, fun id hid => ?_, fun j hj => ?_⟩
  · have hid' : id ∈ t.cluster.store.manifestIds := by
      rw [← manifestIds_eq hmanifest]
      exact hid
    rw [added_same hmanifest]
    exact ⟨(h.intact id hid').1, (hlisted id hid').trans (h.intact id hid').2⟩
  · have hsame : (t.next filter e).cluster.listed = t.cluster.listed := by
      rw [Cluster.listed, Cluster.listed, ← hsaves]
      rfl
    rw [hsame]
    have hetag := hj.trans hmanifest
    by_cases hji : j = i
    · subst hji
      exact hi hetag
    · have hold : (t.cluster.node j).engine.ws.manifestEtag = t.cluster.store.manifest := by
        rw [← hothers j hji]
        exact hetag
      have hsys : (t.next filter e).cluster.sys j =
        { t.cluster.sys j with store := (t.next filter e).cluster.store } := by
        rw [Cluster.sys, Traced.next, hothers j hji]
        rfl
      rw [hsys]
      exact (h.stands j hold).of_kept hmanifest
        (fun f hf u hu => hpending j hji hold u (mem_append_left _ (mem_filterMap.mpr ⟨f, hf, hu⟩)))
        fun x hx u hu => hpending j hji hold u (mem_append_right _ (mem_filterMap.mpr ⟨x, hx, hu⟩))

theorem unchanged (h : Sound t) (i : N) (hsame : t.cluster.next filter e = t.cluster) :
    Sound (t.next filter e) := by
  refine h.set_unwritten i hsame rfl rfl ?_ ?_ ?_ (h.stands i)
  all_goals intros; rfl

variable {i : N}

theorem set_manager (h : Sound t) (hnext : t.cluster.next filter e = c)
    (hstore : c.store = t.cluster.store)
    (hsaves : c.saves = t.cluster.saves) (hnode : c.node = (t.cluster.setManager i m).node) :
    Sound (t.next filter e) := by
  have hi : c.node i =
      { t.cluster.node i with manager := m, shown := m.handle :: (t.cluster.node i).shown } := by
    rw [hnode]
    exact update_self ..
  refine h.set_unwritten i hnext (by rw [hstore]) hsaves (fun _ _ => by rw [hstore])
    (fun j hj => ?_)
    (fun _ _ _ _ _ => by rw [hstore]) fun hetag => ?_
  · rw [hnode]
    exact update_of_ne hj ..
  · rw [hi] at hetag
    refine (h.stands i hetag).of_same ?_ hstore ?_ ?_ <;> simp only [Cluster.sys, hi]

theorem restart (h : Sound t) (i : N) (fetch : ℕ → Bool) :
    Sound (t.next filter (.restart i fetch)) := by
  cases hopen : openEngine (t.cluster.node i).engine.ws.wal t.cluster.store fetch with
  | error err =>
    refine h.unchanged i ?_
    simp [Cluster.next, Cluster.restart, hopen]
  | ok engine =>
    have hopened := LsmEngine.openEngine_ok hopen
    set manager := StorageLease.LeaseManager.new (t.cluster.node i).manager.holderId
      (t.cluster.node i).manager.ttlMs
    have hnext : t.cluster.next filter (.restart i fetch) =
        t.cluster.setNode i ⟨engine, [], [], manager, [⟨0, false⟩], t.cluster.saves.length⟩ := by
      simp only [Cluster.next, Cluster.restart, hopen]
      rfl
    have hissues := (h.consistent.next filter (.restart i fetch)).issues i
    rw [hnext] at hissues
    refine h.set_unwritten i hnext rfl rfl (fun _ _ => rfl) (fun j hj => update_of_ne hj ..)
      (fun _ _ _ _ _ => rfl) fun _ => ?_
    simp only [Cluster.sys, Cluster.setNode, update_self] at hissues ⊢
    refine ⟨hissues trivial, by simp, by simp, fun u hu => ?_, by simp⟩
    rw [Sys.tables, hopened.tables_eq] at hu
    obtain ⟨id, hid, _, table, _, rfl⟩ := LsmEngine.mem_loadTables.mp hu
    exact hid

theorem engine_unwritten (h : Sound t) {e : Event}
    (hstep : t.cluster.next filter (.engine i e) = t.cluster.engineStep filter i e)
    (hfree : UploadsFree t (.engine i e))
    (hun : Unwritten (t.cluster.sys i) (StorageLsmSystem.next filter (t.cluster.sys i) e) e) :
    Sound (t.next filter (.engine i e)) := by
  have hkept : ∀ id, (∀ x ∈ uploadId (t.cluster.sys i) e, x ≠ id) →
      (t.cluster.engineStep filter i e).store.sst id = t.cluster.store.sst id :=
    fun id hid => hun.kept id fun hupload => hid id hupload rfl
  refine h.set_unwritten i hstep hun.manifest ?_ ?_ (fun j hj => update_of_ne hj ..) ?_ ?_
  · change t.cluster.savesAfter (StorageLsmSystem.next filter (t.cluster.sys i) e).store.manifest =
      _
    rw [hun.manifest]
    exact t.cluster.savesAfter_same
  · intro id hid
    refine hkept id fun x hx hxid => (hfree x hx).1 ?_
    rw [hxid]
    exact hid
  · intro j hj hetag u hu
    refine hkept u.id fun x hx hxid => (hfree x hx).2 j hj hetag ?_
    rw [hxid]
    exact mem_map_of_mem hu
  · intro hetag
    have hnode : (t.cluster.engineStep filter i e).node i = _ := update_self ..
    rw [hnode] at hetag
    have hold := hun.etag.symm.trans hetag
    refine (hun.stands _ (h.stands i hold)).of_same ?_ rfl ?_ ?_ <;> simp only [Cluster.sys, hnode]

/-- An engine step that writes the manifest; only the node that wrote it stands on it. -/
theorem engine_written (h : Sound t) {e : Event}
    (hstep : t.cluster.next filter (.engine i e) = t.cluster.engineStep filter i e)
    (hw : Written (t.cluster.sys i) (StorageLsmSystem.next filter (t.cluster.sys i) e) e added m) :
    Sound (t.next filter (.engine i e)) := by
  have hadds := hw.adds _ (h.stands i hw.matched)
  have hconsistent := h.consistent.next filter (.engine i e)
  set c := t.cluster.next filter (.engine i e)
  have hchanged : some m ≠ t.cluster.store.manifest := by
    intro hm
    refine hadds.fresh (h.consistent.mem_listed ?_)
    rw [manifestIds, ← hm]
    exact hadds.new
  have hmanifest : c.store.manifest = some m := by
    rw [hstep]
    exact hw.manifest
  have hsaves : c.saves = ⟨m, t.cluster.granted⟩ :: t.cluster.saves := by
    rw [hstep]
    change t.cluster.savesAfter (StorageLsmSystem.next filter (t.cluster.sys i) e).store.manifest =
      _
    rw [hw.manifest, t.cluster.savesAfter_new hchanged]
  have hids : c.store.manifestIds = m.sstableIds := by
    rw [manifestIds, hmanifest]
    rfl
  have hstored : ∀ id ∈ m.sstableIds, c.store.sst id = t.cluster.store.sst id := by
    rw [hstep]
    exact hadds.kept
  refine ⟨hconsistent, fun id hid => ?_, fun j hj => ?_⟩
  · have hid' : id ∈ m.sstableIds := hids ▸ hid
    change (if _ then _ else _) ≠ none ∧ _ = (if _ then _ else _)
    rcases hadds.ids id hid' with rfl | hold
    · have hnew : added.id ∉ t.cluster.store.manifestIds :=
        fun hmem => hadds.fresh (h.consistent.mem_listed hmem)
      rw [if_pos ⟨hid, hnew⟩, Traced.producedTable, hw.table]
      exact ⟨Option.some_ne_none _, (hstored _ hid').trans hadds.stored⟩
    · rw [if_neg fun hcond => hcond.2 hold]
      exact ⟨(h.intact id hold).1, (hstored id hid').trans (h.intact id hold).2⟩
  · have hlisted : (t.next filter (.engine i e)).cluster.listed =
      m.sstableIds ++ t.cluster.listed := by
      change c.listed = _
      rw [Cluster.listed, hsaves, flatMap_cons, Cluster.listed]
    have hload := hconsistent.loaded_eq hj
    rw [hsaves, length_cons] at hload
    by_cases hji : j = i
    · subst hji
      have hnode : (t.cluster.engineStep filter j e).node j = _ := update_self ..
      change Stands _ (c.sys j)
      rw [hlisted, hstep]
      refine hadds.stands.of_same ?_ rfl ?_ ?_ <;> simp only [Cluster.sys, hnode]
    · have hle := h.consistent.loaded_le j
      have hnode : c.node j = t.cluster.node j := by
        rw [hstep]
        exact update_of_ne hji ..
      rw [hnode] at hload
      omega

theorem step (h : Sound t) (he : UploadsFree t e) : Sound (t.next filter e) := by
  cases e with
  | acquireGet i now io | acquirePut i now io | renew i now io =>
    exact h.set_manager rfl rfl rfl rfl
  | restart i fetch => exact h.restart i fetch
  | engine i e =>
    by_cases hguard : Event.isCrash e = false ∧
      ∀ lease ∈ leasesOf e, lease ∈ (t.cluster.node i).shown
    · have hstep : t.cluster.next filter (.engine i e) = t.cluster.engineStep filter i e :=
        if_pos hguard
      rcases next_objects filter hguard.1 with hun | ⟨added, m, hw⟩
      · exact h.engine_unwritten hstep he hun
      · exact h.engine_written hstep hw
    · have hsame : t.cluster.next filter (.engine i e) = t.cluster := if_neg hguard
      exact h.unchanged i hsame

end Sound

end Cluster

/-- In every run in which no upload goes under an id that the current manifest lists, or that
another node standing on it has uploaded a table under, every listed id names the table of the
flush or compaction that had it listed. -/
theorem listed_tables_intact_while_uploads_free {N : Type} [DecidableEq N] (filter : BloomFilter)
    (holderId path : N → String) (ttlMs : N → ℕ) (events : List (ClusterEvent N))
    (h : Along (Traced.next filter) UploadsFree (Traced.initial holderId path ttlMs) events) :
    Intact (run (Traced.next filter) (Traced.initial holderId path ttlMs) events) := by
  have hinv := h.invariant (fun t e ht he => ht.step he)
    (Sound.initial holderId path ttlMs)
  exact hinv.intact

/-- The first node takes the lease, begins a flush and pauses; the second one takes the lease
over after it has expired and begins a flush of its own. -/
def bothFlush : List (ClusterEvent Bool) :=
  [.acquireGet false 0 true, .acquirePut false 0 true,
    .engine false (.writeBatch (putRow [97] [1]) ⟨1, true⟩ .ok),
      .engine false (.beginFlush ⟨1, true⟩),
    .acquireGet true 100 true, .acquirePut true 100 true,
    .engine true (.writeBatch (putRow [98] [2]) ⟨2, true⟩ .ok),
      .engine true (.beginFlush ⟨2, true⟩),
    .engine true (.finishFlush 0 true), .engine true (.commitFlush 0 ⟨2, true⟩ .allOk 4)]

def tracedNodes : Traced Bool :=
  .initial (fun i => if i then "b" else "a") (fun _ => "wal.log") fun _ => 10

/-- The first node starts anew instead, and flushes under the next id. -/
theorem restarted_node_takes_next_id :
    let t := run (Traced.next exactFilter) tracedNodes (bothFlush ++
      [.restart false fun _ => true, .acquireGet false 200 true, .acquirePut false 200 true,
        .engine false (.writeBatch (putRow [97] [1]) ⟨3, true⟩ .ok),
        .engine false (.beginFlush ⟨3, true⟩), .engine false (.finishFlush 0 true),
        .engine false (.commitFlush 0 ⟨3, true⟩ .allOk 4)])
    t.cluster.store.manifestIds = [1, 2] ∧ Intact t :=
  ⟨by decide, listed_tables_intact_while_uploads_free exactFilter _ _ _ _ (by decide)⟩

/-- The first node goes on with its flush. Its commit is refused, and the table that the manifest
lists is gone by then. -/
theorem late_upload_overwrites_listed_table :
    let t := run (Traced.next exactFilter) tracedNodes (bothFlush ++
      [.engine false (.finishFlush 0 true), .engine false (.commitFlush 0 ⟨1, true⟩ .allOk 4)])
    t.cluster.store.manifest = some ⟨[1], 1, 2, 1⟩ ∧
      (t.added 1).map SSTable.rows = some [⟨[98], 1, some [2]⟩] ∧
      (t.cluster.store.sst 1).map SSTable.rows = some [⟨[97], 1, some [1]⟩] ∧ ¬ Intact t := by
  refine ⟨by decide, by decide, by decide, fun h => ?_⟩
  have hrows := congrArg (Option.map SSTable.rows) (h 1 (by decide)).2
  exact absurd hrows (by decide)

end StorageClusterObjects
