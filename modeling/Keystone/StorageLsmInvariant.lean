import Keystone.StorageLsmSteps
import Mathlib.Data.List.Perm.Basic

/-! # What holds in every run without a crash

`Versions`: all rows anywhere in the engine come from the history of writes, and a key with a
sequence number names one write. `Placement`: table ids are never issued twice, the manifest lists
exactly the live tables, and the store holds them. -/
namespace StorageLsmInvariant

open VersionedLayers
open List (append_assoc map_append map_cons map_nil mem_append mem_append_left mem_append_right
  mem_filter mem_map mem_map_of_mem mem_of_getElem? mem_of_mem_eraseIdx mem_singleton nodup_append)
open StorageInternalKey StorageMemTable StorageManifest StorageLsmEngine StorageLsmSystem
open StorageLsmCompaction StorageLsmSteps
open LsmEngine (compactRun reconcile insertRow)

theorem rowOf_batchRow (r : BatchRow) (seq : ℕ) :
    rowOf (⟨r.key, seq, r.tag⟩, r.bytes) = r.version seq := by
  cases hv : r.value <;>
    simp [rowOf, entryValue, InternalKey.isDelete, BatchRow.tag, BatchRow.bytes, BatchRow.version,
      hv, putTag, deleteTag]

variable {seq : ℕ} {v : Version Bytes Bytes}

/-- Inserting rows with distinct keys at a fresh sequence number adds exactly those rows. -/
theorem mem_rows_foldl_insertRow {rows : List BatchRow} (hd : (rows.map BatchRow.key).Nodup)
    (hfresh : ∀ r ∈ rows, ∀ v ∈ m.rows, v.key = r.key → v.seq ≠ seq) :
    v ∈ (rows.foldl (insertRow seq) m).rows ↔
      v ∈ rows.map (fun r => r.version seq) ∨ v ∈ m.rows := by
  induction rows generalizing m with
  | nil => simp
  | cons r rows ih =>
    obtain ⟨hr, hrows⟩ := List.nodup_cons.mp hd
    have hins : ∀ w, w ∈ (insertRow seq m r).rows ↔ w = r.version seq ∨ w ∈ m.rows := by
      intro w
      rw [insertRow, MemTable.mem_rows_insert (hfresh r List.mem_cons_self), rowOf_batchRow]
    rw [List.foldl_cons, ih hrows, hins]
    · simp [or_left_comm, or_assoc]
    · intro x hx w hw hk
      rcases (hins w).mp hw with rfl | hw
      · exact absurd (mem_map.mpr ⟨x, hx, hk.symm⟩) hr
      · exact hfresh x (.tail _ hx) w hw hk

theorem seq_of_mem_versions {b : Batch} (h : v ∈ b.versions seq) : v.seq = seq := by
  obtain ⟨r, _, rfl⟩ := mem_map.mp h
  rfl

theorem versions_functional (b : Batch) : Functional (b.versions seq) := by
  intro v hv w hw hk _
  obtain ⟨r, hr, rfl⟩ := mem_map.mp hv
  obtain ⟨x, hx, rfl⟩ := mem_map.mp hw
  have : r = x := List.inj_on_of_nodup_map b.distinct hr hx hk
  rw [this]

/-- The history stays newest first and functional when a batch is put in front of it at a
sequence number above all of its own. -/
theorem history_cons {history : List (Version Bytes Bytes)} (b : Batch) (hn : NewestFirst history)
    (hf : Functional history) (hlt : ∀ v ∈ history, v.seq < seq) :
    NewestFirst (b.versions seq ++ history) ∧ Functional (b.versions seq ++ history) := by
  constructor
  · refine List.pairwise_append.mpr ⟨?_, hn, ?_⟩
    · refine List.pairwise_map.mpr (List.pairwise_of_forall ?_)
      intro _ _ _
      exact le_rfl
    · intro v hv w hw _
      rw [seq_of_mem_versions hv]
      exact le_of_lt (hlt w hw)
  · intro v hv w hw hk hs
    rcases mem_append.mp hv with hv | hv <;> rcases mem_append.mp hw with hw | hw
    · exact versions_functional b v hv w hw hk hs
    · have := hlt w hw
      rw [← hs, seq_of_mem_versions hv] at this
      exact absurd this (lt_irrefl _)
    · have := hlt v hv
      rw [hs, seq_of_mem_versions hw] at this
      exact absurd this (lt_irrefl _)
    · exact hf v hv w hw hk hs

structure Versions (filter : BloomFilter) (σ : Sys) : Prop where
  seq_pos : 0 < σ.nextSeq
  newest : NewestFirst σ.applied
  functional : Functional σ.applied
  bounded : ∀ v ∈ σ.applied, v.seq < σ.nextSeq
  mem_sound : ∀ v ∈ σ.mem.rows, v ∈ σ.applied
  imm_sound : ∀ m ∈ σ.imm, ∀ v ∈ m.rows, v ∈ σ.applied
  table_sound : ∀ t ∈ σ.tables, ∀ v ∈ t.rows, v ∈ σ.applied
  flush_sound : ∀ f ∈ σ.flushes, ∀ v ∈ f.1.entries.rows, v ∈ σ.applied
  captured_sound : ∀ c ∈ σ.compactions, ∀ v ∈ captured c.1, v ∈ σ.applied
  flush_built : ∀ f ∈ σ.flushes, ∀ t ∈ f.2, t = flushTable filter f.1
  compact_built : ∀ c ∈ σ.compactions, ∀ t ∈ c.2, t = mergedTable filter c.1

namespace Versions

variable {filter : BloomFilter} {σ : Sys}

theorem mem_rows_addRows (h : Versions filter σ) (b : Batch) :
    v ∈ (apply filter σ (.addRows b)).mem.rows ↔ v ∈ b.versions σ.nextSeq ∨ v ∈ σ.mem.rows := by
  refine mem_rows_foldl_insertRow b.distinct ?_
  intro r _ w hw _
  exact ne_of_lt (h.bounded w (h.mem_sound w hw))

theorem captured_functional (h : Versions filter σ) (hc : c ∈ σ.compactions) :
    Functional (captured c.1) :=
  fun v hv w hw => h.functional v (h.captured_sound c hc v hv) w (h.captured_sound c hc w hw)

theorem flush_table (h : Versions filter σ) {task : ℕ}
    (ht : σ.flushes[task]? = some (p, some t)) : t = flushTable filter p :=
  h.flush_built _ (mem_of_getElem? ht) t rfl

theorem merged_table (h : Versions filter σ) {task : ℕ}
    (ht : σ.compactions[task]? = some (p, some t)) : t = mergedTable filter p :=
  h.compact_built _ (mem_of_getElem? ht) t rfl

theorem apply_op (h : Versions filter σ) {op : Op} (he : Enabled σ op) :
    Versions filter (apply filter σ op) := by
  cases op with
  | failAppend b written =>
    exact { h with
      seq_pos := Nat.succ_pos _
      bounded := fun v hv => Nat.lt_succ_of_lt (h.bounded v hv) }
  | addRows b =>
    obtain ⟨hn, hf⟩ := history_cons b h.newest h.functional h.bounded
    have hold : ∀ v, v ∈ σ.applied → v ∈ b.versions σ.nextSeq ++ σ.applied :=
      fun v hv => mem_append_right _ hv
    exact { h with
      seq_pos := Nat.succ_pos _
      newest := hn
      functional := hf
      bounded := by
        intro v hv
        rcases mem_append.mp hv with hv | hv
        · rw [seq_of_mem_versions hv]; exact Nat.lt_succ_self _
        · exact Nat.lt_succ_of_lt (h.bounded v hv)
      mem_sound := by
        intro v hv
        rcases (h.mem_rows_addRows b).mp hv with hv | hv
        · exact mem_append_left _ hv
        · exact hold v (h.mem_sound v hv)
      imm_sound := fun m hm v hv => hold v (h.imm_sound m hm v hv)
      table_sound := fun t ht v hv => hold v (h.table_sound t ht v hv)
      flush_sound := fun f hf v hv => hold v (h.flush_sound f hf v hv)
      captured_sound := fun c hc v hv => hold v (h.captured_sound c hc v hv) }
  | ack versions => exact { h with }
  | freeze =>
    exact { h with
      mem_sound := by simp [apply, Sys.mem]
      imm_sound := by
        rintro m hm v hv
        obtain rfl : σ.mem = m := Option.some.inj hm
        exact h.mem_sound v hv
      flush_sound := forall_mem_freeze h.flush_sound h.mem_sound
      flush_built := forall_mem_freeze h.flush_built (by simp) }
  | uploadFlush task p =>
    have hin := mem_of_getElem? he
    exact { h with
      flush_sound := forall_mem_set h.flush_sound (h.flush_sound (p, none) hin)
      flush_built := forall_mem_set h.flush_built fun t ht => (Option.some.inj ht).symm }
  | dropFlush task =>
    exact { h with
      flush_sound := fun f hf => h.flush_sound f (mem_of_mem_eraseIdx hf)
      flush_built := fun f hf => h.flush_built f (mem_of_mem_eraseIdx hf) }
  | shipSegment => exact { h with }
  | publish task p t lease =>
    have hin := mem_of_getElem? he.1
    exact { h with
      imm_sound := by rintro m ⟨⟩
      table_sound := forall_mem_concat h.table_sound (by
        rw [h.flush_table he.1]
        exact h.flush_sound _ hin)
      flush_sound := fun f hf => h.flush_sound f (mem_of_mem_eraseIdx hf)
      flush_built := fun f hf => h.flush_built f (mem_of_mem_eraseIdx hf) }
  | truncateLog io => exact { h with }
  | capture =>
    exact { h with
      captured_sound := forall_mem_concat h.captured_sound fun v hv => by
        obtain ⟨t, ht, hv⟩ := mem_captured.mp hv
        exact h.table_sound t ht v hv
      compact_built := forall_mem_concat h.compact_built (by simp) }
  | uploadCompact task p =>
    have hin := mem_of_getElem? he
    exact { h with
      captured_sound := forall_mem_set h.captured_sound (h.captured_sound (p, none) hin)
      compact_built := forall_mem_set h.compact_built fun t ht => (Option.some.inj ht).symm }
  | dropCompact task =>
    exact { h with
      captured_sound := fun c hc => h.captured_sound c (mem_of_mem_eraseIdx hc)
      compact_built := fun c hc => h.compact_built c (mem_of_mem_eraseIdx hc) }
  | replace task p merged lease deleted =>
    have hin := mem_of_getElem? he.1
    exact { h with
      table_sound := forall_mem_concat (fun u hu => h.table_sound u (mem_filter.mp hu).1) (by
        rw [h.merged_table he.1]
        exact fun v hv => h.captured_sound _ hin v (compactRun_subset hv))
      captured_sound := fun c hc => h.captured_sound c (mem_of_mem_eraseIdx hc)
      compact_built := fun c hc => h.compact_built c (mem_of_mem_eraseIdx hc) }
  | setSnapshots snapshots => exact { h with }

end Versions

def flushIds (σ : Sys) : List ℕ := σ.flushes.map fun f => f.1.sstableId
def compactIds (σ : Sys) : List ℕ := σ.compactions.map fun c => c.1.newId

theorem mem_pending_freeze {id : ℕ}
    (h : id ∈ flushIds (apply filter σ .freeze) ++ compactIds (apply filter σ .freeze)) :
    id = σ.nextId ∨ id ∈ flushIds σ ++ compactIds σ := by
  rcases mem_append.mp h with hflush | hcompact
  · obtain ⟨f, hf, rfl⟩ := mem_map.mp hflush
    rcases mem_flushes_freeze hf with hf | rfl
    · exact .inr (mem_append_left _ (mem_map_of_mem hf))
    · exact .inl rfl
  · exact .inr (mem_append_right _ hcompact)

theorem mem_pending_capture {id : ℕ}
    (h : id ∈ flushIds (apply filter σ .capture) ++ compactIds (apply filter σ .capture)) :
    id = σ.nextId ∨ id ∈ flushIds σ ++ compactIds σ := by
  rcases mem_append.mp h with hflush | hcompact
  · exact .inr (mem_append_left _ hflush)
  · obtain ⟨c, hc, rfl⟩ := mem_map.mp hcompact
    rcases mem_compactions_capture hc with hc | rfl
    · exact .inr (mem_append_right _ (mem_map_of_mem hc))
    · exact .inl rfl

def issued (σ : Sys) : List ℕ := σ.tables.map SSTable.id ++ (flushIds σ ++ compactIds σ)

structure Placement (σ : Sys) : Prop where
  issued_nodup : (issued σ).Nodup
  issued_lt : ∀ id ∈ issued σ, id < σ.nextId
  captured_lt : ∀ c ∈ σ.compactions, ∀ t ∈ c.1.sstables, t.id < σ.nextId
  captured_settled : ∀ c ∈ σ.compactions, ∀ t ∈ c.1.sstables, t.id ∉ flushIds σ ++ compactIds σ
  captured_same : ∀ c ∈ σ.compactions, ∀ t ∈ c.1.sstables, ∀ u ∈ σ.tables, u.id = t.id → u = t
  etag : σ.engine.ws.manifestEtag = σ.store.manifest
  manifest_ids : σ.store.manifestIds.Perm (σ.tables.map SSTable.id)
  stored : ∀ t ∈ σ.tables, σ.store.sst t.id = some t
  stored_flush : ∀ f ∈ σ.flushes, ∀ t ∈ f.2, σ.store.sst t.id = some t
  stored_compact : ∀ c ∈ σ.compactions, ∀ t ∈ c.2, σ.store.sst t.id = some t

theorem perm_move (front rest : List α) {parts : List α} {i : ℕ} {a : α} (h : parts[i]? = some a) :
    (front ++ [a] ++ (parts.eraseIdx i ++ rest)).Perm (front ++ (parts ++ rest)) := by
  obtain ⟨hi, rfl⟩ := List.getElem?_eq_some_iff.mp h
  have hperm := (List.getElem_cons_eraseIdx_perm hi).append_right rest
  rw [append_assoc]
  exact hperm.append_left front

theorem map_set_of_eq {l : List α} {i : ℕ}
    (h : l[i]? = some a) (hf : f b = f a) : (l.set i b).map f = l.map f := by
  obtain ⟨hi, rfl⟩ := List.getElem?_eq_some_iff.mp h
  apply List.ext_getElem?
  intro j
  by_cases hj : i = j
  · subst hj; simp [hf, hi]
  · simp [hj]

theorem map_eraseIdx_sublist (f : α → β) (l : List α) (i : ℕ) :
    ((l.eraseIdx i).map f).Sublist (l.map f) :=
  (List.eraseIdx_sublist l i).map f

theorem manifestIds_eq {store store' : Store} (h : store'.manifest = store.manifest) :
    store'.manifestIds = store.manifestIds := by
  simp [Store.manifestIds, h]

namespace Placement

variable {filter : BloomFilter} {σ : Sys}

variable (h : Placement σ)

include h

theorem tables_nodup : (σ.tables.map SSTable.id).Nodup :=
  (nodup_append.mp h.issued_nodup).1

theorem pending_nodup : (flushIds σ ++ compactIds σ).Nodup :=
  (nodup_append.mp h.issued_nodup).2.1

variable {t : SSTable}

theorem table_settled (ht : t ∈ σ.tables) : t.id ∉ flushIds σ ++ compactIds σ :=
  fun hp => (nodup_append.mp h.issued_nodup).2.2 _ (mem_map_of_mem ht) _ hp rfl

theorem pending_not_live {id : ℕ} (hid : id ∈ flushIds σ ++ compactIds σ) :
    id ∉ σ.tables.map SSTable.id := by
  intro hlive
  obtain ⟨t, ht, rfl⟩ := mem_map.mp hlive
  exact h.table_settled ht hid

theorem table_eq (ht : t ∈ σ.tables) (hu : u ∈ σ.tables) (hid : t.id = u.id) : t = u :=
  List.inj_on_of_nodup_map h.tables_nodup ht hu hid

theorem table_lt (ht : t ∈ σ.tables) : t.id < σ.nextId :=
  h.issued_lt _ (mem_append_left _ (mem_map_of_mem ht))

theorem flush_lt (hf : f ∈ σ.flushes) : f.1.sstableId < σ.nextId :=
  h.issued_lt _ (mem_append_right _ (mem_append_left _ (mem_map_of_mem hf)))

theorem nextId_fresh : σ.nextId ∉ issued σ :=
  fun hn => lt_irrefl _ (h.issued_lt _ hn)

variable {task : ℕ}

omit h in
theorem mem_flushIds (ht : σ.flushes[task]? = some (p, o)) : p.sstableId ∈ flushIds σ :=
  mem_map.mpr ⟨_, mem_of_getElem? ht, rfl⟩

variable {p : PendingCompaction}

omit h in
theorem mem_compactIds (ht : σ.compactions[task]? = some (p, o)) : p.newId ∈ compactIds σ :=
  mem_map.mpr ⟨_, mem_of_getElem? ht, rfl⟩

theorem of_sublist (hf : flushes.Sublist σ.flushes) (hc : compactions.Sublist σ.compactions) :
    Placement { σ with flushes := flushes, compactions := compactions } := by
  have hpending :
    (flushes.map (fun f => f.1.sstableId) ++ compactions.map fun c => c.1.newId).Sublist
      (flushIds σ ++ compactIds σ) := (hf.map _).append (hc.map _)
  have hissued : (σ.tables.map SSTable.id ++
      (flushes.map (fun f => f.1.sstableId) ++ compactions.map fun c => c.1.newId)).Sublist
      (issued σ) := (List.Sublist.refl _).append hpending
  exact { h with
    issued_nodup := h.issued_nodup.sublist hissued
    issued_lt := fun id hid => h.issued_lt id (hissued.subset hid)
    captured_lt := fun c hcm => h.captured_lt c (hc.subset hcm)
    captured_settled := fun c hcm t ht hid =>
      h.captured_settled c (hc.subset hcm) t ht (hpending.subset hid)
    captured_same := fun c hcm => h.captured_same c (hc.subset hcm)
    stored_flush := fun f hfm => h.stored_flush f (hf.subset hfm)
    stored_compact := fun c hcm => h.stored_compact c (hc.subset hcm) }

omit h in
theorem nodup_issue (h : (front ++ rest).Nodup) (hn : n ∉ front ++ rest) :
    (front ++ n :: rest).Nodup :=
  (List.perm_middle.nodup_iff).mpr (List.nodup_cons.mpr ⟨hn, h⟩)

theorem apply_freeze : Placement (apply filter σ .freeze) := by
  by_cases hemp : σ.mem.toEntries.entries.isEmpty = true
  · simp only [apply, hemp]
    exact { h with }
  · simp only [apply, hemp]
    have hfresh := h.nextId_fresh
    simp only [issued, ← append_assoc] at hfresh
    have hnodup := h.issued_nodup
    simp only [issued, ← append_assoc] at hnodup
    exact { h with
      issued_nodup := by simpa [issued, flushIds, compactIds] using nodup_issue hnodup hfresh
      issued_lt := by
        intro id hid
        have hid : id = σ.nextId ∨ id ∈ issued σ := by
          simp only [issued, flushIds, mem_append, map_append, map_cons,
            map_nil, mem_singleton, Bool.false_eq_true, if_false] at hid ⊢
          tauto
        rcases hid with rfl | hid
        · exact Nat.lt_succ_self _
        · exact Nat.lt_succ_of_lt (h.issued_lt id hid)
      captured_lt := fun c hc t ht => Nat.lt_succ_of_lt (h.captured_lt c hc t ht)
      captured_settled := by
        intro c hc t ht hid
        have hid : t.id = σ.nextId ∨ t.id ∈ flushIds σ ++ compactIds σ := by
          simp only [flushIds, mem_append, map_append, map_cons,
            map_nil, mem_singleton, Bool.false_eq_true, if_false] at hid ⊢
          tauto
        rcases hid with hid | hid
        · exact absurd (h.captured_lt c hc t ht) (by rw [hid]; exact lt_irrefl _)
        · exact h.captured_settled c hc t ht hid
      stored_flush := forall_mem_concat h.stored_flush (by simp) }

theorem apply_capture : Placement (apply filter σ .capture) := by
  have hfresh := h.nextId_fresh
  have hnodup := h.issued_nodup
  rw [← List.append_nil (issued σ)] at hfresh hnodup
  have hlt : ∀ c ∈ (apply filter σ .capture).compactions, ∀ t ∈ c.1.sstables, t.id < σ.nextId :=
    forall_mem_concat h.captured_lt fun t ht => h.table_lt ht
  exact { h with
    issued_nodup := by
      simpa [issued, flushIds, compactIds, apply] using nodup_issue hnodup hfresh
    issued_lt := by
      intro id hid
      rcases mem_append.mp hid with hid | hid
      · exact Nat.lt_succ_of_lt (h.issued_lt id (mem_append_left _ hid))
      · rcases mem_pending_capture hid with rfl | hid
        · exact Nat.lt_succ_self _
        · exact Nat.lt_succ_of_lt (h.issued_lt id (mem_append_right _ hid))
    captured_lt := fun c hc t ht => Nat.lt_succ_of_lt (hlt c hc t ht)
    captured_settled := by
      intro c hc t ht hid
      rcases mem_pending_capture hid with hid | hid
      · exact absurd (hlt c hc t ht) (by rw [hid]; exact lt_irrefl _)
      · rcases mem_compactions_capture hc with hc | rfl
        · exact h.captured_settled c hc t ht hid
        · exact h.table_settled ht hid
    captured_same := forall_mem_concat h.captured_same fun t ht u hu hid => h.table_eq hu ht hid
    stored_compact := forall_mem_concat h.stored_compact (by simp) }

theorem apply_uploadFlush (hv : Versions filter σ) {p : PendingFlush}
    (he : σ.flushes[task]? = some (p, none)) :
    Placement (apply filter σ (.uploadFlush task p)) := by
  have hids : flushIds (apply filter σ (.uploadFlush task p)) = flushIds σ :=
    map_set_of_eq he rfl
  have hissued : issued (apply filter σ (.uploadFlush task p)) = issued σ := by
    rw [issued, hids]; rfl
  have hin := mem_of_getElem? he
  have hp : p.sstableId ∈ flushIds σ := mem_flushIds he
  have hput : ∀ id, id ≠ p.sstableId → (σ.store.putSst (flushTable filter p)).sst id =
    σ.store.sst id :=
    fun id hid => Store.sst_putSst_of_ne _ hid
  exact { h with
    issued_nodup := hissued ▸ h.issued_nodup
    issued_lt := hissued ▸ h.issued_lt
    captured_settled := by rw [hids]; exact h.captured_settled
    stored := by
      intro t ht
      refine (hput _ ?_).trans (h.stored t ht)
      intro hid
      exact h.table_settled ht (mem_append_left _ (hid ▸ hp))
    stored_flush := by
      intro f hf t ht
      rcases List.mem_or_eq_of_mem_set hf with hf | rfl
      · have hid : t.id ≠ p.sstableId := by
          intro hid
          rw [hv.flush_built f hf t ht] at hid
          have : f = (p, none) := List.inj_on_of_nodup_map
            (nodup_append.mp h.pending_nodup).1 hf hin hid
          rw [this] at ht
          cases ht
        exact (hput _ hid).trans (h.stored_flush f hf t ht)
      · obtain rfl : flushTable filter p = t := Option.some.inj ht
        exact Store.sst_putSst_self _ _
    stored_compact := by
      intro c hc t ht
      refine (hput _ ?_).trans (h.stored_compact c hc t ht)
      intro hid
      rw [hv.compact_built c hc t ht] at hid
      exact (nodup_append.mp h.pending_nodup).2.2 _ hp _ (mem_map_of_mem hc)
        hid.symm }

theorem apply_uploadCompact (hv : Versions filter σ) (he : σ.compactions[task]? = some (p, none)) :
    Placement (apply filter σ (.uploadCompact task p)) := by
  have hids : compactIds (apply filter σ (.uploadCompact task p)) = compactIds σ :=
    map_set_of_eq he rfl
  have hissued : issued (apply filter σ (.uploadCompact task p)) = issued σ := by
    rw [issued, hids]; rfl
  have hin := mem_of_getElem? he
  have hp : p.newId ∈ compactIds σ := mem_compactIds he
  have hput : ∀ id, id ≠ p.newId → (σ.store.putSst (mergedTable filter p)).sst id =
    σ.store.sst id :=
    fun id hid => Store.sst_putSst_of_ne _ hid
  exact { h with
    issued_nodup := hissued ▸ h.issued_nodup
    issued_lt := hissued ▸ h.issued_lt
    captured_lt := forall_mem_set h.captured_lt (h.captured_lt (p, none) hin)
    captured_settled := by
      rw [hids]
      exact forall_mem_set h.captured_settled (h.captured_settled (p, none) hin)
    captured_same := forall_mem_set h.captured_same (h.captured_same (p, none) hin)
    stored := by
      intro t ht
      refine (hput _ ?_).trans (h.stored t ht)
      intro hid
      exact h.table_settled ht (mem_append_right _ (hid ▸ hp))
    stored_flush := by
      intro f hf t ht
      refine (hput _ ?_).trans (h.stored_flush f hf t ht)
      intro hid
      rw [hv.flush_built f hf t ht] at hid
      exact (nodup_append.mp h.pending_nodup).2.2 _ (mem_map_of_mem hf) _ hp hid
    stored_compact := by
      intro c hc t ht
      rcases List.mem_or_eq_of_mem_set hc with hc | rfl
      · have hid : t.id ≠ p.newId := by
          intro hid
          rw [hv.compact_built c hc t ht] at hid
          have : c = (p, none) := List.inj_on_of_nodup_map
            (nodup_append.mp h.pending_nodup).2.1 hc hin hid
          rw [this] at ht
          cases ht
        exact (hput _ hid).trans (h.stored_compact c hc t ht)
      · obtain rfl : mergedTable filter p = t := Option.some.inj ht
        exact Store.sst_putSst_self _ _ }

theorem apply_publish (hv : Versions filter σ) {p : PendingFlush}
    (he : σ.flushes[task]? = some (p, some t)) :
    Placement (apply filter σ (.publish task p t lease)) := by
  have hid : t.id = p.sstableId := by rw [hv.flush_table he]; rfl
  have hmap : (flushIds σ)[task]? = some t.id := by
    rw [flushIds, List.getElem?_map, he, hid]; rfl
  set σ' := apply filter σ (.publish task p t lease)
  have hissued : (issued σ').Perm (issued σ) := by
    simpa [σ', issued, flushIds, compactIds, apply, Sys.tables, List.eraseIdx_map] using
      perm_move (σ.tables.map SSTable.id) (compactIds σ) hmap
  have hpending : (flushIds σ' ++ compactIds σ').Sublist (flushIds σ ++ compactIds σ) :=
    (map_eraseIdx_sublist _ σ.flushes task).append_right _
  exact { h with
    issued_nodup := hissued.nodup_iff.mpr h.issued_nodup
    issued_lt := fun id hid => h.issued_lt id (hissued.mem_iff.mp hid)
    captured_settled := fun c hc u hu hid => h.captured_settled c hc u hu (hpending.subset hid)
    captured_same := by
      intro c hc u hu x hx hxu
      rcases mem_append.mp hx with hx | hx
      · exact h.captured_same c hc u hu x hx hxu
      · rw [mem_singleton.mp hx, hid] at hxu
        exact absurd (mem_append_left _ (hxu ▸ mem_flushIds he))
          (h.captured_settled c hc u hu)
    etag := rfl
    manifest_ids := by
      simp [σ', Store.manifestIds, apply, flushManifest, Sys.tables, hid]
    stored := forall_mem_concat h.stored (h.stored_flush _ (mem_of_getElem? he) t rfl)
    stored_flush := fun f hf => h.stored_flush f (mem_of_mem_eraseIdx hf) }

theorem apply_replace (hv : Versions filter σ) {lease : LeaseHandle}
    (he : σ.compactions[task]? = some (p, some merged)) :
    Placement (apply filter σ (.replace task p merged lease deleted)) := by
  have hin := mem_of_getElem? he
  have hid : merged.id = p.newId := by rw [hv.merged_table he]; rfl
  have hmap : (compactIds σ)[task]? = some merged.id := by
    rw [compactIds, List.getElem?_map, he, hid]; rfl
  have hperm : (σ.tables.map SSTable.id ++ flushIds σ ++ [merged.id] ++
      ((compactIds σ).eraseIdx task ++ [])).Perm
      (σ.tables.map SSTable.id ++ flushIds σ ++ (compactIds σ ++ [])) := perm_move _ _ hmap
  set σ' := apply filter σ (.replace task p merged lease deleted)
  have hissued : issued σ' = (reconcile σ.tables p merged).map SSTable.id ++ (flushIds σ ++
      (compactIds σ).eraseIdx task) := by
    rw [compactIds, List.eraseIdx_map]; rfl
  have hsub : (issued σ').Subperm (issued σ) := by
    set kept := σ.tables.filter fun t => t.id ∉ p.sstables.map SSTable.id
    have hkeep : (kept.map SSTable.id).Sublist (σ.tables.map SSTable.id) :=
      List.filter_sublist.map _
    have hswap : (issued σ').Perm
        (kept.map SSTable.id ++ (flushIds σ ++ [merged.id] ++ (compactIds σ).eraseIdx task)) := by
      simp only [hissued, reconcile, map_append, map_cons, map_nil, append_assoc,
        List.singleton_append]
      exact (List.perm_middle.symm).append_left _
    refine hswap.subperm.trans ((hkeep.append (List.Sublist.refl _)).subperm.trans ?_)
    have := hperm.subperm
    simpa [issued] using this
  have hpending : (flushIds σ ++ (σ.compactions.eraseIdx task).map (fun c => c.1.newId)).Sublist
      (flushIds σ ++ compactIds σ) := (map_eraseIdx_sublist _ σ.compactions task).append_left _
  have hkept : ∀ id, id ∉ p.sstables.map SSTable.id → σ'.store.sst id = σ.store.sst id :=
    fun id hid => Store.sst_deleteSsts_of_notMem _ fun hm => hid (mem_filter.mp hm).1
  have hpend : ∀ id ∈ flushIds σ ++ compactIds σ, id ∉ p.sstables.map SSTable.id := by
    intro id hid hm
    obtain ⟨t, ht, rfl⟩ := mem_map.mp hm
    exact h.captured_settled _ hin t ht hid
  exact {
    issued_nodup := by
      obtain ⟨l, hl, hs⟩ := hsub
      exact hl.nodup_iff.mp (h.issued_nodup.sublist hs)
    issued_lt := fun id hid => h.issued_lt id (hsub.subset hid)
    captured_lt := fun c hc => h.captured_lt c (mem_of_mem_eraseIdx hc)
    captured_settled := fun c hc t ht hid =>
      h.captured_settled c (mem_of_mem_eraseIdx hc) t ht (hpending.subset hid)
    captured_same := by
      intro c hc t ht u hu hut
      rcases mem_append.mp hu with hu | hu
      · exact h.captured_same c (mem_of_mem_eraseIdx hc) t ht u (mem_filter.mp hu).1 hut
      · rw [mem_singleton.mp hu, hid] at hut
        exact absurd (mem_append_right _ (hut ▸ mem_compactIds he))
          (h.captured_settled c (mem_of_mem_eraseIdx hc) t ht)
    etag := rfl
    manifest_ids := List.Perm.refl _
    stored := by
      intro u hu
      rcases mem_append.mp hu with hu | hu
      · obtain ⟨hu, hnot⟩ := mem_filter.mp hu
        exact (hkept _ (by simpa using hnot)).trans (h.stored u hu)
      · rw [mem_singleton.mp hu, hkept _ (hpend _ (mem_append_right _
          (hid ▸ mem_compactIds he)))]
        exact h.stored_compact _ hin merged rfl
    stored_flush := by
      intro f hf t ht
      rw [hkept _ (hpend _ (mem_append_left _ ?_))]
      · exact h.stored_flush f hf t ht
      · rw [hv.flush_built f hf t ht]
        exact mem_map_of_mem hf
    stored_compact := by
      intro c hc t ht
      have hc := mem_of_mem_eraseIdx hc
      rw [hkept _ (hpend _ (mem_append_right _ ?_))]
      · exact h.stored_compact c hc t ht
      · rw [hv.compact_built c hc t ht]
        exact mem_map_of_mem hc }

theorem apply_op (hv : Versions filter σ) {op : Op} (he : Enabled σ op) :
    Placement (apply filter σ op) := by
  cases op with
  | failAppend | addRows | ack => exact { h with }
  | freeze => exact h.apply_freeze
  | uploadFlush => exact h.apply_uploadFlush hv he
  | dropFlush task => exact h.of_sublist (List.eraseIdx_sublist _ task) (List.Sublist.refl _)
  | shipSegment =>
    exact { h with
      etag := h.etag.trans (manifest_shipSegment).symm
      manifest_ids := by
        rw [manifestIds_eq (manifest_shipSegment)]
        exact h.manifest_ids
      stored := by rw [sst_shipSegment]; exact h.stored
      stored_flush := by rw [sst_shipSegment]; exact h.stored_flush
      stored_compact := by rw [sst_shipSegment]; exact h.stored_compact }
  | publish => exact h.apply_publish hv he.1
  | truncateLog => exact { h with }
  | capture => exact h.apply_capture
  | uploadCompact => exact h.apply_uploadCompact hv he
  | dropCompact task => exact h.of_sublist (List.Sublist.refl _) (List.eraseIdx_sublist _ task)
  | replace => exact h.apply_replace hv he.1
  | setSnapshots => exact { h with }

end Placement

structure Live (filter : BloomFilter) (σ : Sys) : Prop where
  versions : Versions filter σ
  placement : Placement σ

namespace Live

variable {filter : BloomFilter} {σ : Sys}

theorem apply_op (h : Live filter σ) (he : Enabled σ op) : Live filter (apply filter σ op) :=
  ⟨h.versions.apply_op he, h.placement.apply_op h.versions he⟩

theorem initial_live : Live filter (initial path) := by
  constructor
  · constructor <;> simp [initial, freshEngine, NewestFirst, Functional, Sys.mem, Sys.tables]
  · constructor <;> simp [initial, freshEngine, issued, flushIds, compactIds, Sys.tables,
      Store.manifestIds, Store.empty, Manifest.default]

end Live
end StorageLsmInvariant
