import Keystone.StorageLsmInvariant

/-! # Reading the newest version from a live engine

Memtable, immutable memtable and tables form a stack whose layers are ordered by sequence number, as
long as no memtable is frozen over an occupied slot and no merged table is pushed over a table that
shares a key with it. -/
namespace StorageLsmLayering

open List VersionedLayers
open StorageInternalKey StorageMemTable StorageLsmEngine StorageLsmSystem
open StorageLsmReads StorageLsmCompaction StorageLsmSteps StorageLsmInvariant
open LsmEngine (compactRun reconcile insertRow)

def SlotFree (σ : Sys) : Prop := ∀ m ∈ σ.imm, m.toEntries.entries = []

def KeysDisjoint (a b : List (Version Bytes Bytes)) : Prop := ∀ v ∈ a, ∀ w ∈ b, v.key ≠ w.key

/-- The captured tables are still live, and no other live table has a key of theirs. -/
def CompactSafe (σ : Sys) (p : PendingCompaction) : Prop :=
  (∀ t ∈ p.sstables, t.id ∈ σ.tables.map SSTable.id) ∧
    ∀ t ∈ σ.tables, t.id ∉ p.sstables.map SSTable.id → KeysDisjoint t.rows (captured p)

instance (σ : Sys) : Decidable (SlotFree σ) := inferInstanceAs (Decidable (∀ m ∈ σ.imm, _))
instance (a b : List (Version Bytes Bytes)) : Decidable (KeysDisjoint a b) :=
  inferInstanceAs (Decidable (∀ v ∈ a, ∀ w ∈ b, v.key ≠ w.key))
instance (σ : Sys) (p : PendingCompaction) : Decidable (CompactSafe σ p) :=
  inferInstanceAs (Decidable (_ ∧ _))

def LayerSafe (σ : Sys) : Op → Prop
  | .freeze => SlotFree σ
  | .replace _ p _ _ _ => CompactSafe σ p
  | _ => True

def Precedes (lower upper : List (Version Bytes Bytes)) : Prop :=
  ∀ b ∈ lower, ∀ a ∈ upper, b.key = a.key → b.seq ≤ a.seq

variable {a b : List (Version Bytes Bytes)}

theorem KeysDisjoint.precedes (h : KeysDisjoint a b) :
    Precedes a b := fun v hv w hw hk => absurd hk (h v hv w hw)

theorem KeysDisjoint.newer (h : KeysDisjoint a b) : Newer a b :=
  fun v hv w hw hk => absurd hk (h v hv w hw)

theorem KeysDisjoint.symm (h : KeysDisjoint a b) :
    KeysDisjoint b a := fun v hv w hw hk => h w hw v hv hk.symm

theorem KeysDisjoint.mono (h : KeysDisjoint a b)
    (hb : ∀ v ∈ b', v ∈ b) : KeysDisjoint a b' := fun v hv w hw => h v hv w (hb w hw)

structure Stacked (σ : Sys) : Prop where
  mem_imm : ∀ a ∈ σ.mem.rows, ∀ m ∈ σ.imm, ∀ b ∈ m.rows, b.seq < a.seq
  mem_table : ∀ a ∈ σ.mem.rows, ∀ t ∈ σ.tables, ∀ b ∈ t.rows, b.seq < a.seq
  imm_table : ∀ m ∈ σ.imm, ∀ a ∈ m.rows, ∀ t ∈ σ.tables, ∀ b ∈ t.rows, b.seq < a.seq
  recent : σ.tables.Pairwise fun a b => Precedes a.rows b.rows
  flush_imm : ∀ f ∈ σ.flushes, ∃ m ∈ σ.imm, f.1.entries = m.toEntries
  flush_nonempty : ∀ f ∈ σ.flushes, f.1.entries.entries ≠ []
  flush_single : σ.flushes.length ≤ 1

variable {filter : BloomFilter} {σ : Sys} {c : PendingCompaction × Option SSTable} {t : SSTable}

theorem captured_listed (hl : Live filter σ) (hc : c ∈ σ.compactions) (ht : t ∈ c.1.sstables)
    (hid : t.id ∈ σ.tables.map SSTable.id) : t ∈ σ.tables := by
  obtain ⟨u, hu, hid⟩ := mem_map.mp hid
  rw [← hl.placement.captured_same c hc t ht u hu hid]
  exact hu

theorem CompactSafe.listed (hl : Live filter σ) (hc : c ∈ σ.compactions) (h : CompactSafe σ c.1)
    (ht : t ∈ c.1.sstables) : t ∈ σ.tables :=
  captured_listed hl hc ht (h.1 t ht)

theorem captured_or_survives (hl : Live filter σ) (hc : c ∈ σ.compactions) (ht : t ∈ σ.tables) :
    t ∈ c.1.sstables ∨ t.id ∉ c.1.sstables.map SSTable.id := by
  by_cases hid : t.id ∈ c.1.sstables.map SSTable.id
  · obtain ⟨u, hu, hut⟩ := mem_map.mp hid
    rw [hl.placement.captured_same c hc u hu t ht hut.symm]
    exact .inl hu
  · exact .inr hid

def survivors (σ : Sys) (p : PendingCompaction) : List SSTable :=
  σ.tables.filter fun t => t.id ∉ p.sstables.map SSTable.id

variable {p : PendingCompaction}

theorem mem_survivors : t ∈ survivors σ p ↔ t ∈ σ.tables ∧ t.id ∉ p.sstables.map SSTable.id := by
  simp [survivors]

theorem tableRows_split (hl : Live filter σ) (hc : c ∈ σ.compactions)
    (hlive : ∀ t ∈ c.1.sstables, t ∈ σ.tables) (v : Version Bytes Bytes) :
    v ∈ tableRows σ.tables ↔ v ∈ tableRows (survivors σ c.1) ∨ v ∈ captured c.1 := by
  rw [mem_tableRows, mem_tableRows, mem_captured]
  constructor
  · rintro ⟨t, ht, hv⟩
    rcases captured_or_survives hl hc ht with hcap | hsurv
    · exact .inr ⟨t, hcap, hv⟩
    · exact .inl ⟨t, mem_survivors.mpr ⟨ht, hsurv⟩, hv⟩
  · rintro (⟨t, ht, hv⟩ | ⟨t, ht, hv⟩)
    · exact ⟨t, (mem_survivors.mp ht).1, hv⟩
    · exact ⟨t, hlive t ht, hv⟩

variable {task : ℕ} {merged : SSTable} {lease : LeaseHandle} {deleted : ℕ → Bool}

theorem tableRows_replace (hl : Live filter σ) (he : σ.compactions[task]? = some (p, some merged))
    (v : Version Bytes Bytes) :
    v ∈ tableRows (apply filter σ (.replace task p merged lease deleted)).tables ↔
      v ∈ tableRows (survivors σ p) ∨ v ∈ (compactRun p).rows := by
  have hmerged : merged.rows = (compactRun p).rows := by rw [hl.versions.merged_table he]; rfl
  rw [← hmerged, ← mem_tableRows_singleton, ← mem_tableRows_append]
  rfl

namespace Stacked

variable {filter : BloomFilter} {σ : Sys}

variable (h : Stacked σ)

include h

theorem layers_ordered : (layers σ.engine.view).Pairwise Newer := by
  have hnewer : ∀ {upper lower : List (Version Bytes Bytes)},
      (∀ a ∈ upper, ∀ b ∈ lower, b.seq < a.seq) → Newer upper lower :=
    fun hlt a ha b hb _ => .inr (le_of_lt (hlt a ha b hb))
  refine pairwise_cons.mpr ⟨?_, pairwise_append.mpr ⟨?_, ?_, ?_⟩⟩
  · intro rows hrows
    rcases mem_append.mp hrows with hr | hr
    · obtain ⟨m, hm, rfl⟩ := mem_map.mp hr
      exact hnewer fun a ha b hb => h.mem_imm a ha m (Option.mem_toList.mp hm) b hb
    · obtain ⟨t, ht, rfl⟩ := mem_map.mp hr
      exact hnewer fun a ha b hb => h.mem_table a ha t (mem_reverse.mp ht) b hb
  · cases σ.engine.view.immutable <;> simp
  · refine pairwise_map.mpr (pairwise_reverse.mpr (h.recent.imp ?_))
    intro a b hab v hv w hw hk
    exact .inr (hab w hw v hv hk.symm)
  · intro upper hu lower hl
    obtain ⟨m, hm, rfl⟩ := mem_map.mp hu
    obtain ⟨t, ht, rfl⟩ := mem_map.mp hl
    exact hnewer fun a ha b hb =>
      h.imm_table m (Option.mem_toList.mp hm) a ha t (mem_reverse.mp ht) b hb

theorem slotFree_no_flush (hfree : SlotFree σ) : σ.flushes = [] := by
  cases hf : σ.flushes with
  | nil => rfl
  | cons f rest =>
    have hmem : f ∈ σ.flushes := by rw [hf]; exact mem_cons_self
    obtain ⟨m, hm, heq⟩ := h.flush_imm f hmem
    exact absurd (heq ▸ hfree m hm) (h.flush_nonempty f hmem)

theorem apply_freeze (hfree : SlotFree σ) : Stacked (apply filter σ .freeze) := by
  have hflushes : ∀ f ∈ (apply filter σ .freeze).flushes,
      f = (⟨σ.mem.toEntries, σ.nextId⟩, none) ∧ σ.mem.toEntries.entries ≠ [] := by
    intro f hf
    simp only [apply, h.slotFree_no_flush hfree] at hf
    split_ifs at hf with hemp
    · cases hf
    · exact ⟨mem_singleton.mp hf, by simpa using hemp⟩
  exact { h with
    mem_imm := by simp [apply, Sys.mem]
    mem_table := by simp [apply, Sys.mem]
    imm_table := by
      intro m hm a ha t ht b hb
      obtain rfl : σ.mem = m := Option.some.inj hm
      exact h.mem_table a ha t ht b hb
    flush_imm := by
      intro f hf
      obtain ⟨rfl, _⟩ := hflushes f hf
      exact ⟨σ.mem, rfl, rfl⟩
    flush_nonempty := by
      intro f hf
      obtain ⟨rfl, hne⟩ := hflushes f hf
      exact hne
    flush_single := by
      simp only [apply, h.slotFree_no_flush hfree]
      split_ifs <;> simp }

variable {task : ℕ}

theorem publish_rows (hv : Versions filter σ) {p : PendingFlush}
    (he : σ.flushes[task]? = some (p, some t)) : ∃ m ∈ σ.imm, t.rows = m.rows := by
  obtain ⟨m, hm, heq⟩ := h.flush_imm _ (mem_of_getElem? he)
  refine ⟨m, hm, ?_⟩
  rw [hv.flush_table he, flushTable, SSTable.rows_create]
  exact congrArg SortedRun.rows heq

theorem apply_publish (hv : Versions filter σ) {p : PendingFlush}
    (he : σ.flushes[task]? = some (p, some t)) :
    Stacked (apply filter σ (.publish task p t lease)) := by
  obtain ⟨m, hm, hrows⟩ := h.publish_rows hv he
  have hnone : σ.flushes.eraseIdx task = [] := by
    obtain ⟨hi, _⟩ := List.getElem?_eq_some_iff.mp he
    have hlen := length_eraseIdx_of_lt hi
    have := h.flush_single
    exact eq_nil_of_length_eq_zero (by omega)
  exact {
    mem_imm := by rintro a ha m ⟨⟩
    mem_table := fun a ha => forall_mem_concat (h.mem_table a ha) (hrows ▸ h.mem_imm a ha m hm)
    imm_table := by rintro m ⟨⟩
    recent := by
      refine pairwise_append.mpr ⟨h.recent, pairwise_singleton .., ?_⟩
      intro u hu x hx b hb a ha _
      rw [mem_singleton.mp hx, hrows] at ha
      exact le_of_lt (h.imm_table m hm a ha u hu b hb)
    flush_imm := by simp [apply, hnone]
    flush_nonempty := by simp [apply, hnone]
    flush_single := by simp [apply, hnone] }

theorem apply_replace (hl : Live filter σ) (he : σ.compactions[task]? = some (p, some merged))
    (hsafe : CompactSafe σ p) :
    Stacked (apply filter σ (.replace task p merged lease deleted)) := by
  have hin := mem_of_getElem? he
  have hmerged : ∀ v ∈ merged.rows, v ∈ captured p := by
    intro v hv
    rw [hl.versions.merged_table he] at hv
    exact compactRun_subset hv
  -- a row of the new list is a row of the old one
  have hold : ∀ u ∈ reconcile σ.tables p merged, ∀ b ∈ u.rows, ∃ t ∈ σ.tables, b ∈ t.rows := by
    intro u hu b hb
    rcases mem_append.mp hu with hu | hu
    · exact ⟨u, (mem_filter.mp hu).1, hb⟩
    · rw [mem_singleton.mp hu] at hb
      obtain ⟨t, ht, hb⟩ := mem_captured.mp (hmerged b hb)
      exact ⟨t, hsafe.listed hl hin ht, hb⟩
  exact { h with
    mem_table := by
      intro a ha u hu b hb
      obtain ⟨t, ht, hb⟩ := hold u hu b hb
      exact h.mem_table a ha t ht b hb
    imm_table := by
      intro m hm a ha u hu b hb
      obtain ⟨t, ht, hb⟩ := hold u hu b hb
      exact h.imm_table m hm a ha t ht b hb
    recent := by
      refine pairwise_append.mpr ⟨h.recent.filter _, pairwise_singleton .., ?_⟩
      intro u hu x hx b hb a ha hk
      obtain ⟨hu, hnot⟩ := mem_filter.mp hu
      rw [mem_singleton.mp hx] at ha
      exact absurd hk (hsafe.2 u hu (by simpa using hnot) b hb a (hmerged a ha)) }

theorem apply_op (hl : Live filter σ) (he : Enabled σ op)
    (hs : LayerSafe σ op) : Stacked (apply filter σ op) := by
  cases op with
  | failAppend => exact { h with }
  | addRows b =>
    have hnew : ∀ a ∈ (apply filter σ (.addRows b)).mem.rows, a.seq = σ.nextSeq ∨
      a ∈ σ.mem.rows := by
      intro a ha
      rcases (hl.versions.mem_rows_addRows b).mp ha with ha | ha
      · exact .inl (seq_of_mem_versions ha)
      · exact .inr ha
    exact { h with
      mem_imm := by
        intro a ha m hm x hx
        rcases hnew a ha with hseq | ha
        · rw [hseq]; exact hl.versions.bounded x (hl.versions.imm_sound m hm x hx)
        · exact h.mem_imm a ha m hm x hx
      mem_table := by
        intro a ha t ht x hx
        rcases hnew a ha with hseq | ha
        · rw [hseq]; exact hl.versions.bounded x (hl.versions.table_sound t ht x hx)
        · exact h.mem_table a ha t ht x hx }
  | ack => exact { h with }
  | freeze => exact h.apply_freeze hs
  | uploadFlush task p =>
    have hin := mem_of_getElem? he
    exact { h with
      flush_imm := forall_mem_set h.flush_imm (h.flush_imm (p, none) hin)
      flush_nonempty := forall_mem_set h.flush_nonempty (h.flush_nonempty (p, none) hin)
      flush_single := by simpa [apply] using h.flush_single }
  | dropFlush task =>
    exact { h with
      flush_imm := fun f hf => h.flush_imm f (mem_of_mem_eraseIdx hf)
      flush_nonempty := fun f hf => h.flush_nonempty f (mem_of_mem_eraseIdx hf)
      flush_single := ((eraseIdx_sublist _ task).length_le).trans h.flush_single }
  | shipSegment => exact { h with }
  | publish => exact h.apply_publish hl.versions he.1
  | truncateLog | capture | uploadCompact | dropCompact => exact { h with }
  | replace => exact h.apply_replace hl he.1 hs
  | setSnapshots => exact { h with }

end Stacked

abbrev held (σ : Sys) : List (Version Bytes Bytes) := (layers σ.engine.view).flatten

abbrev Covered (σ : Sys) (k : Bytes) (s : ℕ) : Prop := CoveredAt σ.applied (held σ) k s

def Current (σ : Sys) : Prop := ∀ k s, σ.nextSeq ≤ s + 1 → Covered σ k s

section Reads

variable {filter : BloomFilter} {σ : Sys} {k : Bytes} {s : ℕ}

theorem held_sound (hv : Versions filter σ) : ∀ v ∈ held σ, v ∈ σ.applied := by
  intro v h
  rcases mem_layers_flatten.mp h with h | ⟨m, hm, h⟩ | ⟨t, ht, h⟩
  · exact hv.mem_sound v h
  · exact hv.imm_sound m hm v h
  · exact hv.table_sound t ht v h

theorem readAt_eq_valueAt (hv : Versions filter σ) (hs : Stacked σ) (hc : Covered σ k s) :
    σ.engine.readAt k s = valueAt σ.applied k s := by
  rw [LsmEngine.readAt, readAt_eq_readLayers]
  exact readLayers_eq_valueAt hv.newest hv.functional (layers_newestFirst _) hs.layers_ordered
    (held_sound hv) hc

theorem held_addRows (hv : Versions filter σ) (b : Batch) (v : Version Bytes Bytes) :
    v ∈ held (apply filter σ (.addRows b)) ↔ v ∈ b.versions σ.nextSeq ∨ v ∈ held σ := by
  have hmem := hv.mem_rows_addRows b (v := v)
  rw [mem_layers_flatten, mem_layers_flatten]
  exact (or_congr_left hmem).trans or_assoc

theorem held_freeze (hfree : SlotFree σ) (v : Version Bytes Bytes) :
    v ∈ held (apply filter σ .freeze) ↔ v ∈ held σ := by
  have himm : ¬ ∃ m ∈ σ.imm, v ∈ m.rows := by
    rintro ⟨m, hm, hv⟩
    simp [MemTable.rows, SortedRun.rows, hfree m hm] at hv
  rw [mem_layers_flatten, mem_layers_flatten]
  simp only [apply, MemTable.rows_new, not_mem_nil, false_or, Option.mem_def,
    Option.some.injEq, exists_eq_left']
  have : ¬ ∃ imm, σ.engine.view.immutable = some imm ∧ v ∈ imm.rows := himm
  rw [or_iff_right this]

theorem held_publish (hs : Stacked σ) (hv : Versions filter σ) {p : PendingFlush}
    (he : σ.flushes[task]? = some (p, some t)) (v : Version Bytes Bytes) :
    v ∈ held (apply filter σ (.publish task p t lease)) ↔ v ∈ held σ := by
  obtain ⟨m, hm, hrows⟩ := hs.publish_rows hv he
  have hm' : σ.engine.view.immutable = some m := hm
  rw [mem_layers_flatten, mem_layers_flatten]
  simp only [apply, hm', mem_append, mem_singleton, Option.mem_def, reduceCtorEq,
    false_and, exists_false, false_or, Option.some.injEq, exists_eq_left']
  constructor
  · rintro (h | ⟨u, hu | rfl, h⟩)
    · exact .inl h
    · exact .inr (.inr ⟨u, hu, h⟩)
    · exact .inr (.inl (hrows ▸ h))
  · rintro (h | h | ⟨u, hu, h⟩)
    · exact .inl h
    · exact .inr ⟨t, .inr rfl, hrows ▸ h⟩
    · exact .inr ⟨u, .inl hu, h⟩

/-- A compaction keeps a read covered if it has no captured version between the read's
sequence number and its watermark. -/
theorem covered_replace (hl : Live filter σ) (hs : Stacked σ)
    (he : σ.compactions[task]? = some (p, some merged)) (hsafe : CompactSafe σ p)
    (hgap : NoGap p k s) (hc : Covered σ k s) :
    Covered (apply filter σ (.replace task p merged lease deleted)) k s := by
  have hin := mem_of_getElem? he
  have hsplit := tableRows_split hl hin fun t ht => hsafe.listed hl hin ht
  have hold : ∀ v, v ∈ held σ ↔
      v ∈ (layers { σ.engine.view with sstables := survivors σ p }).flatten ∨ v ∈ captured p := by
    intro v
    rw [mem_layers_flatten, mem_layers_flatten, ← mem_tableRows, ← mem_tableRows, hsplit,
      or_assoc, or_assoc]
  have hnew : ∀ v, v ∈ held (apply filter σ (.replace task p merged lease deleted)) ↔
      v ∈ (layers { σ.engine.view with sstables := survivors σ p }).flatten ∨
        v ∈ (compactRun p).rows := by
    intro v
    rw [mem_layers_flatten, mem_layers_flatten, ← mem_tableRows, ← mem_tableRows,
      tableRows_replace hl he, or_assoc, or_assoc]
    rfl
  refine CoveredAt.replace hc hold hnew (fun v => compactRun_subset)
    (hl.versions.captured_sound _ hin)
    (compactRun_covers (hl.versions.captured_functional hin) hgap) ?_
  -- the captured version is older than both memtables, and no survivor has its key
  intro v hv hnewest w hw hwk hws
  obtain ⟨t, ht, hvt⟩ := mem_captured.mp hv
  have ht := hsafe.listed hl hin ht
  rcases mem_layers_flatten.mp hw with hw | ⟨m, hm, hw⟩ | ⟨u, hu, hw⟩
  · have h1 := hs.mem_table w hw t ht v hvt
    have h2 := hnewest.maximal w (hl.versions.mem_sound w hw) hwk hws
    omega
  · have h1 := hs.imm_table m hm w hw t ht v hvt
    have h2 := hnewest.maximal w (hl.versions.imm_sound m hm w hw) hwk hws
    omega
  · obtain ⟨hu, hnot⟩ := mem_survivors.mp hu
    exact absurd (hwk.trans hnewest.key_eq.symm) (hsafe.2 u hu hnot w hw v hv)

/-- The one change that can uncover a read is a compaction with a gap above it. -/
def GapSafe (k : Bytes) (s : ℕ) : Op → Prop
  | .replace _ p _ _ _ => NoGap p k s
  | _ => True

theorem covered_op (hl : Live filter σ) (hs : Stacked σ) (he : Enabled σ op)
    (hsafe : LayerSafe σ op)
    (hgap : GapSafe k s op) (hlt : s < σ.nextSeq) (hc : Covered σ k s) :
    Covered (apply filter σ op) k s := by
  cases op with
  | addRows b =>
    refine CoveredAt.append_above hc ?_ (held_addRows hl.versions b)
    intro v hv
    rw [seq_of_mem_versions hv]
    exact hlt
  | freeze => exact CoveredAt.congr hc (held_freeze hsafe)
  | publish => exact CoveredAt.congr hc (held_publish hs hl.versions he.1)
  | replace => exact covered_replace hl hs he.1 hsafe hgap hc
  | _ => exact hc

theorem noGap_current (hl : Live filter σ) (hc : c ∈ σ.compactions) (hcur : σ.nextSeq ≤ s + 1) :
    NoGap c.1 k s := by
  intro v hv _ hlt
  have := hl.versions.bounded v (hl.versions.captured_sound c hc v hv)
  omega

theorem Current.apply_op (h : Current σ) (hl : Live filter σ) (hs : Stacked σ)
    (he : Enabled σ op) (hsafe : LayerSafe σ op) : Current (apply filter σ op) := by
  intro k s hcur
  cases op with
  | failAppend => exact h k s (Nat.le_of_succ_le hcur)
  | addRows b =>
    refine CoveredAt.append_newest (h k s (Nat.le_of_succ_le hcur)) ?_ ?_
      (held_addRows hl.versions b)
    · intro v hv w hw
      rw [seq_of_mem_versions hv]
      exact hl.versions.bounded w hw
    · intro v hv
      rw [seq_of_mem_versions hv]
      exact Nat.le_of_succ_le_succ hcur
  | freeze => exact CoveredAt.congr (h k s hcur) (held_freeze hsafe)
  | publish => exact CoveredAt.congr (h k s hcur) (held_publish hs hl.versions he.1)
  | replace =>
    exact covered_replace hl hs he.1 hsafe
      (noGap_current hl (mem_of_getElem? he.1) hcur) (h k s hcur)
  | _ => exact h k s hcur

end Reads

structure Reading (filter : BloomFilter) (σ : Sys) : Prop where
  live : Live filter σ
  stacked : Stacked σ
  current : Current σ

namespace Reading

variable {filter : BloomFilter} {σ : Sys}

theorem apply_op (h : Reading filter σ) (he : Enabled σ op) (hsafe : LayerSafe σ op) :
    Reading filter (apply filter σ op) :=
  ⟨h.live.apply_op he, h.stacked.apply_op h.live he hsafe,
    h.current.apply_op h.live h.stacked he hsafe⟩

theorem initial_reading : Reading filter (initial path) := by
  refine ⟨.initial_live, by constructor <;> simp [initial, freshEngine, Sys.mem, Sys.tables], ?_⟩
  intro k s _ v hv
  exact absurd hv.mem (by simp [initial])

/-- A read at or above the current sequence number returns the latest write. -/
theorem readAt_latest (h : Reading filter σ) (hs : σ.nextSeq ≤ s + 1) :
    σ.engine.readAt k s = latest σ.applied k := by
  rw [readAt_eq_valueAt h.live.versions h.stacked (h.current k s hs)]
  refine valueAt_eq_latest fun v hv => ?_
  have := h.live.versions.bounded v hv
  omega

end Reading
end StorageLsmLayering
