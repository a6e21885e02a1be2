import Keystone.StorageLsmTableOrder

/-! # What survives a crash

Only the log file and the store survive. An acknowledged write is recovered as long as the log is
cut only when everything it holds is in a live table, and as long as a table's id tells its recency.
-/
namespace StorageLsmDurability

open GuardedRuns List VersionedLayers
open StorageMemTable StorageLsmEngine StorageLsmSystem
open StorageLsmReads StorageLsmCompaction StorageLsmSteps StorageLsmInvariant StorageLsmLayering
open StorageLsmConcurrentReads StorageLsmTableOrder StorageLsmRecovery
open LsmEngine (compactRun reconcile)

/-- No live table that would sort above the flushed one shares a key with it. -/
def FlushInOrder (σ : Sys) (p : PendingFlush) : Prop :=
  ∀ u ∈ σ.tables, p.sstableId < u.id → KeysDisjoint u.rows p.entries.rows

/-- The captured tables are still live, and no other live table that would sort below the
merged one shares a key with them. -/
def CompactInOrder (σ : Sys) (p : PendingCompaction) : Prop :=
  (∀ t ∈ p.sstables, t.id ∈ σ.tables.map SSTable.id) ∧
    ∀ u ∈ σ.tables, u.id ∉ p.sstables.map SSTable.id → u.id < p.newId →
      KeysDisjoint u.rows (captured p)

def IdSafe (σ : Sys) : Op → Prop
  | .publish _ p _ _ => FlushInOrder σ p
  | .replace _ p _ _ _ => CompactInOrder σ p
  | _ => True

def Viable (σ : Sys) (p : PendingCompaction) : Prop := ∀ t ∈ p.sstables, t ∈ σ.tables

/-- Ids rank tables by recency: the live ones, those that flushes in flight will add, and
those that viable compactions will add. -/
structure Ranked (σ : Sys) : Prop where
  by_id : ∀ a ∈ σ.tables, ∀ b ∈ σ.tables, a.id < b.id → Newer b.rows a.rows
  flush_table : ∀ f ∈ σ.flushes, ∀ t ∈ σ.tables, t.id < f.1.sstableId →
    Newer f.1.entries.rows t.rows
  flush_flush : ∀ f ∈ σ.flushes, ∀ g ∈ σ.flushes, g.1.sstableId < f.1.sstableId →
    Newer f.1.entries.rows g.1.entries.rows
  flush_captured : ∀ f ∈ σ.flushes, ∀ c ∈ σ.compactions, c.1.newId < f.1.sstableId →
    Newer f.1.entries.rows (captured c.1)
  table_captured : ∀ c ∈ σ.compactions, Viable σ c.1 → ∀ t ∈ σ.tables, c.1.newId < t.id →
    Newer t.rows (captured c.1)
  nested : ∀ c ∈ σ.compactions, ∀ d ∈ σ.compactions, c.1.newId < d.1.newId → Viable σ c.1 →
    ∀ t ∈ c.1.sstables, t ∈ d.1.sstables
  captured_some : ∀ c ∈ σ.compactions, c.1.sstables ≠ []

namespace Ranked

variable {filter : BloomFilter} {σ : Sys}

theorem apply_freeze (h : Ranked σ) (hl : Live filter σ) (htop : TopOf σ.applied σ.mem.rows) :
    Ranked (apply filter σ .freeze) :=
  { h with
    flush_table := forall_mem_freeze h.flush_table fun t ht _ =>
      htop.newer (hl.versions.table_sound t ht)
    flush_flush := by
      intro f hf g hg hid
      rcases mem_flushes_freeze hf with hf | rfl <;> rcases mem_flushes_freeze hg with hg | rfl
      · exact h.flush_flush f hf g hg hid
      · exact absurd (hl.placement.flush_lt hf) (lt_asymm hid)
      · exact htop.newer (hl.versions.flush_sound g hg)
      · exact absurd hid (lt_irrefl _)
    flush_captured := forall_mem_freeze h.flush_captured fun c hc _ =>
      htop.newer (hl.versions.captured_sound c hc) }

theorem of_tasks (h : Ranked σ) (hf : ∀ f ∈ flushes, ∃ o, (f.1, o) ∈ σ.flushes)
    (hc : ∀ c ∈ compactions, ∃ o, (c.1, o) ∈ σ.compactions) :
    Ranked { σ with flushes := flushes, compactions := compactions, store := store } := by
  choose built hf using hf
  choose merged hc using hc
  exact { h with
    flush_table := fun f hfm => (h.flush_table _ (hf f hfm) :)
    flush_flush := fun f hfm g hgm => (h.flush_flush _ (hf f hfm) _ (hf g hgm) :)
    flush_captured := fun f hfm c hcm => (h.flush_captured _ (hf f hfm) _ (hc c hcm) :)
    table_captured := fun c hcm => (h.table_captured _ (hc c hcm) :)
    nested := fun c hcm d hdm => (h.nested _ (hc c hcm) _ (hc d hdm) :)
    captured_some := fun c hcm => (h.captured_some _ (hc c hcm) :) }

theorem apply_publish (h : Ranked σ) (hl : Live filter σ) (he : σ.flushes[task]? = some (p, some t))
    (hs : FlushInOrder σ p) : Ranked (apply filter σ (.publish task p t lease)) := by
  have hin := mem_of_getElem? he
  obtain rfl := hl.versions.flush_table he
  set σ' := apply filter σ (.publish task p (flushTable filter p) lease)
  have htables : ∀ u ∈ σ'.tables, u ∈ σ.tables ∨ u = flushTable filter p :=
    fun u hu => (mem_append.mp hu).imp_right mem_singleton.mp
  have hflushes : ∀ f ∈ σ'.flushes, f ∈ σ.flushes :=
    fun f hf => mem_of_mem_eraseIdx hf
  -- the id of a captured table is not the id of a flush in flight
  have hviable : ∀ c ∈ σ.compactions, Viable σ' c.1 → Viable σ c.1 := by
    intro c hc hv u hu
    rcases htables u (hv u hu) with hut | rfl
    · exact hut
    · exact absurd (mem_append_left _ (Placement.mem_flushIds he))
        (hl.placement.captured_settled c hc _ hu)
  exact { h with
    by_id := by
      intro a ha b hb hlt
      rcases htables a ha with ha' | rfl <;> rcases htables b hb with hb' | rfl
      · exact h.by_id a ha' b hb' hlt
      · exact h.flush_table _ hin a ha' hlt
      · exact (hs b hb' hlt).newer
      · exact absurd hlt (lt_irrefl _)
    flush_table := by
      intro f hf u hu hlt
      rcases htables u hu with hu | rfl
      · exact h.flush_table f (hflushes f hf) u hu hlt
      · exact h.flush_flush f (hflushes f hf) _ hin hlt
    flush_flush := fun f hf g hg => h.flush_flush f (hflushes f hf) g (hflushes g hg)
    flush_captured := fun f hf => h.flush_captured f (hflushes f hf)
    table_captured := by
      intro c hc hv u hu hlt
      rcases htables u hu with hu | rfl
      · exact h.table_captured c hc (hviable c hc hv) u hu hlt
      · exact h.flush_captured _ hin c hc hlt
    nested := fun c hc d hd hlt hv => h.nested c hc d hd hlt (hviable c hc hv) }

theorem apply_replace (h : Ranked σ) (hl : Live filter σ)
    (he : σ.compactions[task]? = some (p, some merged)) (hs : CompactInOrder σ p) :
    Ranked (apply filter σ (.replace task p merged lease deleted)) := by
  have hin := mem_of_getElem? he
  obtain rfl := hl.versions.merged_table he
  have hsub : ∀ v ∈ (mergedTable filter p).rows, v ∈ captured p := fun v => compactRun_subset
  have hviableP : Viable σ p := fun t ht => captured_listed hl hin ht (hs.1 t ht)
  set σ' := apply filter σ (.replace task p (mergedTable filter p) lease deleted)
  have htables : ∀ u ∈ σ'.tables, (u ∈ σ.tables ∧ u.id ∉ p.sstables.map SSTable.id) ∨
    u = mergedTable filter p := by
    intro u hu
    refine (mem_append.mp hu).imp (fun hu => ?_) mem_singleton.mp
    exact ⟨(mem_filter.mp hu).1, by simpa using (mem_filter.mp hu).2⟩
  have hcomps : ∀ c ∈ σ'.compactions, c ∈ σ.compactions := fun c hc => mem_of_mem_eraseIdx hc
  have hsurvive : ∀ c ∈ σ.compactions, Viable σ' c.1 →
      ∀ u ∈ c.1.sstables, u ∈ σ.tables ∧ u.id ∉ p.sstables.map SSTable.id := by
    intro c hc hv u hu
    rcases htables u (hv u hu) with hut | rfl
    · exact hut
    · exact absurd (mem_append_right _ (Placement.mem_compactIds he))
        (hl.placement.captured_settled c hc _ hu)
  have hviable : ∀ c ∈ σ.compactions, Viable σ' c.1 → Viable σ c.1 :=
    fun c hc hv u hu => (hsurvive c hc hv u hu).1
  exact { h with
    by_id := by
      intro a ha b hb hlt
      rcases htables a ha with ⟨ha', hna⟩ | rfl <;> rcases htables b hb with ⟨hb', _⟩ | rfl
      · exact h.by_id a ha' b hb' hlt
      · exact ((hs.2 a ha' hna hlt).mono hsub).symm.newer
      · exact (h.table_captured _ hin hviableP b hb' hlt).mono hsub
      · exact absurd hlt (lt_irrefl _)
    flush_table := by
      intro f hf u hu hlt
      rcases htables u hu with ⟨hu, _⟩ | rfl
      · exact h.flush_table f hf u hu hlt
      · exact (h.flush_captured f hf _ hin hlt).mono hsub
    flush_captured := fun f hf c hc => h.flush_captured f hf c (hcomps c hc)
    table_captured := by
      intro c hc hv u hu hlt
      have hc' := hcomps c hc
      rcases htables u hu with ⟨hu, _⟩ | rfl
      · exact h.table_captured c hc' (hviable c hc' hv) u hu hlt
      · -- an older compaction captured only tables that this one has just removed
        obtain ⟨x, hx⟩ := exists_mem_of_ne_nil _ (h.captured_some c hc')
        have hxp := h.nested c hc' _ hin hlt (hviable c hc' hv) x hx
        exact absurd (mem_map_of_mem hxp) (hsurvive c hc' hv x hx).2
    nested := fun c hc d hd hlt hv =>
      h.nested c (hcomps c hc) d (hcomps d hd) hlt (hviable c (hcomps c hc) hv)
    captured_some := fun c hc => h.captured_some c (hcomps c hc) }

theorem apply_capture (h : Ranked σ) (hl : Live filter σ) (he : Enabled σ .capture) :
    Ranked (apply filter σ .capture) :=
  { h with
    flush_captured := fun f hf => forall_mem_concat (h.flush_captured f hf) fun hlt =>
      absurd (hl.placement.flush_lt hf) (lt_asymm hlt)
    table_captured := forall_mem_concat h.table_captured fun _ t ht hlt =>
      absurd (hl.placement.table_lt ht) (lt_asymm hlt)
    nested := by
      intro c hc d hd hlt hv
      rcases mem_compactions_capture hc with hc |
        rfl <;> rcases mem_compactions_capture hd with hd | rfl
      · exact h.nested c hc d hd hlt hv
      · exact hv
      · exact absurd
          (hl.placement.issued_lt _ (mem_append_right _ (mem_append_right _ (mem_map_of_mem hd))))
          (lt_asymm hlt)
      · exact absurd hlt (lt_irrefl _)
    captured_some := forall_mem_concat h.captured_some
      (ne_nil_of_length_pos (lt_of_lt_of_le Nat.two_pos he)) }

theorem apply_op (h : Ranked σ) (hl : Live filter σ) (htop : TopOf σ.applied σ.mem.rows)
    (he : Enabled σ op) (hs : IdSafe σ op) : Ranked (apply filter σ op) := by
  cases op with
  | failAppend | addRows | ack => exact { h with }
  | freeze => exact h.apply_freeze hl htop
  | uploadFlush task p =>
    exact h.of_tasks (forall_mem_set (fun f hf => ⟨f.2, hf⟩) ⟨none, mem_of_getElem? he⟩)
      fun c hc => ⟨c.2, hc⟩
  | dropFlush task =>
    exact h.of_tasks (fun f hf => ⟨f.2, mem_of_mem_eraseIdx hf⟩) fun c hc => ⟨c.2, hc⟩
  | shipSegment => exact { h with }
  | publish => exact h.apply_publish hl he.1 hs
  | truncateLog => exact { h with }
  | capture => exact h.apply_capture hl he
  | uploadCompact task p =>
    exact h.of_tasks (fun f hf => ⟨f.2, hf⟩)
      (forall_mem_set (fun c hc => ⟨c.2, hc⟩) ⟨none, mem_of_getElem? he⟩)
  | dropCompact task =>
    exact h.of_tasks (fun f hf => ⟨f.2, hf⟩) fun c hc => ⟨c.2, mem_of_mem_eraseIdx hc⟩
  | replace => exact h.apply_replace hl he.1 hs
  | setSnapshots => exact { h with }

end Ranked

def CutSafe (σ : Sys) : Op → Prop
  | .truncateLog .ok => σ.mem.rows = [] ∧ σ.flushes = [] ∧
      ∀ v ∈ replayedRows σ.wal, v ∈ tableRows σ.tables
  | _ => True

/-- Log and live tables together hold the newest version of every key, and the log holds
whatever is not yet in a live table. -/
structure Durable (filter : BloomFilter) (log : List (ℕ × Batch)) (σ : Sys) : Prop where
  logged : Logged filter log σ
  ranked : Ranked σ
  log_top : TopOf σ.applied (logRows log)
  mem_top : TopOf σ.applied σ.mem.rows
  mem_logged : ∀ v ∈ σ.mem.rows, v ∈ logRows log
  flush_logged : ∀ f ∈ σ.flushes, ∀ v ∈ f.1.entries.rows, v ∈ logRows log
  covered : ∀ k s, (∀ v ∈ σ.applied, v.seq ≤ s) →
    CoveredAt σ.applied (logRows log ++ tableRows σ.tables) k s

namespace Durable

variable {filter : BloomFilter} {σ : Sys} {log : List (ℕ × Batch)} (h : Durable filter log σ)

include h

theorem apply_addRows (hlogged : Logged filter (log ++ [(σ.nextSeq, b)])
    (apply filter σ (.addRows b)))
    (hranked : Ranked (apply filter σ (.addRows b))) :
    Durable filter (log ++ [(σ.nextSeq, b)]) (apply filter σ (.addRows b)) := by
  have hmem : ∀ v, v ∈ logRows (log ++ [(σ.nextSeq, b)]) ↔
      v ∈ b.versions σ.nextSeq ∨ v ∈ logRows log := fun v => Logs.mem_logRows_append
  have hnew : ∀ v ∈ b.versions σ.nextSeq, ∀ w ∈ σ.applied, w.seq < v.seq := by
    intro v hv w hw
    rw [seq_of_mem_versions hv]
    exact h.logged.live.versions.bounded w hw
  have hadd : ∀ v, v ∈ (apply filter σ (.addRows b)).mem.rows ↔ v ∈ b.versions σ.nextSeq ∨
    v ∈ σ.mem.rows :=
    fun v => h.logged.live.versions.mem_rows_addRows b
  exact {
    logged := hlogged
    ranked := hranked
    log_top := h.log_top.append_newest hnew hmem
    mem_top := h.mem_top.append_newest hnew hadd
    mem_logged := fun v hv => (hmem v).mpr (((hadd v).mp hv).imp_right (h.mem_logged v))
    flush_logged := fun f hf v hv => (hmem v).mpr (.inr (h.flush_logged f hf v hv))
    covered := by
      intro k s hs
      refine CoveredAt.append_newest
        (h.covered k s fun v hv => hs v (mem_append_right _ hv)) hnew
        (fun v hv => hs v (mem_append_left _ hv)) fun v => ?_
      rw [mem_append, mem_append, hmem, or_assoc]
      rfl }

theorem freeze_logged : ∀ f ∈ (apply filter σ .freeze).flushes,
    ∀ v ∈ f.1.entries.rows, v ∈ logRows log := by
  intro f hf
  simp only [apply] at hf
  split_ifs at hf with hemp
  · exact h.flush_logged f hf
  · rcases mem_append.mp hf with hf | hf
    · exact h.flush_logged f hf
    · rw [mem_singleton.mp hf]
      exact h.mem_logged

/-- The published rows are in the log, so a tombstone that is newer than one of them is in
the log as well, and cannot have been collected for good. -/
theorem publish_covered (he : Enabled σ (.publish task p t lease))
    (hs : ∀ v ∈ σ.applied, v.seq ≤ s) :
    CoveredAt σ.applied
      (logRows log ++ tableRows (apply filter σ (.publish task p t lease)).tables) k s := by
  obtain rfl := h.logged.live.versions.flush_table he.1
  have hlogged := h.flush_logged _ (mem_of_getElem? he.1)
  have htables :
    ∀ v, v ∈ tableRows (apply filter σ (.publish task p (flushTable filter p) lease)).tables ↔
      v ∈ tableRows σ.tables ∨ v ∈ (flushTable filter p).rows := by
    intro v
    rw [← mem_tableRows_singleton, ← mem_tableRows_append]
    rfl
  refine CoveredAt.congr (h.covered k s hs) fun v => ?_
  rw [mem_append, mem_append, htables]
  constructor
  · rintro (hv | hv | hv)
    · exact .inl hv
    · exact .inr hv
    · exact .inl (hlogged v hv)
  · exact Or.imp_right Or.inl

/-- Cutting a log whose rows are all in live tables uncovers nothing. -/
theorem cut (hs : CutSafe σ (.truncateLog .ok))
    (hlogged : Logged filter [] (apply filter σ (.truncateLog .ok)))
    (hranked : Ranked (apply filter σ (.truncateLog .ok))) :
    Durable filter [] (apply filter σ (.truncateLog .ok)) := by
  obtain ⟨hmem, hflushes, htables⟩ := hs
  rw [h.logged.logs.replayedRows_eq] at htables
  set σ' := apply filter σ (.truncateLog .ok)
  have hmem' : σ'.mem.rows = [] := hmem
  have hflushes' : σ'.flushes = [] := hflushes
  exact {
    logged := hlogged
    ranked := hranked
    log_top := nofun
    mem_top := by rw [hmem']; exact nofun
    mem_logged := by rw [hmem']; exact nofun
    flush_logged := by rw [hflushes']; exact nofun
    covered := by
      intro k s hall
      refine CoveredAt.congr (h.covered k s hall) fun v => ?_
      rw [mem_append, mem_append]
      constructor
      · exact Or.imp_left fun hv => absurd hv not_mem_nil
      · rintro (hv | hv)
        · exact .inr (htables v hv)
        · exact .inr hv }

/-- The newest version of a key survives the replacement, in the log, in a surviving table or
in the merged one, unless it is a tombstone with nothing left to hide. -/
theorem replace_covered (he : Enabled σ (.replace task p merged lease deleted))
    (hs : CompactInOrder σ p)
    (hall : ∀ v ∈ σ.applied, v.seq ≤ s) :
    CoveredAt σ.applied
      (logRows log ++ tableRows (apply filter σ (.replace task p merged lease deleted)).tables)
      k s := by
  have hl := h.logged.live
  have hin := mem_of_getElem? he.1
  have hviable : Viable σ p := fun t ht => captured_listed hl hin ht (hs.1 t ht)
  have hsplit := tableRows_split hl hin hviable
  have hold : ∀ v, v ∈ logRows log ++ tableRows σ.tables ↔
      v ∈ logRows log ++ tableRows (survivors σ p) ∨ v ∈ captured p := by
    intro v
    rw [mem_append, mem_append, hsplit, or_assoc]
  have hnew : ∀ v, v ∈ logRows log ++ tableRows
    (apply filter σ (.replace task p merged lease deleted)).tables ↔
        v ∈ logRows log ++ tableRows (survivors σ p) ∨ v ∈ (compactRun p).rows := by
    intro v
    rw [mem_append, mem_append, tableRows_replace hl he.1, or_assoc]
  have hsound := hl.versions.captured_sound _ hin
  have hgap : NoGap p k s := fun v hv _ hlt => absurd (hall v (hsound v hv)) (not_le.mpr hlt)
  refine CoveredAt.replace (h.covered k s hall) hold hnew (fun v => compactRun_subset) hsound
    (compactRun_covers (hl.versions.captured_functional hin) hgap) ?_
  -- an older version outside the captured tables comes with the newest one, or cannot exist
  intro v hv hnewest w hw hwk hws
  rcases mem_append.mp hw with hw | hw
  · have hle := hnewest.maximal w (h.logged.sound w hw) hwk hws
    exact mem_append_left _ (h.log_top w hw v hnewest.mem hle)
  · obtain ⟨u, hu, hw⟩ := mem_tableRows.mp hw
    have hlive := mem_survivors.mp hu
    have hk : w.key = v.key := hwk.trans hnewest.key_eq.symm
    have hne : u.id ≠ p.newId := fun heq => absurd
      (mem_append_right _ (heq ▸ Placement.mem_compactIds he.1))
      (hl.placement.table_settled hlive.1)
    rcases lt_or_gt_of_ne hne with hlt | hgt
    · exact absurd hk (hs.2 u hlive.1 hlive.2 hlt w hw v hv)
    · refine mem_append_right _ (mem_tableRows.mpr ⟨u, hu, ?_⟩)
      rcases h.ranked.table_captured _ hin hviable u hlive.1 hgt w hw v hv hk with hvu | hle
      · exact hvu
      · have hwsound := hl.versions.table_sound u hlive.1 w hw
        have hge := hnewest.maximal w hwsound hwk hws
        rw [hl.versions.functional v hnewest.mem w hwsound hk.symm (le_antisymm hle hge)]
        exact hw

theorem apply_op (he : Enabled σ op) (hid : IdSafe σ op) (hread : LogReadable σ op)
    (hcut : CutSafe σ op) :
    Durable filter (logAfter σ log op) (apply filter σ op) := by
  have logged := h.logged.apply_op he hread
  have ranked : Ranked (apply filter σ op) := h.ranked.apply_op h.logged.live h.mem_top he hid
  cases op with
  | addRows b => exact h.apply_addRows logged ranked
  | freeze =>
    have hempty : (apply filter σ .freeze).mem.rows = [] := rfl
    exact { h with
      logged, ranked
      mem_top := by rw [hempty]; exact nofun
      mem_logged := by rw [hempty]; exact nofun
      flush_logged := h.freeze_logged }
  | uploadFlush task p =>
    exact { h with
      logged, ranked
      flush_logged := forall_mem_set h.flush_logged
        (h.flush_logged (p, none) (mem_of_getElem? he)) }
  | dropFlush =>
    exact { h with
      logged, ranked
      flush_logged := fun f hf => h.flush_logged f (mem_of_mem_eraseIdx hf) }
  | publish =>
    exact { h with
      logged, ranked
      flush_logged := fun f hf => h.flush_logged f (mem_of_mem_eraseIdx hf)
      covered := fun k s hall => h.publish_covered he hall }
  | truncateLog io =>
    cases io with
    | ok => exact h.cut hcut logged ranked
    | failed => exact { h with logged, ranked }
    | unsynced => exact absurd rfl hread
  | replace =>
    exact { h with
      logged, ranked
      covered := fun k s hall => h.replace_covered he hid hall }
  | _ => exact { h with logged, ranked }

omit h in
theorem initial_durable : Durable filter [] (initial path) where
  logged := .initial_logged
  ranked := by constructor <;> simp [initial, freshEngine, Sys.tables]
  log_top := nofun
  mem_top := nofun
  mem_logged := nofun
  flush_logged := by simp [initial]
  covered := fun k s _ v hv => absurd hv.mem not_mem_nil

/-- The state after a crash is durable again, with the same log. -/
theorem crash (hfetch : ∀ id ∈ σ.store.manifestIds, fetch id = true)
    (hr : Recovered σ.wal σ.store fetch log engine) :
    Durable filter log { σ with engine := engine, flushes := [], compactions := [] } := by
  have htables : ∀ t, t ∈ engine.view.sstables ↔ t ∈ σ.tables := by
    rw [hr.tables_eq]
    exact fun t => (loadTables_perm h.logged.live.placement hfetch).mem_iff
  have hrows : ∀ v, v ∈ tableRows engine.view.sstables ↔ v ∈ tableRows σ.tables := by
    simp [mem_tableRows, htables]
  exact { h with
    logged := h.logged.crash hfetch hr
    ranked := by
      constructor
      · intro a ha b hb
        exact h.ranked.by_id a ((htables a).mp ha) b ((htables b).mp hb)
      all_goals simp
    mem_top := fun a ha v hv hle =>
      (hr.mem_rows v).mpr (h.log_top a ((hr.mem_rows a).mp ha) v hv hle)
    mem_logged := fun v hv => (hr.mem_rows v).mp hv
    flush_logged := by simp
    covered := by
      intro k s hall
      refine CoveredAt.congr (h.covered k s hall) fun v => ?_
      rw [mem_append, mem_append, hrows] }

theorem recovered_reads (hfetch : ∀ id ∈ σ.store.manifestIds, fetch id = true)
    (hr : Recovered σ.wal σ.store fetch log engine) :
    engine.read k = latest σ.applied k := by
  have hc := h.crash hfetch hr
  have hv := hc.logged.live.versions
  have hall : ∀ v ∈ σ.applied, v.seq ≤ engine.currentSeq :=
    fun v hvm => Nat.le_sub_one_of_lt (hv.bounded v hvm)
  have hlayers : layers engine.view =
      engine.view.memtable.rows :: engine.view.sstables.reverse.map SSTable.rows := by
    simp [layers, hr.no_immutable]
  have horder : (layers engine.view).Pairwise Newer := by
    rw [hlayers]
    refine pairwise_cons.mpr ⟨fun rows hrows => ?_, ?_⟩
    · obtain ⟨t, ht, rfl⟩ := mem_map.mp hrows
      exact hc.mem_top.newer (hv.table_sound t (mem_reverse.mp ht))
    · rw [pairwise_map, pairwise_reverse]
      have hinc := loadTables_increasing h.logged.live.placement hfetch
      rw [← hr.tables_eq] at hinc
      exact hinc.imp_of_mem fun ha hb hab => hc.ranked.by_id _ ha _ hb hab
  have hflat : ∀ v, v ∈ (layers engine.view).flatten ↔
    v ∈ logRows log ++ tableRows engine.view.sstables := by
    intro v
    rw [hlayers, flatten_cons, mem_append, mem_append, hr.mem_rows]
    rfl
  have hsound : ∀ v ∈ (layers engine.view).flatten, v ∈ σ.applied := by
    intro v hvm
    rcases mem_append.mp ((hflat v).mp hvm) with hvm | hvm
    · exact h.logged.sound v hvm
    · obtain ⟨t, ht, hvt⟩ := mem_tableRows.mp hvm
      exact hv.table_sound t ht v hvt
  calc engine.read k
      = readLayers (layers engine.view) k engine.currentSeq := readAt_eq_readLayers _ _ _
    _ = valueAt σ.applied k engine.currentSeq :=
        readLayers_eq_valueAt hv.newest hv.functional (layers_newestFirst _) horder hsound
          (CoveredAt.congr (hc.covered k _ hall) hflat)
    _ = latest σ.applied k := valueAt_eq_latest hall

end Durable

/-- Nothing is lost when the log is cut after this flush: nothing was written since the
memtable was frozen, no other flush is in flight, and every logged row is in the flushed
table or in a live one. -/
def LogCommitted (σ : Sys) (p : PendingFlush) : Prop :=
  σ.mem.rows = [] ∧ σ.flushes.length = 1 ∧
    ∀ v ∈ replayedRows σ.wal, v ∈ p.entries.rows ∨ v ∈ tableRows σ.tables

def DurableSafe (σ : Sys) : Event → Prop
  | .writeBatch batch lease .ok =>
    (batch.walBatch σ.nextSeq).Fits ∧ (Fills σ batch → lease.valid = true)
  | .writeBatch _ _ (.failed written) => written = 0
  | .commitFlush task _ io _ => io.truncate ≠ .unsynced ∧ ∀ p ∈ readyFlush σ task,
      FlushInOrder σ p ∧ (io.truncate = .ok → LogCommitted σ p)
  | .commitCompact task _ _ _ => ∀ p ∈ readyCompaction σ task, CompactInOrder σ p
  | .crashOpen fetch => ∀ id ∈ σ.store.manifestIds, fetch id = true
  | _ => True

instance (σ : Sys) (p : PendingFlush) : Decidable (FlushInOrder σ p) :=
  inferInstanceAs (Decidable (∀ u ∈ σ.tables, _))
instance (σ : Sys) (p : PendingFlush) : Decidable (LogCommitted σ p) :=
  inferInstanceAs (Decidable (_ ∧ _ ∧ _))
instance (σ : Sys) (p : PendingCompaction) : Decidable (CompactInOrder σ p) :=
  inferInstanceAs (Decidable (_ ∧ _))

instance (σ : Sys) : (e : Event) → Decidable (DurableSafe σ e)
  | .writeBatch _ _ .ok => inferInstanceAs (Decidable (_ ∧ (Fills _ _ → _)))
  | .writeBatch _ _ (.failed _) => inferInstanceAs (Decidable (_ = _))
  | .commitFlush task .. => inferInstanceAs (Decidable (_ ≠ _ ∧ ∀ p ∈ readyFlush σ task, _))
  | .commitCompact task .. => inferInstanceAs (Decidable (∀ p ∈ readyCompaction σ task, _))
  | .crashOpen _ => inferInstanceAs (Decidable (∀ id ∈ σ.store.manifestIds, _))
  | .beginFlush _ | .finishFlush .. | .beginCompact _ | .finishCompact .. | .snapshotNow
  | .registerSnapshot _ | .releaseSnapshot _ => .isTrue trivial

variable {filter : BloomFilter} {σ : Sys}

/-- A published flush that met the condition leaves nothing in the log that is not in a live
table. -/
theorem cut_safe (hl : Live filter σ) (ht : σ.flushes[task]? = some (p, some t))
    (hs : io = .ok → LogCommitted σ p) :
    CutSafe (apply filter (apply filter σ .shipSegment) (.publish task p t lease))
      (.truncateLog io) := by
  cases io with
  | failed | unsynced => trivial
  | ok =>
    obtain ⟨hmem, hone, hlog⟩ := hs rfl
    have hrows : t.rows = p.entries.rows := by rw [hl.versions.flush_table ht]; rfl
    refine ⟨hmem, ?_, fun v hv => ?_⟩
    · obtain ⟨f, hf⟩ := length_eq_one_iff.mp hone
      have hlt : task < σ.flushes.length := (List.getElem?_eq_some_iff.mp ht).1
      have htask : task = 0 := by omega
      change σ.flushes.eraseIdx task = []
      rw [htask, hf]
      rfl
    · refine mem_tableRows_append.mpr ((hlog v hv).symm.imp_right fun hv => ?_)
      rw [mem_tableRows_singleton, hrows]
      exact hv

variable {e : Event}

theorem DurableSafe.logKept (h : DurableSafe σ e) : LogKept σ e := by
  cases e with
  | writeBatch batch lease io =>
    cases io with
    | ok => exact h.1
    | failed => exact h
  | commitFlush => exact h.1
  | crashOpen => exact h
  | _ => trivial

theorem DurableSafe.opSafe (hl : Live filter σ) (h : DurableSafe σ e) (hd : Does σ e ops) :
    Along (apply filter) (fun σ op => IdSafe σ op ∧ CutSafe σ op) σ ops := by
  have hready : ∀ {task p t}, σ.flushes[task]? = some (p, some t) → p ∈ readyFlush σ task :=
    fun ht => by simp [readyFlush, ht]
  cases hd with
  | flushed task lease io threshold p t ht he =>
    obtain ⟨horder, hlog⟩ := h.2 p (hready ht)
    exact ⟨⟨trivial, trivial⟩, ⟨horder, trivial⟩, ⟨trivial, cut_safe hl ht hlog⟩, trivial⟩
  | flushedAndCaptured task lease io threshold p t ht he _ _ =>
    obtain ⟨horder, hlog⟩ := h.2 p (hready ht)
    exact ⟨⟨trivial, trivial⟩, ⟨horder, trivial⟩, ⟨trivial, cut_safe hl ht hlog⟩,
      ⟨trivial, trivial⟩, trivial⟩
  | compacted task lease saveManifest deleted p merged ht he =>
    exact ⟨⟨h p (readyCompaction_eq ht), trivial⟩, trivial⟩
  | _ => simp [Along, IdSafe, CutSafe]

theorem durable_step (hs : DurableSafe σ e) (h : ∃ log, Durable filter log σ) :
    ∃ log, Durable filter log (next filter σ e) := by
  obtain ⟨log, hσ⟩ := h
  cases hcrash : Event.isCrash e with
  | false =>
    refine next_invariant_of_guard (I := fun σ => ∃ log, Durable filter log σ)
      ?_ hcrash
      (fun ops hd => (hs.logKept.readable hd).and (hs.opSafe hσ.logged.live hd)) ⟨log, hσ⟩
    rintro τ op ⟨log, hτ⟩ hop ⟨hread, hid, hcut⟩
    exact ⟨_, hτ.apply_op hop hid hread hcut⟩
  | true =>
    cases e with
    | crashOpen fetch =>
      obtain ⟨engine, hopen, hr⟩ := openEngine_recovers hσ.logged.logs σ.store fetch
      rw [crashOpen_eq hopen]
      exact ⟨log, hσ.crash hs hr⟩
    | _ => cases hcrash

theorem DurableSafe.acksAll (h : DurableSafe σ e) : AcksAll σ e := by
  cases e with
  | writeBatch batch lease io =>
    cases io with
    | ok => exact h.2
    | failed => trivial
  | _ => trivial

/-- In every run, with any number of crashes, whose steps meet the condition: whatever state
the run stops in, `open` succeeds on the log and the store it leaves behind, and the opened
engine reads, for every key, the newest acknowledged write. -/
theorem acknowledged_writes_survive_crash (filter : BloomFilter) (path : String)
    (events : List Event) (hsafe : Along (next filter) DurableSafe (initial path) events) :
    let σ := run (next filter) (initial path) events
    ∃ engine, LsmEngine.openEngine σ.wal σ.store (fun _ => true) = .ok engine ∧
      ∀ k, engine.read k = latest σ.acked k := by
  intro σ
  obtain ⟨⟨log, hσ⟩, hack⟩ : (∃ log, Durable filter log σ) ∧ σ.acked = σ.applied := by
    refine hsafe.invariant (I := fun σ => (∃ log, Durable filter log σ) ∧ σ.acked = σ.applied) ?_
      ⟨⟨[], .initial_durable⟩, rfl⟩
    rintro τ e ⟨hτ, hack⟩ he
    exact ⟨durable_step he hτ, acked_eq_applied_step he.acksAll hack⟩
  obtain ⟨engine, hopen, hr⟩ := openEngine_recovers hσ.logged.logs σ.store fun _ => true
  refine ⟨engine, hopen, fun k => ?_⟩
  rw [hack]
  exact hσ.recovered_reads (fun _ _ => rfl) hr

/-- A flush, a crash after its log was cut, a compaction and a delete that was never flushed. -/
theorem flush_and_compaction_survive_crash :
    let σ := run (next exactFilter) (initial "wal.log")
      ([put [97] [1]] ++ flushPhases ++ [put [97] [2], put [98] [3], .crashOpen fun _ => true] ++
        flushPhases ++ compactPhases ++ [.writeBatch (deleteRow [98]) heldLease .ok])
    ∃ engine, LsmEngine.openEngine σ.wal σ.store (fun _ => true) = .ok engine ∧
      ∀ k, engine.read k = latest σ.acked k :=
  acknowledged_writes_survive_crash exactFilter "wal.log" _ (by decide)

/-- A write that lands between `begin_flush` and `commit_flush` is acknowledged, stays out of
the flushed table, and is cut out of the log by the commit: after a crash it is gone. -/
theorem write_during_flush_lost_in_crash :
    let σ := run (next exactFilter) (initial "wal.log")
      [put [97] [1], .beginFlush heldLease, put [98] [2], .finishFlush 0 true,
        .commitFlush 0 heldLease .allOk 4, .crashOpen fun _ => true]
    latest σ.acked [98] = some [2] ∧ σ.engine.read [98] = none := by
  decide

end StorageLsmDurability
