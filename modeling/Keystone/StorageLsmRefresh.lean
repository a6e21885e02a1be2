import Keystone.StorageLsmOpen

/-! # Refreshing a reader

A reader node reloads the manifest and fetches the tables it does not hold. It changes nothing until
all of them are there. -/
namespace StorageLsmRefresh

open GuardedRuns List StorageLsmEngine StorageManifest StorageMemTable StorageWal
open StorageLsmSystem StorageLsmOpen
open LsmEngine (openEngine openFromStore)

/-- What a refresh meets: the store when it loads the manifest, the store when it asks for a
table, and which of its requests go through. The writer may work in between. -/
structure Reads where
  atLoad : Store
  manifestIo : Bool
  atFetch : ℕ → Store
  fetch : ℕ → Bool

namespace Reads

def Loads (x : Reads) (m : Manifest) : Prop := x.manifestIo = true ∧ x.atLoad.manifest = some m

def Finds (x : Reads) (id : ℕ) : Prop := x.fetch id = true ∧ ((x.atFetch id).sst id).isSome = true

def quiet (store : Store) : Reads := ⟨store, true, fun _ => store, fun _ => true⟩

end Reads

/-- The listed tables that are not known, in the order of the manifest; the first request that
fails ends it. -/
def fetchTables (known : List ℕ) (x : Reads) : List ℕ → Except StorageError (List SSTable)
  | [] => .ok []
  | id :: ids =>
    if id ∈ known then fetchTables known x ids
    else
      match openFromStore (x.atFetch id) id (x.fetch id) with
      | .error err => .error err
      | .ok t =>
        match fetchTables known x ids with
        | .error err => .error err
        | .ok fetched => .ok (t :: fetched)

def keptTables (e : LsmEngine) (manifest : Manifest) : List SSTable :=
  e.view.sstables.filter fun t => t.id ∈ manifest.sstableIds

/-- The tables still listed and the fetched ones, by ascending id; the counter never moves back. -/
def install (e : LsmEngine) (manifest : Manifest) (fetched : List SSTable) : LsmEngine where
  ws := { e.ws with
    manifestEtag := some manifest
    nextCommitSeq := max e.ws.nextCommitSeq (manifest.maxCommitSeq + 1) }
  view := { e.view with
    sstables := (keptTables e manifest ++ fetched).insertionSort fun a b => a.id ≤ b.id }

/-- `LsmEngine::refresh`; the result says whether the set of tables has changed. -/
def refresh (e : LsmEngine) (x : Reads) : LsmEngine × Except StorageError Bool :=
  match x.atLoad.loadManifest x.manifestIo with
  | .error err => (e, .error err)
  | .ok none => (e, .ok false)
  | .ok (some manifest) =>
    if some manifest = e.ws.manifestEtag then (e, .ok false)
    else
      match fetchTables (e.view.sstables.map SSTable.id) x manifest.sstableIds with
      | .error err => (e, .error err)
      | .ok fetched =>
        let dropped := e.view.sstables.length - (keptTables e manifest).length
        (install e manifest fetched, .ok (0 < fetched.length || 0 < dropped))

theorem openFromStore_error {id : ℕ} {io : Bool} :
    (∃ err, openFromStore store id io = .error err) ↔
      ¬ (io = true ∧ (store.sst id).isSome = true) := by
  unfold openFromStore
  cases io <;> cases store.sst id <;> simp

section Fetch

variable {known : List ℕ} {x : Reads}

theorem fetchTables_ok :
    (∃ fetched, fetchTables known x ids = .ok fetched) ↔ ∀ id ∈ ids, id ∈ known ∨ x.Finds id := by
  induction ids with
  | nil => simp [fetchTables]
  | cons id ids ih =>
    rw [forall_mem_cons, ← ih, fetchTables]
    split_ifs with hknown
    · simp [hknown]
    · cases hopen : openFromStore (x.atFetch id) id (x.fetch id) with
      | error err =>
        have hmiss : ¬ x.Finds id := openFromStore_error.mp ⟨err, hopen⟩
        simp [hknown, hmiss]
      | ok t =>
        have hfinds : x.Finds id := by
          by_contra hmiss
          obtain ⟨err, herr⟩ := openFromStore_error.mpr hmiss
          rw [hopen] at herr
          cases herr
        cases fetchTables known x ids <;> simp [hfinds]

variable {ids : List ℕ} {fetched : List SSTable}

theorem mem_fetchTables (h : fetchTables known x ids = .ok fetched) :
    t ∈ fetched ↔ ∃ id ∈ ids, id ∉ known ∧ openFromStore (x.atFetch id) id (x.fetch id) =
      .ok t := by
  induction ids generalizing fetched with
  | nil =>
    obtain rfl := Except.ok.inj h
    simp
  | cons id ids ih =>
    rw [fetchTables] at h
    split_ifs at h with hknown
    · rw [ih h]
      simp [hknown]
    · cases hopen : openFromStore (x.atFetch id) id (x.fetch id) with
      | error err => simp [hopen] at h
      | ok u =>
        cases hrest : fetchTables known x ids with
        | error err => simp [hopen, hrest] at h
        | ok rest =>
          simp only [hopen, hrest, Except.ok.injEq] at h
          rw [← h, mem_cons, ih hrest]
          simp [hknown, hopen, eq_comm]

theorem fetchTables_ids (h : fetchTables known x ids = .ok fetched) :
    fetched.map SSTable.id = ids.filter fun id => id ∉ known := by
  induction ids generalizing fetched with
  | nil =>
    obtain rfl := Except.ok.inj h
    rfl
  | cons id ids ih =>
    rw [fetchTables] at h
    split_ifs at h with hknown
    · rw [ih h, filter_cons_of_neg (by simp [hknown])]
    · rw [filter_cons_of_pos (by simp [hknown])]
      cases hopen : openFromStore (x.atFetch id) id (x.fetch id) with
      | error err => simp [hopen] at h
      | ok t =>
        cases hrest : fetchTables known x ids with
        | error err => simp [hopen, hrest] at h
        | ok rest =>
          simp only [hopen, hrest, Except.ok.injEq] at h
          obtain ⟨_, u, _, rfl⟩ := LsmEngine.openFromStore_ok.mp (congrArg Except.toOption hopen)
          rw [← h, map_cons, ih hrest]

theorem mem_fetchTables_ids (h : fetchTables known x ids = .ok fetched) {id : ℕ} :
    id ∈ fetched.map SSTable.id ↔ id ∈ ids ∧ id ∉ known := by
  rw [fetchTables_ids h, mem_filter, decide_eq_true_eq]

end Fetch

structure Applied (e : LsmEngine) (m : Manifest) (x : Reads) (e' : LsmEngine) : Prop where
  etag : e'.ws.manifestEtag = some m
  seq : e'.ws.nextCommitSeq = max e.ws.nextCommitSeq (m.maxCommitSeq + 1)
  memtable : e'.view.memtable = e.view.memtable
  immutable : e'.view.immutable = e.view.immutable
  sorted : e'.view.sstables.Pairwise fun a b => a.id ≤ b.id
  tables : ∀ t, t ∈ e'.view.sstables ↔ (t ∈ e.view.sstables ∧ t.id ∈ m.sstableIds) ∨
    ∃ id ∈ m.sstableIds, id ∉ e.view.sstables.map SSTable.id ∧
      openFromStore (x.atFetch id) id (x.fetch id) = .ok t
  ids : ∀ id, id ∈ e'.view.sstables.map SSTable.id ↔ id ∈ m.sstableIds

/-- The refresh loads a manifest that the engine does not know, and every table of it is held
or found. -/
def Applies (e : LsmEngine) (x : Reads) (m : Manifest) : Prop :=
  x.Loads m ∧ e.ws.manifestEtag ≠ some m ∧
    ∀ id ∈ m.sstableIds, id ∈ e.view.sstables.map SSTable.id ∨ x.Finds id

section Cases

variable {e : LsmEngine} {x : Reads} {m : Manifest}

theorem refresh_eq_install (h : Applies e x m) :
    ∃ fetched changed, fetchTables (e.view.sstables.map SSTable.id) x m.sstableIds = .ok fetched ∧
      refresh e x = (install e m fetched, .ok changed) := by
  obtain ⟨⟨hio, hm⟩, hne, hall⟩ := h
  obtain ⟨fetched, hfetch⟩ := fetchTables_ok.mpr hall
  unfold refresh Store.loadManifest
  simp only [hio, if_true, hm, if_neg hne.symm, hfetch]
  exact ⟨fetched, _, rfl, rfl⟩

theorem refresh_applied (h : Applies e x m) :
    (∃ changed, (refresh e x).2 = .ok changed) ∧ Applied e m x (refresh e x).1 := by
  obtain ⟨fetched, changed, hfetch, hrefresh⟩ := refresh_eq_install h
  rw [hrefresh]
  have htables : ∀ t : SSTable, t ∈ (install e m fetched).view.sstables ↔
      (t ∈ e.view.sstables ∧ t.id ∈ m.sstableIds) ∨ t ∈ fetched := by
    simp [install, keptTables]
  refine ⟨⟨changed, rfl⟩, rfl, rfl, rfl, rfl, pairwise_insertionSort .., fun t => ?_, fun id => ?_⟩
  · rw [htables, mem_fetchTables hfetch]
  · constructor
    · intro hid
      obtain ⟨t, ht, rfl⟩ := mem_map.mp hid
      rcases (htables t).mp ht with ht | ht
      · exact ht.2
      · exact ((mem_fetchTables_ids hfetch).mp (mem_map_of_mem ht)).1
    · intro hid
      by_cases hknown : id ∈ e.view.sstables.map SSTable.id
      · obtain ⟨t, ht, rfl⟩ := mem_map.mp hknown
        exact mem_map.mpr ⟨t, (htables t).mpr (.inl ⟨ht, hid⟩), rfl⟩
      · obtain ⟨t, ht, rfl⟩ := mem_map.mp ((mem_fetchTables_ids hfetch).mpr ⟨hid, hknown⟩)
        exact mem_map.mpr ⟨t, (htables t).mpr (.inr ht), rfl⟩

/-- Otherwise the refresh fails, or the manifest is the one that the engine knows. -/
theorem refresh_unchanged (h : ∀ m, ¬ Applies e x m) :
    (refresh e x).1 = e ∧ ∀ changed, (refresh e x).2 = .ok changed →
      ∀ m, x.Loads m → e.ws.manifestEtag = some m := by
  unfold refresh Store.loadManifest
  by_cases hio : x.manifestIo = true
  · simp only [hio, if_true]
    cases hm : x.atLoad.manifest with
    | none => exact ⟨rfl, fun _ _ m hload => by simp [Reads.Loads, hm] at hload⟩
    | some m =>
      dsimp only
      have hloads : ∀ m', x.Loads m' → m' = m := fun m' hload =>
        Option.some.inj (hload.2.symm.trans hm)
      split_ifs with hetag
      · exact ⟨rfl, fun _ _ m' hload => hloads m' hload ▸ hetag.symm⟩
      · cases hfetch : fetchTables (e.view.sstables.map SSTable.id) x m.sstableIds with
        | error err => exact ⟨rfl, fun changed hchanged => by cases hchanged⟩
        | ok fetched =>
          exact absurd ⟨⟨hio, hm⟩, Ne.symm hetag, fetchTables_ok.mp ⟨fetched, hfetch⟩⟩ (h m)
  · simp [hio]

theorem refresh_error (h : (refresh e x).2 = .error err) : (refresh e x).1 = e := by
  by_cases happ : ∃ m, Applies e x m
  · obtain ⟨m, happ⟩ := happ
    obtain ⟨⟨changed, hok⟩, _⟩ := refresh_applied happ
    rw [hok] at h
    cases h
  · exact (refresh_unchanged (not_exists.mp happ)).1

theorem nodup_refresh (hnodup : (e.view.sstables.map SSTable.id).Nodup)
    (hm : ∀ m, x.Loads m → m.sstableIds.Nodup) :
    ((refresh e x).1.view.sstables.map SSTable.id).Nodup := by
  by_cases happ : ∃ m, Applies e x m
  · obtain ⟨m, happ⟩ := happ
    obtain ⟨fetched, changed, hfetch, hrefresh⟩ := refresh_eq_install happ
    rw [hrefresh]
    have hperm := (perm_insertionSort (fun a b : SSTable => a.id ≤ b.id)
      (keptTables e m ++ fetched)).map SSTable.id
    refine hperm.nodup_iff.mpr ?_
    rw [map_append, fetchTables_ids hfetch]
    refine nodup_append.mpr ⟨hnodup.sublist (filter_sublist.map _),
      (hm m happ.1).filter _, fun a ha b hb hab => ?_⟩
    obtain ⟨t, ht, rfl⟩ := mem_map.mp ha
    have hknown : t.id ∈ e.view.sstables.map SSTable.id :=
      mem_map.mpr ⟨t, (mem_filter.mp ht).1, rfl⟩
    rw [← hab] at hb
    exact of_decide_eq_true (mem_filter.mp hb).2 hknown
  · rw [(refresh_unchanged (not_exists.mp happ)).1]
    exact hnodup

end Cases

def afterRefreshes (e : LsmEngine) (earlier : List Reads) : LsmEngine :=
  run (fun e x => (refresh e x).1) e earlier

def SeqKnown (e : LsmEngine) : Prop :=
  (e.ws.manifestEtag.getD .default).maxCommitSeq < e.ws.nextCommitSeq

variable {m : Manifest} {x : Reads}

theorem Applied.inStep (h : Applied e m x e') : InStep e' := by
  unfold InStep
  rw [h.etag]
  exact h.ids

theorem Applied.seqKnown (h : Applied e m x e') : SeqKnown e' := by
  unfold SeqKnown
  rw [h.etag, h.seq]
  exact lt_max_of_lt_right (Nat.lt_succ_self _)

variable {e : LsmEngine}

theorem refresh_inStep (h : InStep e) : InStep (refresh e x).1 := by
  by_cases happ : ∃ m, Applies e x m
  · obtain ⟨m, happ⟩ := happ
    exact (refresh_applied happ).2.inStep
  · rw [(refresh_unchanged (not_exists.mp happ)).1]
    exact h

theorem refresh_seqKnown (h : SeqKnown e) : SeqKnown (refresh e x).1 := by
  by_cases happ : ∃ m, Applies e x m
  · obtain ⟨m, happ⟩ := happ
    exact (refresh_applied happ).2.seqKnown
  · rw [(refresh_unchanged (not_exists.mp happ)).1]
    exact h

theorem etag_refresh (hok : (refresh e x).2 = .ok changed) (hm : x.Loads m) :
    (refresh e x).1.ws.manifestEtag = some m := by
  by_cases happ : ∃ m', Applies e x m'
  · obtain ⟨m', happ⟩ := happ
    rw [(refresh_applied happ).2.etag, ← hm.2, ← happ.1.2]
  · obtain ⟨hsame, hknown⟩ := refresh_unchanged (not_exists.mp happ)
    rw [hsame]
    exact hknown changed hok m hm

/-- Until a manifest is applied the engine stays as it was opened; from then on it is in step. -/
theorem afterRefreshes_cases : ((∃ y ∈ earlier, ∃ m, Applies e y m) ∧
    InStep (afterRefreshes e earlier)) ∨
      ((∀ y ∈ earlier, ∀ m, ¬ Applies e y m) ∧ afterRefreshes e earlier = e) := by
  induction earlier with
  | nil => exact .inr ⟨by simp, rfl⟩
  | cons y earlier ih =>
    by_cases happ : ∃ m, Applies e y m
    · refine .inl ⟨⟨y, mem_cons_self, happ⟩, ?_⟩
      obtain ⟨m, happ⟩ := happ
      exact run_invariant (I := InStep) (fun _ x h => refresh_inStep h)
        (refresh_applied happ).2.inStep earlier
    · have hstay : afterRefreshes e (y :: earlier) = afterRefreshes e earlier :=
        congrArg (afterRefreshes · earlier) (refresh_unchanged (not_exists.mp happ)).1
      rw [hstay]
      refine ih.imp (fun h => ⟨?_, h.2⟩) (fun h => ⟨?_, h.2⟩)
      · obtain ⟨z, hz, hm⟩ := h.1
        exact ⟨z, mem_cons_of_mem _ hz, hm⟩
      · exact forall_mem_cons.mpr ⟨not_exists.mp happ, h.1⟩

/-- On every reader that `open` has returned and any refreshes have brought up to date since: a
refresh that fails changes nothing. One that returns has brought the counter up to the manifest
it has loaded, and the view holds exactly the tables of that manifest; unless `open` had skipped
one of them, it is the manifest that `open` has loaded, and no refresh in between has applied
another. -/
theorem refresh_exact_iff (wal : Wal) (store : Store) (fetch : ℕ → Bool) (e₀ : LsmEngine)
    (hopen : openEngine wal store fetch = .ok e₀) (earlier : List Reads) (x : Reads) :
    let e := afterRefreshes e₀ earlier
    (∀ err, (refresh e x).2 = .error err → (refresh e x).1 = e) ∧
      ∀ changed m, (refresh e x).2 = .ok changed → x.Loads m →
        m.maxCommitSeq ≤ (refresh e x).1.currentSeq ∧
        ((∀ id, id ∈ (refresh e x).1.view.sstables.map SSTable.id ↔ id ∈ m.sstableIds) ↔
          AllLoad store fetch ∨ store.manifest ≠ some m ∨
            ∃ y ∈ earlier, ∃ m', Applies e₀ y m') := by
  intro e
  have hopened := LsmEngine.openEngine_ok hopen
  refine ⟨fun err herr => refresh_error herr, fun changed m hok hm => ?_⟩
  have hetag := etag_refresh hok hm
  constructor
  · have hknown : SeqKnown (refresh e x).1 := by
      refine refresh_seqKnown (run_invariant (I := SeqKnown)
        (fun _ x h => refresh_seqKnown h) ?_ earlier)
      unfold SeqKnown
      rw [hopened.etag]
      exact hopened.manifest_lt
    unfold SeqKnown at hknown
    rw [hetag] at hknown
    exact Nat.le_sub_one_of_lt hknown
  have hexact : (∀ id, id ∈ (refresh e x).1.view.sstables.map SSTable.id ↔ id ∈ m.sstableIds) ↔
      InStep (refresh e x).1 := by
    unfold InStep
    rw [hetag]
    rfl
  rw [hexact]
  rcases afterRefreshes_cases with ⟨happlied, hin⟩ | ⟨hnone, hsame⟩
  · exact iff_of_true (refresh_inStep hin) (.inr (.inr happlied))
  have he : e = e₀ := hsame
  rw [he] at hetag hok ⊢
  by_cases hstore : store.manifest = some m
  · -- the ETag has not changed since `open`: the view stays what `open` has made it
    have hidle : (refresh e₀ x).1 = e₀ := by
      refine (refresh_unchanged fun m' happ => happ.2.1 ?_).1
      rw [hopened.etag, hstore, ← hm.2, happ.1.2]
    rw [hidle, inStep_iff_allLoad hopened]
    refine ⟨Or.inl, fun h => h.resolve_right ?_⟩
    rintro (hne | ⟨y, hy, m', happ⟩)
    · exact hne hstore
    · exact hnone y hy m' happ
  · refine iff_of_true ?_ (.inr (.inl hstore))
    by_cases happ : ∃ m', Applies e₀ x m'
    · obtain ⟨m', happ⟩ := happ
      exact (refresh_applied happ).2.inStep
    · have hknown := (refresh_unchanged (not_exists.mp happ)).2 changed hok m hm
      exact absurd (hopened.etag.symm.trans hknown) hstore

def readerOn (store : Store) (fetch : ℕ → Bool) : LsmEngine :=
  match openEngine (emptyWal "reader.log") store fetch with
  | .ok e => e
  | .error _ => freshEngine "reader.log"

/-- The writer flushes once more after the reader has opened. -/
theorem reader_follows_flush :
    let σ := run (next exactFilter) (initial "wal.log") ([put [97] [1]] ++ flushPhases)
    let τ := run (next exactFilter) σ ([put [97] [2]] ++ flushPhases)
    let e := refresh (readerOn σ.store fun _ => true) (.quiet τ.store)
    e.2 = .ok true ∧ 2 ≤ e.1.currentSeq ∧
      ∀ id, id ∈ e.1.view.sstables.map SSTable.id ↔ id ∈ [1, 2] := by
  intro σ τ e
  have hok : e.2 = .ok true := rfl
  have hload : (Reads.quiet τ.store).Loads ⟨[1, 2], 2, 1, 2⟩ := ⟨rfl, rfl⟩
  obtain ⟨hseq, hexact⟩ := (refresh_exact_iff (emptyWal "reader.log") σ.store (fun _ => true) _
    rfl [] (.quiet τ.store)).2 true _ hok hload
  exact ⟨hok, hseq, hexact.mpr (.inl (by decide))⟩

/-- `open` skips a table over one failed request. The next refresh, with every request going
through, takes the known ETag for an answer. -/
theorem refresh_keeps_skipped_table_out :
    let σ := run (next exactFilter) (initial "wal.log") ([put [97] [1]] ++ flushPhases)
    let e := refresh (readerOn σ.store fun _ => false) (.quiet σ.store)
    σ.store.manifestIds = [1] ∧ e.2 = .ok false ∧ e.1.view.sstables.map SSTable.id = [] ∧
      e.1.read [97] = none := by
  refine ⟨by decide, rfl, by decide, by decide⟩

end StorageLsmRefresh
