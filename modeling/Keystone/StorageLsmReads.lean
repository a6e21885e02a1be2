import Keystone.StorageLsmEngine

/-! # Point reads and scans of one view

Both read paths are brought to the same form: the first source, newest to oldest, that has a visible
version of the key decides. -/
namespace StorageLsmReads

open List OrderedMaps StorageInternalKey StorageLsmEngine StorageMemTable VersionedLayers

def layers (view : EngineView) : List (List (Version Bytes Bytes)) :=
  view.memtable.rows :: (view.immutable.toList.map MemTable.rows ++
    view.sstables.reverse.map SSTable.rows)

theorem layers_newestFirst (view : EngineView) : ∀ rows ∈ layers view, NewestFirst rows := by
  intro rows h
  simp only [layers, mem_cons, mem_append, mem_map] at h
  rcases h with rfl | ⟨m, _, rfl⟩ | ⟨t, _, rfl⟩
  · exact MemTable.rows_newestFirst _
  · exact MemTable.rows_newestFirst _
  · exact SSTable.rows_newestFirst _

variable {view : EngineView} {v : Version Bytes Bytes}

theorem mem_layers_flatten : v ∈ (layers view).flatten ↔ v ∈ view.memtable.rows ∨
      (∃ imm ∈ view.immutable, v ∈ imm.rows) ∨ ∃ t ∈ view.sstables, v ∈ t.rows := by
  simp [layers]

def resolve (view : EngineView) (k : Bytes) (s : ℕ) : Option (Option Bytes) :=
  (layers view).findSome? fun rows => firstVisible rows k s

theorem findSome?_readAt (tables : List SSTable) (k : Bytes) (s : ℕ) :
    (tables.findSome? fun t => t.readAt k s) =
      (tables.map SSTable.rows).findSome? fun rows => firstVisible rows k s := by
  rw [findSome?_map]
  congr 1
  funext t
  exact t.readAt_eq k s

def tableRows (tables : List SSTable) : List (Version Bytes Bytes) :=
  (tables.reverse.map SSTable.rows).flatten

theorem mem_tableRows : v ∈ tableRows tables ↔ ∃ t ∈ tables, v ∈ t.rows := by
  simp [tableRows]

@[simp] theorem mem_tableRows_append : v ∈ tableRows (a ++ b) ↔ v ∈ tableRows a ∨
    v ∈ tableRows b := by
  simp [mem_tableRows, or_and_right, exists_or]

@[simp] theorem mem_tableRows_singleton : v ∈ tableRows [t] ↔ v ∈ t.rows := by
  simp [mem_tableRows]

def tablesAt (tables : List SSTable) (k : Bytes) (s : ℕ) : Option Bytes :=
  readLayers (tables.reverse.map SSTable.rows) k s

variable {k : Bytes} {s : ℕ}

theorem tablesAt_append_above (h : ∀ v ∈ t.rows, v.key = k → s < v.seq) :
    tablesAt (tables ++ [t]) k s = tablesAt tables k s := by
  unfold tablesAt readLayers
  rw [reverse_append, reverse_singleton, singleton_append, map_cons, findSome?_cons,
    firstVisible_eq_none.mpr h]

theorem readAt_congr (h : tablesAt tables k s = tablesAt tables' k s) :
    EngineView.readAt ⟨memtable, immutable, tables⟩ k s =
      EngineView.readAt ⟨memtable, immutable, tables'⟩ k s := by
  unfold tablesAt readLayers at h
  rw [← findSome?_readAt, ← findSome?_readAt] at h
  unfold EngineView.readAt
  rw [h]

theorem readAt_eq_resolve : view.readAt k s = (resolve view k s).join := by
  have htables := findSome?_readAt view.sstables.reverse k s
  unfold EngineView.readAt resolve layers
  rw [htables, MemTable.getAt_eq, findSome?_cons]
  cases firstVisible view.memtable.rows k s with
  | some x => rfl
  | none =>
    cases himm : view.immutable with
    | none => simp
    | some imm =>
      simp only [Option.bind_some, MemTable.getAt_eq, Option.toList_some, map_cons,
        map_nil, singleton_append, findSome?_cons]
      cases firstVisible imm.rows k s <;> rfl

theorem readAt_eq_readLayers (view : EngineView) (k : Bytes) (s : ℕ) :
    view.readAt k s = readLayers (layers view) k s :=
  readAt_eq_resolve

def seenAt (view : EngineView) (k : Bytes) (s : ℕ) : Option (Version Bytes Bytes) :=
  (layers view).findSome? fun rows => rows.find? fun v => v.key = k ∧ v.seq ≤ s

theorem readAt_eq_seenAt : view.readAt k s = (seenAt view k s).bind Version.value := by
  have hresolve : resolve view k s = (seenAt view k s).map Version.value := by
    rw [seenAt, map_findSome?]
    rfl
  rw [readAt_eq_resolve, hresolve]
  cases seenAt view k s <;> rfl

theorem mem_of_seenAt (h : seenAt view k s = some v) : v ∈ (layers view).flatten := by
  obtain ⟨rows, hrows, hv⟩ := exists_of_findSome?_eq_some h
  exact mem_flatten.mpr ⟨rows, hrows, mem_of_find?_eq_some hv⟩

theorem seenAt_top (above : List (List (Version Bytes Bytes)))
    (hlayers : layers view = above ++ rows :: below) (hempty : ∀ l ∈ above, l = [])
      (hf : Functional rows)
    (hv : v ∈ rows) :
    seenAt view v.key v.seq = some v := by
  have hnone : above.findSome? (fun rows => rows.find? fun w => w.key = v.key ∧
    w.seq ≤ v.seq) = none := by
    rw [findSome?_eq_none_iff]
    intro l hl
    rw [hempty l hl]
    rfl
  have hnewest : NewestFirst rows := layers_newestFirst view rows (by simp [hlayers])
  have hfind : rows.find? (fun w => w.key = v.key ∧ w.seq ≤ v.seq) = some v := by
    cases hw : rows.find? (fun w => w.key = v.key ∧ w.seq ≤ v.seq) with
    | none => exact absurd (find?_eq_none.mp hw v hv) (by simp)
    | some w =>
      have hn := find?_newest hnewest hw
      rw [hf w hn.mem v hv hn.key_eq (le_antisymm hn.visible (hn.maximal v hv rfl le_rfl))]
  rw [seenAt, hlayers, findSome?_append, hnone, Option.none_or, findSome?_cons, hfind]

theorem get?_overlay : (EngineView.overlay m entries).get? k =
      ((entries.reverse.find? fun e => e.1 = k).map Prod.snd).or (m.get? k) := by
  induction entries generalizing m with
  | nil => rfl
  | cons e entries ih =>
    rw [reverse_cons, find?_append]
    change (EngineView.overlay (m.insert e.1 e.2) entries).get? k = _
    rw [ih, OrderedMap.get?_insert]
    cases entries.reverse.find? fun e => e.1 = k with
    | some x => rfl
    | none =>
      by_cases hk : k = e.1
      · simp [hk]
      · simp [hk, Ne.symm hk]

theorem get?_overlay_map (m top : OrderedMap Bytes (Option Bytes)) (k : Bytes) :
    (EngineView.overlay m top.entries).get? k = (top.get? k).or (m.get? k) := by
  rw [get?_overlay, ← top.find?_reverse]
  -- only the instances that decide the equality of keys differ
  congr!

theorem get?_overlay_run (s : ℕ) :
    (EngineView.overlay m (firstVisiblePerKey (SortedRun.versions run) s)).get? k =
      (firstVisible run.rows k s).or (m.get? k) := by
  rw [get?_overlay]
  congr 1
  generalize hl : firstVisiblePerKey (SortedRun.versions run) s = entries
  cases hf : entries.reverse.find? fun e => e.1 = k with
  | none =>
    symm
    rw [Option.map_none, Option.eq_none_iff_forall_ne_some]
    intro x hx
    have hmem := (mem_firstVisiblePerKey run).mpr hx
    rw [hl] at hmem
    have := find?_eq_none.mp hf (k, x) (mem_reverse.mpr hmem)
    simp at this
  | some e =>
    have hk : e.1 = k := by simpa using find?_some hf
    have hmem := mem_reverse.mp (mem_of_find?_eq_some hf)
    rw [← hl] at hmem
    rw [Option.map_some, (mem_firstVisiblePerKey run).mp (by rw [← hk]; exact hmem)]

theorem get?_overlay_tables (tables : List SSTable) (s : ℕ) :
    (tables.foldl (fun m t => EngineView.overlay m (firstVisiblePerKey t.scanAllVersions s)) m).get?
      k
      = ((tables.reverse.map SSTable.rows).findSome? fun rows => firstVisible rows k s).or
        (m.get? k) := by
  induction tables generalizing m with
  | nil => rfl
  | cons t tables ih =>
    rw [foldl_cons, ih, SSTable.scanAllVersions, get?_overlay_run]
    simp only [reverse_cons, map_append, map_cons, map_nil,
      findSome?_append, findSome?_singleton, SSTable.rows, Option.or_assoc]

def scanMerged (view : EngineView) (s : ℕ) : OrderedMap Bytes (Option Bytes) :=
  let merged := view.sstables.foldl
    (fun m t => EngineView.overlay m (firstVisiblePerKey t.scanAllVersions s)) .empty
  let merged := match view.immutable with
    | some imm => EngineView.overlay merged (firstVisiblePerKey imm.iterVersions s)
    | none => merged
  EngineView.overlay merged (firstVisiblePerKey view.memtable.iterVersions s)

theorem get?_scanMerged (s : ℕ) : (scanMerged view s).get? k = resolve view k s := by
  unfold scanMerged resolve layers
  rw [MemTable.iterVersions, get?_overlay_run, findSome?_cons, findSome?_append]
  change (firstVisible view.memtable.rows k s).or _ = _
  cases firstVisible view.memtable.rows k s with
  | some x => rfl
  | none =>
    cases view.immutable with
    | none => simp [get?_overlay_tables]
    | some imm =>
      simp only [MemTable.iterVersions, get?_overlay_run, get?_overlay_tables,
        OrderedMap.get?_empty,
        Option.or_none, Option.toList_some, map_cons, map_nil, findSome?_singleton]
      rfl

theorem mem_scanAt {k v : Bytes} : (k, v) ∈ view.scanAt s ↔ resolve view k s = some (some v) := by
  rw [← get?_scanMerged, OrderedMap.get?_eq_some]
  change (k, v) ∈ (scanMerged view s).entries.filterMap _ ↔ _
  simp only [mem_filterMap, Option.map_eq_some_iff, Prod.mk.injEq, Prod.exists]
  constructor
  · rintro ⟨a, o, h, b, rfl, rfl, rfl⟩
    exact h
  · intro h
    exact ⟨k, some v, h, v, rfl, rfl, rfl⟩

theorem scanAt_sorted : (view.scanAt s).Pairwise fun a b => a.1 < b.1 := by
  refine List.Pairwise.filterMap _ ?_ (scanMerged view s).sorted
  rintro ⟨a, o⟩ ⟨b, p⟩ hlt ⟨a', v⟩ ha ⟨b', w⟩ hb
  simp only [Option.map_eq_some_iff] at ha hb
  obtain ⟨_, _, rfl, _⟩ := ha
  obtain ⟨_, _, rfl, _⟩ := hb
  exact hlt

/-- A scan lists a key exactly when a point read at the same snapshot finds a value. -/
theorem mem_scanAt_iff_readAt {k v : Bytes} :
    (k, v) ∈ view.scanAt s ↔ view.readAt k s = some v := by
  rw [mem_scanAt, readAt_eq_resolve, Option.join_eq_some_iff]

/-- Scan and point read agree: for every view and snapshot the scan is strictly sorted by
key and lists exactly the keys a point read finds, with the value it finds. -/
theorem scanAt_agrees_with_readAt (view : EngineView) (s : ℕ) :
    (view.scanAt s).Pairwise (fun a b => a.1 < b.1) ∧
      ∀ k v, (k, v) ∈ view.scanAt s ↔ view.readAt k s = some v :=
  ⟨scanAt_sorted, fun _ _ => mem_scanAt_iff_readAt⟩

end StorageLsmReads
