import Keystone.StorageLsmReads

/-! # What a compaction keeps

The merged table holds, key by key, the collection below the watermark of everything the
captured tables hold. A reader at `s` therefore gets from the merged table what it got from
the captured ones, unless some captured version lies above `s` and below the watermark. -/
namespace StorageLsmCompaction

open VersionedLayers OrderedMaps StorageInternalKey StorageMemTable StorageLsmEngine
open LsmEngine (compactKey groupByKey compactEntries compactRun)

def captured (p : PendingCompaction) : List (Version Bytes Bytes) :=
  p.sstables.flatMap SSTable.rows

variable {p : PendingCompaction} {v : Version Bytes Bytes}

theorem mem_captured : v ∈ captured p ↔ ∃ t ∈ p.sstables, v ∈ t.rows := List.mem_flatMap

/-- A floor is dropped only when no snapshot was open and it is a tombstone. -/
def dropsFloor (watermark : ℕ) (v : Version Bytes Bytes) : Bool :=
  watermark == u64Max && v.value.isNone

def groupRow (key : Bytes) (v : ℕ × UInt8 × Option Bytes) : Version Bytes Bytes :=
  rowOf (⟨key, v.1, v.2.1⟩, v.2.2.getD [])

theorem compactKey_rows : (compactKey watermark key versions).map rowOf =
      retain watermark (dropsFloor watermark) (versions.map (groupRow key)) := by
  induction versions with
  | nil => rfl
  | cons v versions ih =>
    obtain ⟨seq, tag, value⟩ := v
    have hdrop : dropsFloor watermark (groupRow key (seq, tag, value)) =
        (watermark == u64Max && tag == deleteTag) := by
      by_cases htag : tag = deleteTag <;>
        simp [dropsFloor, groupRow, rowOf, entryValue, InternalKey.isDelete, htag]
    have hseq : (groupRow key (seq, tag, value)).seq = seq := rfl
    simp only [compactKey, List.map_cons, retain, hseq, hdrop]
    by_cases hw : watermark ≤ seq
    · simp [hw, ih, groupRow]
    · by_cases hd : (watermark == u64Max && tag == deleteTag) = true
      · simp [hw, hd]
      · simp [hw, hd, groupRow]

theorem get?_groupByKey_fold (versions : List ScannedVersion)
    (m : OrderedMap Bytes (List (ℕ × UInt8 × Option Bytes))) (k : Bytes) :
    ((versions.foldl (fun m v => m.upsert v.1 fun group => group.getD [] ++ [v.2]) m).get? k).getD
      [] =
      (m.get? k).getD [] ++ (versions.filter fun v => v.1 = k).map Prod.snd := by
  induction versions generalizing m with
  | nil => simp
  | cons v versions ih =>
    rw [List.foldl_cons, ih, OrderedMap.get?_upsert]
    by_cases hk : k = v.1
    · simp [hk]
    · simp [hk, Ne.symm hk]

theorem get?_groupByKey :
    ((groupByKey versions).get? k).getD [] = (versions.filter fun v => v.1 = k).map Prod.snd := by
  simpa [groupByKey] using get?_groupByKey_fold versions .empty k

theorem group_eq (h : (key, group) ∈ (groupByKey versions).entries) :
    group = (versions.filter fun v => v.1 = key).map Prod.snd := by
  rw [← get?_groupByKey, OrderedMap.get?_eq_some.mpr h, Option.getD_some]

def collected (p : PendingCompaction) (k : Bytes) : List (Version Bytes Bytes) :=
  ((((groupByKey (p.sstables.flatMap SSTable.scanAllVersions)).get? k).getD []).insertionSort
    fun a b => b.1 ≤ a.1).map (groupRow k)

variable {k : Bytes}

theorem mem_collected : v ∈ collected p k ↔ v ∈ captured p ∧ v.key = k := by
  simp only [collected, get?_groupByKey, List.mem_map, List.mem_insertionSort, List.mem_filter,
    List.mem_flatMap, SSTable.scanAllVersions, SortedRun.versions, decide_eq_true_eq, mem_captured,
    SSTable.rows, SortedRun.mem_rows]
  have hrow : ∀ e : Entry, groupRow e.1.userKey (e.1.seq, e.1.tag, entryValue e) = rowOf e := by
    intro e
    by_cases hd : e.1.isDelete
    · simp_all [groupRow, rowOf, entryValue]
    · simp_all [groupRow, entryValue]
  constructor
  · rintro ⟨_, ⟨_, ⟨⟨t, ht, e, he, rfl⟩, rfl⟩, rfl⟩, rfl⟩
    exact ⟨⟨t, ht, e, he, (hrow e).symm⟩, rfl⟩
  · rintro ⟨⟨t, ht, e, he, rfl⟩, rfl⟩
    exact ⟨_, ⟨_, ⟨⟨t, ht, e, he, rfl⟩, rfl⟩, rfl⟩, hrow e⟩

theorem collected_newestFirst : (collected p k).Pairwise fun a b => b.seq ≤ a.seq := by
  refine List.pairwise_map.mpr ?_
  have hsorted := List.pairwise_insertionSort (fun a b : ℕ × UInt8 × Option Bytes => b.1 ≤ a.1)
    (((groupByKey (p.sstables.flatMap SSTable.scanAllVersions)).get? k).getD [])
  exact hsorted.imp id

theorem mem_compactRun_rows : v ∈ (compactRun p).rows ↔
      v ∈ retain p.watermark (dropsFloor p.watermark) (collected p v.key) := by
  have hgroup :
    ∀ k vs, (k, vs) ∈ (groupByKey (p.sstables.flatMap SSTable.scanAllVersions)).entries →
      (compactKey p.watermark k (vs.insertionSort fun a b => b.1 ≤ a.1)).map rowOf =
        retain p.watermark (dropsFloor p.watermark) (collected p k) := by
    intro k vs h
    rw [compactKey_rows, collected, OrderedMap.get?_eq_some.mpr h]
    rfl
  have hkey : ∀ k, v ∈ retain p.watermark (dropsFloor p.watermark) (collected p k) → v.key = k :=
    fun k h => (mem_collected.mp (retain_subset _ _ _ v h)).2
  simp only [SortedRun.mem_rows, compactRun, compactEntries, List.mem_insertionSort,
    List.mem_flatMap]
  constructor
  · rintro ⟨e, ⟨⟨k, vs⟩, hin, he⟩, rfl⟩
    have hm : rowOf e ∈ retain p.watermark (dropsFloor p.watermark) (collected p k) := by
      rw [← hgroup k vs hin]
      exact List.mem_map_of_mem he
    rw [hkey k hm]
    exact hm
  · intro hm
    -- the key has a group, since the collected list is not empty
    cases hg : (groupByKey (p.sstables.flatMap SSTable.scanAllVersions)).get? v.key with
    | none =>
      have hempty : collected p v.key = [] := by simp [collected, hg]
      rw [hempty] at hm
      cases hm
    | some vs =>
      have hin := OrderedMap.get?_eq_some.mp hg
      rw [← hgroup _ _ hin] at hm
      obtain ⟨e, he, hrow⟩ := List.mem_map.mp hm
      exact ⟨e, ⟨_, hin, he⟩, hrow⟩

theorem compactRun_subset (h : v ∈ (compactRun p).rows) : v ∈ captured p :=
  (mem_collected.mp (retain_subset _ _ _ v (mem_compactRun_rows.mp h))).1

/-- No captured version of `k` lies strictly between `s` and the watermark. -/
def NoGap (p : PendingCompaction) (k : Bytes) (s : ℕ) : Prop :=
  ∀ v ∈ captured p, v.key = k → s < v.seq → p.watermark ≤ v.seq

variable {s : ℕ}

/-- Without a gap, the merged table keeps what a reader of the captured tables resolves to,
except for a tombstone below the watermark that no snapshot can need. -/
theorem compactRun_resolves (hf : Functional (captured p)) (hgap : NoGap p k s)
    (hv : IsNewest (captured p) k s v) :
    (p.watermark ≤ v.seq ∨ dropsFloor p.watermark v = false → v ∈ (compactRun p).rows) ∧
      (v.seq < p.watermark → dropsFloor p.watermark v = true →
        ∀ w ∈ (compactRun p).rows, w.key = k → s < w.seq) := by
  have hmem : v ∈ collected p k := mem_collected.mpr ⟨hv.mem, hv.key_eq⟩
  obtain ⟨hkeep, hdrop⟩ := retain_resolves (dropsFloor p.watermark) collected_newestFirst
    (fun x hx hs => hgap x (mem_collected.mp hx).1 (mem_collected.mp hx).2 hs) hmem
    (fun x hx heq => hf x (mem_collected.mp hx).1 v hv.mem
      ((mem_collected.mp hx).2.trans hv.key_eq.symm) heq)
    hv.visible
    (fun x hx hs => hv.maximal x (mem_collected.mp hx).1 (mem_collected.mp hx).2 hs)
  refine ⟨fun h => mem_compactRun_rows.mpr (hv.key_eq ▸ hkeep h), fun hlt hd w hw hk => ?_⟩
  exact hdrop hlt hd w (hk ▸ mem_compactRun_rows.mp hw)

/-- Without a gap, the merged table answers a reader as the captured tables did. -/
theorem compactRun_covers (hf : Functional (captured p)) (hgap : NoGap p k s) :
    CoveredAt (captured p) (compactRun p).rows k s := by
  intro v hv
  obtain ⟨hkeep, hdrop⟩ := compactRun_resolves hf hgap hv
  by_cases hlt : v.seq < p.watermark
  · cases hd : dropsFloor p.watermark v with
    | true =>
      refine .inr ⟨?_, hdrop hlt hd⟩
      simp only [dropsFloor, Bool.and_eq_true, Option.isNone_iff_eq_none] at hd
      exact hd.2
    | false => exact .inl (hkeep (.inr hd))
  · exact .inl (hkeep (.inl (not_lt.mp hlt)))

/-- Every captured entry, as one table would hold them. -/
def capturedRun (p : PendingCompaction) : SortedRun where
  entries := (p.sstables.flatMap fun t => t.run.entries).insertionSort fun a b => a.1 ≤ b.1
  sorted := List.pairwise_insertionSort _ _

theorem mem_capturedRun : v ∈ (capturedRun p).rows ↔ v ∈ captured p := by
  simp only [SortedRun.mem_rows, capturedRun, List.mem_insertionSort, List.mem_flatMap,
    mem_captured, SSTable.rows]
  constructor
  · rintro ⟨e, ⟨t, ht, he⟩, rfl⟩
    exact ⟨t, ht, e, he, rfl⟩
  · rintro ⟨t, ht, e, he, rfl⟩
    exact ⟨e, ⟨t, ht, he⟩, rfl⟩

theorem mem_compactKey (h : e ∈ compactKey watermark key versions) :
    ∃ v ∈ versions, e = (⟨key, v.1, v.2.1⟩, v.2.2.getD []) := by
  induction versions with
  | nil => cases h
  | cons v versions ih =>
    simp only [compactKey] at h
    split_ifs at h
    · rcases List.mem_cons.mp h with rfl | h
      · exact ⟨v, .head _, rfl⟩
      · obtain ⟨u, hu, rfl⟩ := ih h
        exact ⟨u, .tail _ hu, rfl⟩
    · exact ⟨v, .head _, List.mem_singleton.mp h⟩
    · cases h

theorem compactRun_versions_subset (h : x ∈ SortedRun.versions (compactRun p)) :
    x ∈ p.sstables.flatMap SSTable.scanAllVersions := by
  obtain ⟨e, he, rfl⟩ := List.mem_map.mp h
  obtain ⟨⟨key, group⟩, hgroup, he⟩ := List.mem_flatMap.mp ((List.mem_insertionSort _).mp he)
  obtain ⟨⟨seq, tag, value⟩, hv, rfl⟩ := mem_compactKey he
  rw [List.mem_insertionSort, group_eq hgroup, List.mem_map] at hv
  obtain ⟨⟨_, _⟩, hfilter, rfl⟩ := hv
  obtain ⟨hin, hkey⟩ := List.mem_filter.mp hfilter
  obtain rfl := of_decide_eq_true hkey
  obtain ⟨t, -, hscan⟩ := List.mem_flatMap.mp hin
  obtain ⟨e, -, heq⟩ := List.mem_map.mp hscan
  cases heq
  have hvalue : entryValue (e.1, (entryValue e).getD []) = entryValue e := by
    by_cases hd : e.1.isDelete <;> simp [entryValue, hd]
  change (_, _, _, entryValue (e.1, _)) ∈ _
  rw [hvalue]
  exact hin

/-- A reader the collection must serve: one at the watermark or above it, or any reader that sees
everything stored if no snapshot was open. -/
def Served (p : PendingCompaction) (s : ℕ) : Prop :=
  p.watermark ≤ s ∨ p.watermark = u64Max ∧ ∀ v ∈ captured p, v.seq ≤ s

theorem Served.noGap (h : Served p s) : NoGap p k s := by
  intro v hv _ hlt
  rcases h with hw | ⟨_, hall⟩
  · exact hw.trans hlt.le
  · exact absurd (hall v hv) (not_le.mpr hlt)

section Sorting

variable {α : Type*} (r : α → α → Prop) [DecidableRel r] [IsTrans α r] [Std.Total r] (q : α → Bool)

omit [Std.Total r] in
theorem filter_orderedInsert {l : List α} (hl : l.Pairwise r) :
    (l.orderedInsert r a).filter q = if q a then (l.filter q).orderedInsert r a
      else l.filter q := by
  induction l with
  | nil => by_cases hq : q a <;> simp [hq]
  | cons b l ih =>
    obtain ⟨hb, hl⟩ := List.pairwise_cons.mp hl
    by_cases hab : r a b
    · -- everything behind stands after `a` too
      have hfront : ((b :: l).filter q).orderedInsert r a = a :: (b :: l).filter q := by
        cases hfilter : (b :: l).filter q with
        | nil => rfl
        | cons c rest =>
          have hc : c ∈ (b :: l).filter q := hfilter ▸ List.mem_cons_self
          have hac : r a c := by
            rcases List.mem_cons.mp (List.mem_filter.mp hc).1 with rfl | hc
            · exact hab
            · exact IsTrans.trans a b c hab (hb c hc)
          simp [hac]
      rw [hfront, List.orderedInsert_cons, if_pos hab, List.filter_cons]
    · rw [List.orderedInsert_cons, if_neg hab, List.filter_cons, List.filter_cons, ih hl]
      by_cases hqb : q b <;> by_cases hqa : q a <;> simp [hqa, hqb, hab]

theorem filter_insertionSort (l : List α) : (l.insertionSort r).filter q =
    (l.filter q).insertionSort r := by
  induction l with
  | nil => rfl
  | cons a l ih =>
    rw [List.insertionSort_cons, filter_orderedInsert r q (List.pairwise_insertionSort r l), ih]
    by_cases hq : q a <;> simp [hq]

end Sorting

/-- The newest number of a key decides the read, and its first entry does. -/
theorem valueAt_eq_head {run : SortedRun} (hm : m ≤ s)
    (hmax : ∀ e ∈ run.entries, e.1.userKey = k → e.1.seq ≤ s →
      e.1.seq ≤ m ∧ ∃ a ∈ run.entries, a.1.userKey = k ∧ a.1.seq = m) :
    valueAt run.rows k s =
      (run.entries.filter fun e => e.1.userKey = k ∧ e.1.seq = m).head?.bind entryValue := by
  have hfind : run.entries.find? (fun e => e.1.userKey = k ∧ e.1.seq ≤ s) =
      run.entries.find? fun e => e.1.userKey = k ∧ e.1.seq = m := by
    cases h : run.entries.find? (fun e => e.1.userKey = k ∧ e.1.seq ≤ s) with
    | none =>
      simp only [List.find?_eq_none, decide_eq_true_eq] at h
      exact (List.find?_eq_none.mpr fun e he hq => h e he (by simp_all)).symm
    | some a =>
      obtain ⟨ha, front, back, hsplit, hfront⟩ := List.find?_eq_some_iff_append.mp h
      simp only [decide_eq_true_eq, Bool.not_eq_eq_eq_not, Bool.not_true,
        decide_eq_false_iff_not] at ha hfront
      obtain ⟨hle, b, hb, hbk, hbm⟩ := hmax a (by simp [hsplit]) ha.1 ha.2
      have hge : m ≤ a.1.seq := by
        rcases List.mem_append.mp (hsplit ▸ hb) with hb | hb
        · exact absurd ⟨hbk, hbm.trans_le hm⟩ (hfront b hb)
        · rcases List.mem_cons.mp hb with rfl | hb
          · exact hbm.ge
          · have hsorted := (List.pairwise_append.mp (hsplit ▸ run.sorted)).2.1
            exact hbm ▸ InternalKey.seq_ge ((List.pairwise_cons.mp hsorted).1 b hb)
              (ha.1.trans hbk.symm)
      refine (List.find?_eq_some_iff_append.mpr ⟨by simp [ha.1, le_antisymm hle hge], front, back,
        hsplit, ?_⟩).symm
      intro e he
      have hno := hfront e he
      simp only [Bool.not_eq_eq_eq_not, Bool.not_true, decide_eq_false_iff_not]
      exact fun hq => hno ⟨hq.1, hq.2.trans_le hm⟩
  have hrows : run.rows.find? (fun v => v.key = k ∧ v.seq ≤ s) =
      (run.entries.find? fun e => e.1.userKey = k ∧ e.1.seq ≤ s).map rowOf := by
    rw [SortedRun.rows, List.find?_map]
    rfl
  rw [valueAt, firstVisible, hrows, hfind, List.head?_filter]
  cases run.entries.find? (fun e => e.1.userKey = k ∧ e.1.seq = m) <;> rfl

/-- What a version of a key is written as. -/
def entryOf (key : Bytes) (v : ℕ × UInt8 × Option Bytes) :
    Entry := (⟨key, v.1, v.2.1⟩, v.2.2.getD [])

variable {versions : List (ℕ × UInt8 × Option Bytes)}

theorem compactKey_above (hdesc : versions.Pairwise fun a b => b.1 ≤ a.1) (hm : watermark ≤ m) :
    (compactKey watermark key versions).filter (·.1.seq = m) = (versions.filter (·.1 = m)).map
      (entryOf key) := by
  induction versions with
  | nil => rfl
  | cons v versions ih =>
    obtain ⟨seq, tag, value⟩ := v
    obtain ⟨hv, hdesc⟩ := List.pairwise_cons.mp hdesc
    by_cases hw : watermark ≤ seq
    · rw [compactKey, if_pos hw, List.filter_cons, List.filter_cons, ih hdesc]
      by_cases hseq : seq = m <;> simp [hseq, entryOf]
    · have hnone : versions.filter (·.1 = m) = [] := by
        simp only [List.filter_eq_nil_iff, decide_eq_true_eq]
        intro u hu
        have := hv u hu
        simp only at this
        omega
      have hseq : seq ≠ m := by omega
      simp only [compactKey, if_neg hw, List.filter_cons, hseq, decide_false, hnone]
      split_ifs <;> simp_all

/-- Below the watermark the first version of the newest number is kept, and no other. -/
theorem compactKey_below (hdesc : versions.Pairwise fun a b => b.1 ≤ a.1) (hm : m < watermark)
    (hmax : ∀ v ∈ versions, v.1 < watermark → v.1 ≤ m) :
    (compactKey watermark key versions).filter (·.1.seq = m) =
      (((versions.filter (·.1 = m)).take 1).filter fun v =>
        !(watermark == u64Max && v.2.1 == deleteTag)).map
        (entryOf key) := by
  induction versions with
  | nil => rfl
  | cons v versions ih =>
    obtain ⟨seq, tag, value⟩ := v
    obtain ⟨hv, hdesc⟩ := List.pairwise_cons.mp hdesc
    by_cases hw : watermark ≤ seq
    · have hseq : seq ≠ m := by omega
      simp [compactKey, hw, hseq, ih hdesc fun v hv => hmax v (.tail _ hv)]
    · have hle := hmax _ (.head _) (not_le.mp hw)
      simp only at hle
      by_cases hseq : seq = m
      · rw [compactKey, if_neg hw]
        cases hd : (watermark == u64Max && tag == deleteTag) <;>
          simp [hseq, hd, entryOf, -Bool.not_and]
      · have hnone : versions.filter (·.1 = m) = [] := by
          simp only [List.filter_eq_nil_iff, decide_eq_true_eq]
          intro u hu
          have := hv u hu
          simp only at this
          omega
        simp only [compactKey, if_neg hw, List.filter_cons, hseq, decide_false, hnone]
        split_ifs <;> simp_all

theorem seq_of_compactKey (hdesc : versions.Pairwise fun a b => b.1 ≤ a.1)
    (he : e ∈ compactKey watermark key versions) (hlt : e.1.seq < watermark) :
    ∀ v ∈ versions, v.1 < watermark → v.1 ≤ e.1.seq := by
  induction versions with
  | nil => nofun
  | cons v versions ih =>
    obtain ⟨hv, hdesc⟩ := List.pairwise_cons.mp hdesc
    intro u hu hult
    simp only [compactKey] at he
    split_ifs at he with hw hd
    · rcases List.mem_cons.mp he with rfl | he
      · exact absurd hlt (not_lt.mpr hw)
      · rcases List.mem_cons.mp hu with rfl | hu
        · exact absurd hult (not_lt.mpr hw)
        · exact ih hdesc he u hu hult
    · rw [List.mem_singleton.mp he]
      rcases List.mem_cons.mp hu with rfl | hu
      · exact le_rfl
      · exact hv u hu
    · cases he

/-- The captured entries of one key and number, in the order of the tables. -/
def versionsOf (p : PendingCompaction) (k : Bytes) (m : ℕ) : List Entry :=
  (p.sstables.flatMap fun t => t.run.entries).filter fun e => e.1.userKey = k ∧ e.1.seq = m

def inKeyOrder (entries : List Entry) : List Entry := entries.insertionSort fun a b => a.1 ≤ b.1

/-- Where the newest number a reader sees lies below the watermark, the first of its versions in the
order of the tables has the value of the first in the order of the keys. -/
def FloorKept (p : PendingCompaction) (k : Bytes) (s : ℕ) : Prop :=
  ∀ v, IsNewest (captured p) k s v → v.seq < p.watermark →
    (versionsOf p k v.seq).head?.bind entryValue =
      (inKeyOrder (versionsOf p k v.seq)).head?.bind entryValue

/-- The group of a key, newest first. -/
def groupOf (p : PendingCompaction) (k : Bytes) : List (ℕ × UInt8 × Option Bytes) :=
  (((groupByKey (p.sstables.flatMap SSTable.scanAllVersions)).get? k).getD []).insertionSort fun a
    b => b.1 ≤ a.1

theorem groupOf_newestFirst : (groupOf p k).Pairwise fun a b => b.1 ≤ a.1 :=
  List.pairwise_insertionSort (fun a b : ℕ × UInt8 × Option Bytes => b.1 ≤ a.1) _

theorem mem_groupOf : x ∈ groupOf p k ↔ ∃ e ∈ p.sstables.flatMap (·.run.entries),
    e.1.userKey = k ∧ x = (e.1.seq, e.1.tag, entryValue e) := by
  simp only [groupOf, List.mem_insertionSort, get?_groupByKey, List.mem_map, List.mem_filter,
    List.mem_flatMap,
    SSTable.scanAllVersions, SortedRun.versions, decide_eq_true_eq]
  constructor
  · rintro ⟨_, ⟨⟨t, ht, e, he, rfl⟩, hk⟩, rfl⟩
    exact ⟨e, ⟨t, ht, he⟩, hk, rfl⟩
  · rintro ⟨e, ⟨t, ht, he⟩, hk, rfl⟩
    exact ⟨_, ⟨⟨t, ht, e, he, rfl⟩, hk⟩, rfl⟩

/-- The sort is stable: versions of one number stay in the order of the tables. -/
theorem groupOf_filter (m : ℕ) : (groupOf p k).filter (·.1 = m) =
    (versionsOf p k m).map fun e => (e.1.seq, e.1.tag, entryValue e) := by
  rw [groupOf, filter_insertionSort, get?_groupByKey, List.Pairwise.insertionSort_eq]
  · have hscan : p.sstables.flatMap SSTable.scanAllVersions =
        (p.sstables.flatMap (·.run.entries)).map fun e =>
          (e.1.userKey, e.1.seq, e.1.tag, entryValue e) :=
      List.map_flatMap.symm
    rw [hscan, List.filter_map, List.filter_filter, List.filter_map, List.map_map, versionsOf]
    exact congrArg _ (List.filter_congr fun e _ => by simp [and_comm])
  · refine List.pairwise_of_forall_mem_list fun a ha b hb => ?_
    have ha := (List.mem_filter.mp ha).2
    have hb := (List.mem_filter.mp hb).2
    simp only [decide_eq_true_eq] at ha hb
    exact (hb.trans ha.symm).le

theorem compactRun_filter (m : ℕ) : (compactRun p).entries.filter (fun e => e.1.userKey = k ∧
    e.1.seq = m) =
    inKeyOrder ((compactKey p.watermark k (groupOf p k)).filter (·.1.seq = m)) := by
  have hkey {key} {vs : List (ℕ × UInt8 × Option Bytes)} {e}
    (he : e ∈ compactKey p.watermark key vs) :
      e.1.userKey = key := by
    obtain ⟨v, -, rfl⟩ := mem_compactKey he
    rfl
  change ((List.flatMap _ _).insertionSort _).filter _ = _
  rw [filter_insertionSort, inKeyOrder, List.filter_flatMap]
  congr 1
  have hown (vs) : (compactKey p.watermark k vs).filter (fun e => e.1.userKey = k ∧ e.1.seq = m) =
      (compactKey p.watermark k vs).filter (·.1.seq = m) :=
    List.filter_congr fun e he => by simp [hkey he]
  have hother {key} (hne : key ≠ k) (vs) :
      (compactKey p.watermark key vs).filter (fun e => e.1.userKey = k ∧ e.1.seq = m) = [] := by
    simp only [List.filter_eq_nil_iff, decide_eq_true_eq]
    exact fun e he hq => hne (hkey he ▸ hq.1)
  cases hg : (groupByKey (p.sstables.flatMap SSTable.scanAllVersions)).get? k with
  | none =>
    rw [List.flatMap_eq_nil_iff.mpr fun e he => hother (OrderedMap.get?_eq_none.mp hg e he) _,
      groupOf, hg]
    rfl
  | some vs =>
    -- the group of the key stands at one place of the map
    obtain ⟨front, back, hsplit⟩ := List.append_of_mem (OrderedMap.get?_eq_some.mp hg)
    have hsorted := hsplit ▸ (groupByKey (p.sstables.flatMap SSTable.scanAllVersions)).sorted
    obtain ⟨-, hback, hfront⟩ := List.pairwise_append.mp hsorted
    have hfront e (he : e ∈ front) : e.1 ≠ k := ne_of_lt (hfront e he (k, vs) (.head _))
    have hback e (he : e ∈ back) : e.1 ≠ k := ne_of_gt ((List.pairwise_cons.mp hback).1 e he)
    rw [hsplit, List.flatMap_append, List.flatMap_cons,
      List.flatMap_eq_nil_iff.mpr fun e he => hother (hfront e he) _,
      List.flatMap_eq_nil_iff.mpr fun e he => hother (hback e he) _, hown, groupOf, hg]
    simp

theorem entryValue_entryOf (e : Entry) : entryValue (entryOf k (e.1.seq, e.1.tag, entryValue e)) =
    entryValue e := by
  by_cases hd : e.1.tag = deleteTag <;> simp [entryValue, entryOf, InternalKey.isDelete, hd]

/-- The first of the stored versions of a number in the order of the keys, from the merged table. -/
theorem compactRun_above (hm : p.watermark ≤ m) :
    ((compactRun p).entries.filter fun e => e.1.userKey = k ∧ e.1.seq = m).head?.bind entryValue =
      (inKeyOrder (versionsOf p k m)).head?.bind entryValue := by
  have hkey : ∀ e ∈ versionsOf p k m, (entryOf k (e.1.seq, e.1.tag, entryValue e)).1 = e.1 := by
    intro e he
    have hk : e.1.userKey = k ∧ e.1.seq = m := by simpa using (List.mem_filter.mp he).2
    simp [entryOf, ← hk.1]
  have hsort :
    inKeyOrder ((versionsOf p k m).map fun e => entryOf k (e.1.seq, e.1.tag, entryValue e)) =
      (inKeyOrder (versionsOf p k m)).map fun e => entryOf k (e.1.seq, e.1.tag, entryValue e) :=
    (List.map_insertionSort _ _ _ _ fun a ha b hb => by rw [hkey a ha, hkey b hb]).symm
  rw [compactRun_filter, compactKey_above groupOf_newestFirst hm, groupOf_filter, List.map_map]
  simp only [Function.comp_def, hsort, List.head?_map]
  cases (inKeyOrder (versionsOf p k m)).head? with
  | none => rfl
  | some e => exact entryValue_entryOf e

/-- The first of them in the order of the tables, below the watermark. -/
theorem compactRun_below (hm : m < p.watermark)
    (hmax : ∀ e ∈ p.sstables.flatMap (·.run.entries), e.1.userKey = k → e.1.seq < p.watermark →
      e.1.seq ≤ m) :
    ((compactRun p).entries.filter fun e => e.1.userKey = k ∧ e.1.seq = m).head?.bind entryValue =
      (versionsOf p k m).head?.bind entryValue := by
  have hgroup : ∀ v ∈ groupOf p k, v.1 < p.watermark → v.1 ≤ m := by
    intro v hv hlt
    obtain ⟨e, he, hk, rfl⟩ := mem_groupOf.mp hv
    exact hmax e he hk hlt
  rw [compactRun_filter, compactKey_below groupOf_newestFirst hm hgroup, groupOf_filter]
  cases versionsOf p k m with
  | nil => rfl
  | cons e rest =>
    by_cases hd : p.watermark = u64Max ∧ e.1.tag = deleteTag
    · simp [inKeyOrder, hd, entryValue, InternalKey.isDelete]
    · have hkept : (!(p.watermark == u64Max && e.1.tag == deleteTag)) =
        true := by simpa [imp_iff_not_or] using hd
      simp [inKeyOrder, hkept, entryValue_entryOf, -Bool.not_and]

theorem mem_compactRun_entries (h : e ∈ (compactRun p).entries) :
    e ∈ compactKey p.watermark e.1.userKey (groupOf p e.1.userKey) := by
  obtain ⟨⟨key, vs⟩, hin, he⟩ := List.mem_flatMap.mp ((List.mem_insertionSort _).mp h)
  obtain ⟨v, -, rfl⟩ := mem_compactKey he
  rw [groupOf, OrderedMap.get?_eq_some.mpr hin]
  exact he

/-- The merged table is sorted and holds nothing new, and a reader it has to serve gets from it what
the captured tables hold exactly where the floor is kept. -/
theorem compaction_invisible_iff (p : PendingCompaction) :
    ((compactRun p).entries.Pairwise fun a b => a.1 ≤ b.1) ∧
      (∀ x ∈ SortedRun.versions (compactRun p), x ∈ p.sstables.flatMap SSTable.scanAllVersions) ∧
      ∀ k s, Served p s →
        (valueAt (compactRun p).rows k s = valueAt (capturedRun p).rows k s ↔ FloorKept p k s) := by
  refine ⟨(compactRun p).sorted, fun x => compactRun_versions_subset, fun k s hserved => ?_⟩
  have hentries {e : Entry} : e ∈ p.sstables.flatMap (·.run.entries) ↔
    e ∈ (capturedRun p).entries := by
    simp [capturedRun]
  have hrow {e : Entry} (he : e ∈ p.sstables.flatMap (·.run.entries)) : rowOf e ∈ captured p :=
    mem_capturedRun.mp (SortedRun.mem_rows.mpr ⟨e, hentries.mp he, rfl⟩)
  by_cases hnone : ∃ v, IsNewest (captured p) k s v
  · obtain ⟨v, hv⟩ := hnone
    obtain ⟨a, ha, rfl⟩ := SortedRun.mem_rows.mp (mem_capturedRun.mpr hv.mem)
    have hkey : a.1.userKey = k := hv.key_eq
    have hmax {e : Entry} (he : e ∈ p.sstables.flatMap (·.run.entries)) (hk : e.1.userKey = k)
      (hs : e.1.seq ≤ s) :
        e.1.seq ≤ a.1.seq := hv.maximal (rowOf e) (hrow he) hk hs
    have hcaptured : valueAt (capturedRun p).rows k s =
        (inKeyOrder (versionsOf p k a.1.seq)).head?.bind entryValue := by
      rw [valueAt_eq_head hv.visible fun e he hk hs => ⟨hmax (hentries.mpr he) hk hs, a, ha,
        hkey, rfl⟩,
        capturedRun, filter_insertionSort]
      rfl
    have hcompact {e : Entry} (he : e ∈ (compactRun p).entries) (hk : e.1.userKey = k)
      (hs : e.1.seq ≤ s) :
        e.1.seq ≤ a.1.seq :=
      hv.maximal (rowOf e) (compactRun_subset (SortedRun.mem_rows.mpr ⟨e, he, rfl⟩)) hk hs
    rw [hcaptured]
    have hnewest {w} (hw : IsNewest (captured p) k s w) : w.seq = a.1.seq :=
      le_antisymm (hv.maximal w hw.mem hw.key_eq hw.visible)
        (hw.maximal (rowOf a) hv.mem hv.key_eq hv.visible)
    by_cases hw : p.watermark ≤ a.1.seq
    · have hkept : entryOf k (a.1.seq, a.1.tag, entryValue a) ∈
          (compactRun p).entries.filter fun e => e.1.userKey = k ∧ e.1.seq = a.1.seq := by
        rw [compactRun_filter, compactKey_above groupOf_newestFirst hw, groupOf_filter]
        simpa [inKeyOrder, versionsOf] using ⟨a.1, a.2,
          ⟨by simpa using hentries.mpr ha, hkey, rfl⟩, rfl⟩
      have hread := valueAt_eq_head hv.visible fun e he hk hs =>
        ⟨hcompact he hk hs, _, (List.mem_filter.mp hkept).1, rfl, rfl⟩
      rw [show (rowOf a).seq = a.1.seq from rfl] at hread
      rw [hread, compactRun_above hw]
      exact ⟨fun _ w hw' hlt => absurd hlt (not_lt.mpr (hnewest hw' ▸ hw)), fun _ => rfl⟩
    · have hbelow : ∀ e ∈ p.sstables.flatMap (·.run.entries), e.1.userKey = k →
        e.1.seq < p.watermark →
          e.1.seq ≤ a.1.seq := by
        intro e he hk hlt
        by_contra hgt
        have hs : s < e.1.seq := lt_of_not_ge fun hs => hgt (hmax he hk hs)
        exact absurd (hserved.noGap (rowOf e) (hrow he) hk hs) (not_le.mpr hlt)
      have hread := valueAt_eq_head (m := a.1.seq) hv.visible fun e he hk hs => by
        have hle := hcompact he hk hs
        have hge := seq_of_compactKey groupOf_newestFirst (mem_compactRun_entries he) (by omega) _
          (mem_groupOf.mpr ⟨a, hentries.mpr ha, hkey.trans hk.symm, rfl⟩) (not_le.mp hw)
        exact ⟨hle, e, he, hk, le_antisymm hle hge⟩
      rw [hread, compactRun_below (not_le.mp hw) hbelow]
      exact ⟨fun h w hw' _ => hnewest hw' ▸ h, fun h => h (rowOf a) hv (not_le.mp hw)⟩
  · have hfirst {run : SortedRun} (hsub : ∀ v ∈ run.rows, v ∈ captured p) :
      valueAt run.rows k s = none := by
      have hunseen : firstVisible (capturedRun p).rows k s = none := by
        by_contra hsome
        obtain ⟨x, hx⟩ := Option.ne_none_iff_exists'.mp hsome
        obtain ⟨v, hv, -⟩ := firstVisible_newest (capturedRun p).rows_newestFirst hx
        exact hnone ⟨v, mem_capturedRun.mp hv.mem, hv.key_eq, hv.visible,
          fun w hw => hv.maximal w (mem_capturedRun.mpr hw)⟩
      have hrun : firstVisible run.rows k s = none := firstVisible_eq_none.mpr fun w hw =>
        firstVisible_eq_none.mp hunseen w (mem_capturedRun.mpr (hsub w hw))
      rw [valueAt, hrun]
      rfl
    rw [hfirst fun v => compactRun_subset, hfirst fun v => mem_capturedRun.mp]
    exact ⟨fun _ v hv => absurd ⟨v, hv⟩ hnone, fun _ => rfl⟩

/-- A put and a delete with one number above the watermark, and a duplicate below it. -/
theorem compaction_invisible_above :
    let table (es : List Entry) (h : es.Pairwise fun a b => a.1 ≤ b.1) :
      SSTable := ⟨0, ⟨es, h⟩, fun _ => true, fun _ _ => rfl⟩
    let p : PendingCompaction :=
      ⟨[table [(⟨[1], 3, deleteTag⟩, []), (⟨[1], 1, putTag⟩, [7])] (by decide),
      table [(⟨[1], 3, putTag⟩, [8]), (⟨[1], 1, putTag⟩, [7])] (by decide)], 2, 2⟩
    valueAt (compactRun p).rows [1] 2 = some [7] ∧ valueAt (compactRun p).rows
      [1] 3 = some [8] := by
  intro table p
  have hseq : ∀ v ∈ captured p, v.seq = 1 ∨ p.watermark ≤ v.seq := by decide
  have hkept s : FloorKept p [1] s := by
    intro v hv hlt
    rcases hseq v hv.mem with hone | hle
    · rw [hone]
      decide
    · exact absurd hlt (not_lt.mpr hle)
  have hread s (hs : 2 ≤ s) := ((compaction_invisible_iff p).2.2 [1] s (.inl hs)).mpr (hkept s)
  exact ⟨(hread 2 (by decide)).trans (by decide), (hread 3 (by decide)).trans (by decide)⟩

/-- A put and a delete with one number, in two tables: below the watermark the order of the tables
decides. -/
theorem compaction_loses_put :
    let table (e : Entry) : SSTable := ⟨0, ⟨[e], List.pairwise_singleton ..⟩, fun _ => true,
      fun _ _ => rfl⟩
    let p : PendingCompaction := ⟨[table (⟨[1], 1, deleteTag⟩, []), table (⟨[1], 1, putTag⟩, [7])],
      2, 2⟩
    Served p 2 ∧ valueAt (compactRun p).rows [1] 2 = none ∧ valueAt (capturedRun p).rows
      [1] 2 = some [7] :=
  ⟨.inl (Nat.le_refl 2), by decide, by decide⟩

end StorageLsmCompaction
