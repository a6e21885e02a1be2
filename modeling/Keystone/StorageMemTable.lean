import Keystone.OrderedMaps
import Keystone.StorageInternalKey

/-! # Memtables and tables

The write buffer keeps every version under its own internal key; a table is an immutable run of the
same entries with a filter for negative lookups. -/
namespace StorageMemTable

open List OrderedMaps StorageInternalKey VersionedLayers

/-- `(user_key, seq, tag, value_or_none)`, the shape a scan reads its sources in. -/
abbrev ScannedVersion := Bytes × ℕ × UInt8 × Option Bytes

def SortedRun.versions (run : SortedRun) : List ScannedVersion :=
  run.entries.map fun e => (e.1.userKey, e.1.seq, e.1.tag, entryValue e)

structure MemTable where
  data : OrderedMap InternalKey Bytes
  sizeBytes : ℕ
  maxSize : ℕ

namespace MemTable

def new (maxSize : ℕ) : MemTable := ⟨.empty, 0, maxSize⟩

/-- Every write is a distinct internal key, so nothing is overwritten in place. -/
def insert (m : MemTable) (userKey : Bytes) (seq : ℕ) (value : Bytes) (tag : UInt8) : MemTable :=
  { m with
    data := m.data.insert ⟨userKey, seq, tag⟩ value
    sizeBytes := m.sizeBytes + (userKey.length + value.length + 8 + 1) }

def toEntries (m : MemTable) : SortedRun := ⟨m.data.entries, m.data.sorted.imp le_of_lt⟩

/-- `none`: no entry here, fall through; `some none`: a tombstone; `some (some v)`: a value. -/
def getAt (m : MemTable) (key : Bytes) (snapshotSeq : ℕ) : Option (Option Bytes) :=
  m.toEntries.seekVisible key snapshotSeq

def isFull (m : MemTable) : Bool := m.maxSize ≤ m.sizeBytes

def iterVersions (m : MemTable) : List ScannedVersion := SortedRun.versions m.toEntries

def rows (m : MemTable) : List (Version Bytes Bytes) := m.toEntries.rows

@[simp] theorem rows_new (maxSize : ℕ) : (new maxSize).rows = [] := rfl

theorem rows_newestFirst (m : MemTable) : NewestFirst m.rows := m.toEntries.rows_newestFirst

theorem getAt_eq (m : MemTable) (k : Bytes) (s : ℕ) : m.getAt k s = firstVisible m.rows k s :=
  m.toEntries.seekVisible_eq k s

theorem mem_rows_insert {m : MemTable} (hfresh : ∀ v ∈ m.rows, v.key = userKey → v.seq ≠ seq) :
    v ∈ (m.insert userKey seq value tag).rows ↔
      v = rowOf (⟨userKey, seq, tag⟩, value) ∨ v ∈ m.rows := by
  simp only [rows, SortedRun.mem_rows, toEntries, insert, OrderedMap.mem_insert]
  constructor
  · rintro ⟨e, rfl | ⟨_, he⟩, rfl⟩
    · exact .inl rfl
    · exact .inr ⟨e, he, rfl⟩
  · rintro (rfl | ⟨e, he, rfl⟩)
    · exact ⟨_, .inl rfl, rfl⟩
    · refine ⟨e, .inr ⟨?_, he⟩, rfl⟩
      intro hk
      refine hfresh (rowOf e) (SortedRun.mem_rows.mpr ⟨e, he, rfl⟩) ?_ ?_ <;> simp [rowOf, hk]

end MemTable

/-- The reduction loop: `resolved` is the key already answered from a newer version. -/
def firstVisibleLoop (snapshotSeq : ℕ) :
    Option Bytes → List ScannedVersion → List (Bytes × Option Bytes)
  | _, [] => []
  | resolved, (key, seq, _, value) :: entries =>
    if resolved = some key then firstVisibleLoop snapshotSeq resolved entries
    else if seq ≤ snapshotSeq then
      (key, value) :: firstVisibleLoop snapshotSeq (some key) entries
    else firstVisibleLoop snapshotSeq resolved entries

def firstVisiblePerKey (entries : List ScannedVersion) (snapshotSeq : ℕ) :
    List (Bytes × Option Bytes) :=
  firstVisibleLoop snapshotSeq none entries

/-- The loop lists a key exactly when it is unresolved and has a visible version.
Induction over the run; the bound on `resolved` keeps a resolved key from coming back. -/
theorem mem_firstVisibleLoop {entries : List Entry} (hs : entries.Pairwise fun a b => a.1 ≤ b.1)
    (hr : ∀ k ∈ resolved, ∀ e ∈ entries, k ≤ e.1.userKey) {s : ℕ} :
    (k, x) ∈ firstVisibleLoop s resolved (entries.map fun e => (e.1.userKey, e.1.seq, e.1.tag,
      entryValue e)) ↔
      resolved ≠ some k ∧ firstVisible (entries.map rowOf) k s = some x := by
  induction entries generalizing resolved with
  | nil => simp [firstVisibleLoop, firstVisible]
  | cons e rest ih =>
    obtain ⟨he, hrest⟩ := pairwise_cons.mp hs
    have hr' : ∀ k ∈ resolved, ∀ e ∈ rest, k ≤ e.1.userKey :=
      fun k hk e he => hr k hk e (.tail _ he)
    have hskip : ¬ (e.1.userKey = k ∧ e.1.seq ≤ s) →
        firstVisible ((e :: rest).map rowOf) k s = firstVisible (rest.map rowOf) k s := by
      intro h
      have hhead : ¬ (rowOf e).key = k ∨ ¬ (rowOf e).seq ≤ s := not_and_or.mp h
      rw [firstVisible, firstVisible, map_cons, List.find?_cons_of_neg]
      simpa [imp_iff_not_or] using hhead
    simp only [map_cons, firstVisibleLoop]
    split_ifs with hres hle
    · rw [ih hrest hr']
      by_cases hk : e.1.userKey = k
      · simp [hres, hk]
      · rw [← hskip (fun h => hk h.1), map_cons]
    · rw [mem_cons, ih hrest (by
        rintro _ ⟨⟩ x hx
        exact InternalKey.userKey_le (he x hx))]
      by_cases hk : e.1.userKey = k
      · subst hk
        simp [hres, firstVisible, rowOf, hle, eq_comm]
      · rw [← map_cons, hskip (fun h => hk h.1)]
        have hk' : k ≠ e.1.userKey := Ne.symm hk
        constructor
        · rintro (h | h)
          · exact absurd (Prod.mk.inj h).1 hk'
          · refine ⟨?_, h.2⟩
            rintro rfl
            obtain ⟨v, hv, hvk, _⟩ : ∃ v ∈ rest.map rowOf, v.key = k ∧ v.seq ≤ s := by
              by_contra hno
              push Not at hno
              rw [firstVisible_eq_none.mpr hno] at h
              exact absurd h.2 (by simp)
            obtain ⟨y, hy, rfl⟩ := mem_map.mp hv
            have h1 := hr k rfl e mem_cons_self
            have h2 := InternalKey.userKey_le (he y hy)
            exact hk' (le_antisymm h1 (hvk ▸ h2))
        · rintro ⟨_, h⟩
          exact .inr ⟨by simpa using hk, h⟩
    · rw [ih hrest hr', ← hskip (fun h => hle h.2), map_cons]

theorem mem_firstVisiblePerKey (run : SortedRun) {k : Bytes} {s : ℕ} :
    (k, x) ∈ firstVisiblePerKey (SortedRun.versions run) s ↔
      firstVisible run.rows k s = some x := by
  rw [firstVisiblePerKey, SortedRun.versions, mem_firstVisibleLoop run.sorted (by simp)]
  simp [SortedRun.rows]

/-- The index of the first entry that fails `p`, for a list partitioned by `p`. -/
def partitionPoint {α : Type*} (p : α → Bool) (entries : List α) : ℕ := (entries.takeWhile p).length

theorem getElem?_partitionPoint : entries[partitionPoint p entries]? =
    entries.find? fun e => !p e := by
  induction entries with
  | nil => rfl
  | cons a rest ih =>
    by_cases h : p a
    · simpa [partitionPoint, h] using ih
    · simp [partitionPoint, h]

/-- The filter of a third-party crate. All that lookups rely on is that it has no false
negatives: a key it was built from is always reported as possibly present. -/
structure BloomFilter where
  check : List Bytes → Bytes → Bool
  no_false_negative : ∀ keys, ∀ k ∈ keys, check keys k = true

/-- A decoded table: its id, its index with the values it points at, and its filter. -/
structure SSTable where
  id : ℕ
  run : SortedRun
  bloom : Bytes → Bool
  bloom_check : ∀ e ∈ run.entries, bloom e.1.userKey = true

namespace SSTable

/-- `SSTable::create_in_store`, without the upload. -/
def create (filter : BloomFilter) (id : ℕ) (run : SortedRun) : SSTable where
  id := id
  run := run
  bloom := filter.check (run.entries.map fun e => e.1.userKey)
  bloom_check _ he := filter.no_false_negative _ _ (List.mem_map_of_mem he)

def readAt (t : SSTable) (key : Bytes) (snapshotSeq : ℕ) : Option (Option Bytes) :=
  if !t.bloom key then none
  else
    let idx := partitionPoint (fun e : Entry =>
      e.1.userKey < key ∨ e.1.userKey = key ∧ snapshotSeq < e.1.seq) t.run.entries
    match t.run.entries[idx]? with
    | none => none
    | some e => if e.1.userKey ≠ key then none else some (entryValue e)

def maxSeq (t : SSTable) : ℕ := (t.run.entries.map fun e => e.1.seq).foldl max 0

def scanAllVersions (t : SSTable) : List ScannedVersion := SortedRun.versions t.run

def rows (t : SSTable) : List (Version Bytes Bytes) := t.run.rows

@[simp] theorem rows_create (filter : BloomFilter) (id : ℕ) (run : SortedRun) :
    (create filter id run).rows = run.rows := rfl

theorem rows_newestFirst (t : SSTable) : NewestFirst t.rows := t.run.rows_newestFirst

/-- The filter only short-cuts lookups that would find nothing anyway. -/
theorem readAt_eq (t : SSTable) (k : Bytes) (s : ℕ) : t.readAt k s = firstVisible t.rows k s := by
  rw [rows, ← SortedRun.seekVisible_eq]
  by_cases hb : t.bloom k
  · have hpred : (fun e : Entry => !decide (e.1.userKey < k ∨ e.1.userKey = k ∧ s < e.1.seq)) =
        fun e : Entry => decide (InternalKey.seek k s ≤ e.1) := by
      funext e
      rw [← decide_not, decide_eq_decide, InternalKey.seek_le]
      push Not
      constructor
      · rintro ⟨hk, hs⟩
        rcases lt_or_eq_of_le hk with hk | hk
        · exact .inl hk
        · exact .inr ⟨hk.symm, hs hk.symm⟩
      · rintro (hk | ⟨hk, hs⟩)
        · exact ⟨le_of_lt hk, fun he => absurd he (ne_of_gt hk)⟩
        · exact ⟨le_of_eq hk.symm, fun _ => hs⟩
    simp only [readAt, hb, getElem?_partitionPoint, hpred]
    rfl
  · have hno : firstVisible t.run.rows k s = none := by
      rw [firstVisible_eq_none]
      intro w hw hk
      obtain ⟨e, he, rfl⟩ := SortedRun.mem_rows.mp hw
      exact absurd (hk ▸ t.bloom_check e he) hb
    rw [SortedRun.seekVisible_eq, hno]
    simp [readAt, hb]

theorem foldl_max_le {l : List ℕ} : l.foldl max a ≤ n ↔ a ≤ n ∧ ∀ x ∈ l, x ≤ n := by
  induction l generalizing a with
  | nil => simp
  | cons b l ih => simp [ih, and_assoc]

theorem seq_le_maxSeq {t : SSTable} (hv : v ∈ t.rows) : v.seq ≤ t.maxSeq := by
  obtain ⟨e, he, rfl⟩ := SortedRun.mem_rows.mp hv
  exact (foldl_max_le.mp le_rfl).2 _ (mem_map_of_mem he)

end SSTable
end StorageMemTable
