import Keystone.DecimalText
import Keystone.OrderedMaps
import Keystone.StorageInternalKey
import Mathlib.Data.List.Induction
import Mathlib.Data.List.Perm.Basic
import Mathlib.Data.List.TakeWhile

/-! # The time index

Entries lie in buckets of one length. The bucket of the newest timestamp is open; the others are
sealed, which sorts and compresses their entries. -/
namespace StorageTimeIndex

open DecimalText List Option OrderedMaps StorageInternalKey

structure TsEntry (V : Type) where
  rowKey : Bytes
  ts : ℤ
  value : V
  deriving DecidableEq

/-- `ts.div_euclid(granularity) * granularity`, none if it panics. -/
def bucketStart (granularity ts : ℤ) : Option ℤ :=
  if granularity = 0 ∨ ¬ InRange 64 (ts / granularity) ∨
    ¬ InRange 64 (ts / granularity * granularity) then
    none
  else some (ts / granularity * granularity)

/-- `storage::compress`: it gives a series back that is sorted, has fewer than 2^32 entries and
whose timestamps differ by less than half the range of a word. -/
structure Compression (V : Type) where
  Series : Type
  compress : List (TsEntry V) → Series
  decompress : Series → List (TsEntry V)
  lossless : ∀ entries : List (TsEntry V), entries.length < 2 ^ 32 →
    entries.Pairwise (fun a b => a.ts ≤ b.ts) →
      (∀ a ∈ entries, ∀ b ∈ entries, b.ts - a.ts < 2 ^ 63) →
    decompress (compress entries) = entries

inductive BucketState {V : Type} (c : Compression V) where
  | opened (entries : List (TsEntry V))
  | sealed (series : c.Series)

structure TimeIndex {V : Type} (c : Compression V) where
  granularity : ℤ
  buckets : OrderedMap ℤ (BucketState c)
  newestTs : ℤ

variable {V : Type} {c : Compression V}

namespace BucketState

def entries : BucketState c → List (TsEntry V)
  | .opened entries => entries
  | .sealed series => c.decompress series

def toSealed : BucketState c → BucketState c
  | .opened entries => .sealed (c.compress (entries.insertionSort fun a b => a.ts ≤ b.ts))
  | .sealed series => .sealed series

end BucketState

namespace TimeIndex

def new (c : Compression V) (granularity : ℤ) : TimeIndex c := ⟨granularity, .empty, -2 ^ 63⟩

def sealNonNewest (buckets : OrderedMap ℤ (BucketState c)) (newestStart : ℤ) :
    OrderedMap ℤ (BucketState c) :=
  buckets.mapValues fun start bucket => if start = newestStart then bucket else bucket.toSealed

/-- A sealed bucket is opened again with the entries it has. -/
def addEntry (buckets : OrderedMap ℤ (BucketState c)) (start : ℤ) (entry : TsEntry V) :
    OrderedMap ℤ (BucketState c) :=
  buckets.upsert start fun old => .opened ((old.map BucketState.entries).getD [] ++ [entry])

def applyInsert (idx : TimeIndex c) (entry : TsEntry V) : Option (TimeIndex c) := do
  let start ← bucketStart idx.granularity entry.ts
  let newestTs := max idx.newestTs entry.ts
  let newestStart ← bucketStart idx.granularity newestTs
  return ⟨idx.granularity, sealNonNewest (addEntry idx.buckets start entry) newestStart, newestTs⟩

/-- `open` replays the log; every insertion is logged first. -/
def replay (c : Compression V) (granularity : ℤ) (log : List (TsEntry V)) : Option (TimeIndex c) :=
  log.foldlM applyInsert (new c granularity)

def queryRange (idx : TimeIndex c) (t0 t1 : ℤ) : Option (List Bytes) := do
  let lo ← bucketStart idx.granularity t0
  return ((idx.buckets.entries.dropWhile (·.1 < lo)).takeWhile (·.1 ≤ t1)).flatMap fun bucket =>
    (bucket.2.entries.filter fun e => t0 ≤ e.ts ∧ e.ts ≤ t1).map TsEntry.rowKey

end TimeIndex

section Buckets

variable {granularity ts ts' start start' : ℤ}

theorem bucketStart_eq_some (h : bucketStart granularity ts = some start) :
    granularity ≠ 0 ∧ start = ts / granularity * granularity ∧ InRange 64 start := by
  unfold bucketStart at h
  split at h
  case isTrue => cases h
  case isFalse hok =>
    obtain rfl := Option.some.inj h
    push Not at hok
    exact ⟨hok.1, rfl, hok.2.2⟩

theorem bucketStart_bounds (hpos : 0 ≤ granularity) (h : bucketStart granularity ts = some start) :
    start ≤ ts ∧ ts < start + granularity := by
  obtain ⟨hne, rfl, -⟩ := bucketStart_eq_some h
  have hmod := Int.emod_add_mul_ediv ts granularity
  have hnonneg := Int.emod_nonneg ts hne
  have hlt := Int.emod_lt_of_pos ts (lt_of_le_of_ne hpos hne.symm)
  rw [mul_comm] at hmod
  omega

theorem bucketStart_mono (hpos : 0 ≤ granularity) (h : bucketStart granularity ts = some start)
    (h' : bucketStart granularity ts' = some start') (hle : ts ≤ ts') : start ≤ start' := by
  obtain ⟨hne, rfl, -⟩ := bucketStart_eq_some h
  obtain ⟨-, rfl, -⟩ := bucketStart_eq_some h'
  exact Int.mul_le_mul_of_nonneg_right (Int.ediv_le_ediv (lt_of_le_of_ne hpos hne.symm) hle) hpos

theorem entries_toSealed (hrange : 0 ≤ granularity ∧ granularity < 2 ^ 63) {bucket : BucketState c}
    (hcount : bucket.entries.length < 2 ^ 32)
    (hplaced : ∀ e ∈ bucket.entries, bucketStart granularity e.ts = some start) :
    bucket.toSealed.entries.Perm bucket.entries := by
  cases bucket with
  | sealed series => exact .refl _
  | opened entries =>
    have hperm := perm_insertionSort (fun a b : TsEntry V => a.ts ≤ b.ts) entries
    have hclose : ∀ a ∈ entries.insertionSort fun a b => a.ts ≤ b.ts,
        ∀ b ∈ entries.insertionSort fun a b => a.ts ≤ b.ts, b.ts - a.ts < 2 ^ 63 := by
      intro a ha b hb
      have hlow := bucketStart_bounds hrange.1 (hplaced a (hperm.mem_iff.1 ha))
      have hhigh := bucketStart_bounds hrange.1 (hplaced b (hperm.mem_iff.1 hb))
      omega
    have hback := c.lossless _ (hperm.length_eq ▸ hcount)
      (pairwise_insertionSort (fun a b : TsEntry V => a.ts ≤ b.ts) entries) hclose
    exact (List.Perm.of_eq hback).trans hperm

end Buckets

structure Holds (idx : TimeIndex c) (log : List (TsEntry V)) : Prop where
  contents : (idx.buckets.entries.flatMap fun b => b.2.entries).Perm log
  placed : ∀ b ∈ idx.buckets.entries, ∀ e ∈ b.2.entries, bucketStart idx.granularity e.ts = some b.1
  newest : log = [] ∧ idx.newestTs = -2 ^ 63 ∨ ∃ e ∈ log, e.ts = idx.newestTs

section Runs

variable {granularity : ℤ} {idx : TimeIndex c} {log : List (TsEntry V)}

theorem addEntry_contents (h : Holds idx log) :
    ((TimeIndex.addEntry idx.buckets start entry).entries.flatMap fun b => b.2.entries).Perm
      (log ++ [entry]) := by
  have hbefore :=
    (idx.buckets.flatMap_entries_perm start fun b => b.2.entries).symm.trans h.contents
  refine (OrderedMap.flatMap_entries_perm _ start _).trans ?_
  rw [TimeIndex.addEntry, OrderedMap.filter_upsert_ne, OrderedMap.get?_upsert_self]
  refine .trans ?_ (hbefore.append_right [entry])
  cases idx.buckets.get? start with
  | none => exact perm_append_comm
  | some bucket =>
    simp only [BucketState.entries, toList_some, flatMap_singleton, append_assoc]
    exact perm_append_comm.append_left _

theorem addEntry_placed (h : Holds idx log) (hstart : bucketStart idx.granularity entry.ts =
    some start) :
    ∀ b ∈ (TimeIndex.addEntry idx.buckets start entry).entries,
      ∀ e ∈ b.2.entries, bucketStart idx.granularity e.ts = some b.1 := by
  rintro ⟨key, bucket⟩ hb e he
  have hget := OrderedMap.get?_eq_some.mpr hb
  rw [TimeIndex.addEntry, OrderedMap.get?_upsert] at hget
  split at hget
  case isTrue hkey =>
    obtain rfl := Option.some.inj hget
    rw [hkey]
    rcases mem_append.mp he with he | he
    · cases hold : idx.buckets.get? start with
      | none => simp [hold] at he
      | some old =>
        rw [hold] at he
        exact h.placed _ (OrderedMap.get?_eq_some.mp hold) e he
    · exact mem_singleton.mp he ▸ hstart
  case isFalse => exact h.placed _ (OrderedMap.get?_eq_some.mp hget) e he

theorem sealNonNewest_holds (hrange : 0 ≤ granularity ∧ granularity < 2 ^ 63)
    {buckets : OrderedMap ℤ (BucketState c)} (hcount : log.length < 2 ^ 32)
    (hcontents : (buckets.entries.flatMap fun b => b.2.entries).Perm log)
    (hplaced : ∀ b ∈ buckets.entries, ∀ e ∈ b.2.entries, bucketStart granularity e.ts = some b.1)
    (hnewest : ∃ e ∈ log, e.ts = newestTs) :
    Holds ⟨granularity, TimeIndex.sealNonNewest buckets newestStart, newestTs⟩ log := by
  have hperm : ∀ b ∈ buckets.entries,
      (if b.1 = newestStart then b.2 else b.2.toSealed).entries.Perm b.2.entries := by
    intro b hb
    split
    · exact .refl _
    · have hsub : b.2.entries.Sublist (buckets.entries.flatMap fun b => b.2.entries) :=
        sublist_flatten_of_mem (mem_map_of_mem hb)
      exact entries_toSealed hrange ((hsub.length_le.trans_eq hcontents.length_eq).trans_lt hcount)
        (hplaced b hb)
  refine ⟨?_, ?_, .inr hnewest⟩
  · refine .trans ?_ hcontents
    rw [TimeIndex.sealNonNewest, OrderedMap.mapValues, flatMap_map]
    exact List.Perm.flatMap_left _ hperm
  · intro b hb e he
    obtain ⟨b', hb', rfl⟩ := mem_map.mp hb
    exact hplaced b' hb' e ((hperm b' hb').mem_iff.mp he)

theorem applyInsert_holds (h : Holds idx log)
    (hrange : 0 ≤ idx.granularity ∧ idx.granularity < 2 ^ 63) (hcount : log.length + 1 < 2 ^ 32)
    (hstarts : ∀ e ∈ log ++ [entry], (bucketStart idx.granularity e.ts).isSome) :
    ∃ idx', idx.applyInsert entry = some idx' ∧ idx'.granularity = idx.granularity ∧
      Holds idx' (log ++ [entry]) := by
  obtain ⟨start, hstart⟩ := isSome_iff_exists.mp (hstarts entry (by simp))
  have hnewest : ∃ e ∈ log ++ [entry], e.ts = max idx.newestTs entry.ts := by
    rcases h.newest with ⟨rfl, hmin⟩ | ⟨e, he, hts⟩
    · refine ⟨entry, by simp, ?_⟩
      have hstarts := (bucketStart_bounds hrange.1 hstart).1
      have hword := (bucketStart_eq_some hstart).2.2.1
      omega
    · rcases le_total idx.newestTs entry.ts with hle | hle
      · exact ⟨entry, by simp, (max_eq_right hle).symm⟩
      · exact ⟨e, by simp [he], hts.trans (max_eq_left hle).symm⟩
  obtain ⟨newestStart, hnew⟩ : ∃ s, bucketStart idx.granularity (max idx.newestTs entry.ts) =
    some s := by
    obtain ⟨e, he, hts⟩ := hnewest
    exact hts ▸ isSome_iff_exists.mp (hstarts e he)
  refine ⟨⟨idx.granularity, TimeIndex.sealNonNewest
    (TimeIndex.addEntry idx.buckets start entry) newestStart,
    max idx.newestTs entry.ts⟩, by simp [TimeIndex.applyInsert, hstart, hnew], rfl, ?_⟩
  exact sealNonNewest_holds hrange (by simpa using hcount) (addEntry_contents h)
    (addEntry_placed h hstart) hnewest

structure Buildable (granularity : ℤ) (log : List (TsEntry V)) : Prop where
  range : 0 ≤ granularity ∧ granularity < 2 ^ 63
  count : log.length < 2 ^ 32
  starts : ∀ e ∈ log, (bucketStart granularity e.ts).isSome

theorem replay_holds (c : Compression V) (h : Buildable granularity log) :
    ∃ idx, TimeIndex.replay c granularity log = some idx ∧ idx.granularity = granularity ∧
      Holds idx log := by
  induction log using List.reverseRecOn with
  | nil =>
    exact ⟨.new c granularity, rfl, rfl, ⟨.refl _, by simp [TimeIndex.new, OrderedMap.empty],
      .inl ⟨rfl, rfl⟩⟩⟩
  | append_singleton log entry ih =>
    obtain ⟨hrange, hcount, hstarts⟩ := h
    rw [length_append, length_singleton] at hcount
    obtain ⟨idx, hidx, rfl, hholds⟩ := ih ⟨hrange, by omega, fun e he => hstarts e (by simp [he])⟩
    obtain ⟨idx', hidx', hsame, hholds'⟩ := applyInsert_holds hholds hrange hcount hstarts
    refine ⟨idx', ?_, hsame, hholds'⟩
    rw [TimeIndex.replay, foldlM_append, ← TimeIndex.replay, hidx]
    simpa using hidx'

theorem lt_of_mem_dropWhile {entries : List (ℤ × A)}
    (hsorted : entries.Pairwise fun a b => a.1 < b.1) :
    ∀ b ∈ entries.dropWhile (·.1 ≤ t1), t1 < b.1 := by
  induction entries with
  | nil => simp
  | cons a rest ih =>
    obtain ⟨hfirst, hrest⟩ := pairwise_cons.mp hsorted
    rw [dropWhile_cons]
    split
    case isTrue => exact ih hrest
    case isFalse hlt =>
      have ha : t1 < a.1 := by simpa using hlt
      exact forall_mem_cons.mpr ⟨ha, fun b hb => ha.trans (hfirst b hb)⟩

theorem flatMap_range {entries : List (ℤ × A)} (hsorted : entries.Pairwise fun a b => a.1 < b.1)
    {f : ℤ × A → List B} (hout : ∀ b ∈ entries, b.1 < lo ∨ t1 < b.1 → f b = []) :
    ((entries.dropWhile (·.1 < lo)).takeWhile (·.1 ≤ t1)).flatMap f = entries.flatMap f := by
  have hfront : (entries.takeWhile (·.1 < lo)).flatMap f = [] := by
    refine flatMap_eq_nil_iff.mpr fun b hb => hout b ((takeWhile_sublist _).subset hb) (.inl ?_)
    simpa using mem_takeWhile_imp hb
  have hback : ((entries.dropWhile (·.1 < lo)).dropWhile (·.1 ≤ t1)).flatMap f = [] := by
    refine flatMap_eq_nil_iff.mpr fun b hb => ?_
    have hsub := (dropWhile_sublist _).subset hb
    exact hout b ((dropWhile_sublist _).subset hsub)
      (.inr (lt_of_mem_dropWhile (hsorted.sublist (dropWhile_sublist _)) b hb))
  conv_rhs => rw [← takeWhile_append_dropWhile (l := entries),
    flatMap_append, hfront, nil_append,
    ← takeWhile_append_dropWhile
      (l := entries.dropWhile (·.1 < lo)), flatMap_append, hback, append_nil]

/-- The keys of the logged entries in the range, as often as they were logged. -/
theorem queryRange_perm (h : Holds idx log) (hpos : 0 ≤ idx.granularity) {t0 lo : ℤ}
    (hlo : bucketStart idx.granularity t0 = some lo) (t1 : ℤ) :
    ∃ keys, idx.queryRange t0 t1 = some keys ∧
      keys.Perm ((log.filter fun e => t0 ≤ e.ts ∧ e.ts ≤ t1).map TsEntry.rowKey) := by
  refine ⟨_, by rw [TimeIndex.queryRange, hlo]; rfl, ?_⟩
  rw [flatMap_range idx.buckets.sorted]
  · refine .trans (.of_eq ?_) ((h.contents.filter _).map _)
    rw [filter_flatMap, map_flatMap]
  · intro b hb hout
    rw [map_eq_nil_iff, filter_eq_nil_iff]
    intro e he hin
    have hplaced := h.placed b hb e he
    obtain ⟨hlow, hhigh⟩ : t0 ≤ e.ts ∧ e.ts ≤ t1 := by simpa using hin
    have hle := bucketStart_mono hpos hlo hplaced hlow
    have hstart := (bucketStart_bounds hpos hplaced).1
    omega

end Runs

end StorageTimeIndex
