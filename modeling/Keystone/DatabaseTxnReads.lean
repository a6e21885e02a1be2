import Keystone.DatabaseWrites
import Keystone.OrderedMapIteration

/-! # Reads outside a transaction, next to a batch that is being inserted

`txn_read` and `txn_scan` without a transaction read at the largest sequence number, so what
they see of a batch depends on which of its rows are in the memtable when they look. A scan
walks the memtable without a lock while the writer inserts the rows one at a time. -/
namespace DatabaseTxnReads

open GuardedRuns Option OrderedMapIteration OrderedMaps VersionedLayers
open StorageInternalKey StorageMemTable StorageWal StorageLsmEngine StorageLsmSystem
open StorageLsmReads StorageLsmSteps StorageLsmInvariant
open DatabaseWrites (makeKey)
open LsmEngine (insertRow openEngine replayRow)

structure Txn where
  snapshotSeq : ℕ
  staged : OrderedMap Bytes (Option Bytes)

def makePrefix (table : Bytes) : Bytes := table ++ [0]

def txnRead (readAt : Bytes → ℕ → Option Bytes) (txn : Option Txn) (table key : Bytes) :
    Option Bytes :=
  match txn.bind fun t => t.staged.get? (makeKey table key) with
  | some staged => staged
  | none => readAt (makeKey table key) ((txn.map Txn.snapshotSeq).getD u64Max)

def txnScan (scanAt : ℕ → List (Bytes × Bytes)) (txn : Option Txn) (table : Bytes) :
    List (Bytes × Bytes) :=
  let committed := (scanAt ((txn.map Txn.snapshotSeq).getD u64Max)).filter fun e =>
    (makePrefix table).isPrefixOf e.1
  let merged := EngineView.overlay .empty (committed.map fun e => (e.1, some e.2))
  let merged := match txn with
    | some t => EngineView.overlay merged
        (t.staged.entries.filter fun e => (makePrefix table).isPrefixOf e.1)
    | none => merged
  merged.entries.filterMap fun e => e.2.map fun v => (e.1.drop (makePrefix table).length, v)

def scanAtOver (view : EngineView) (visited : List Entry) (snapshotSeq : ℕ) :
    List (Bytes × Bytes) :=
  let merged := view.sstables.foldl
    (fun m t => EngineView.overlay m (firstVisiblePerKey t.scanAllVersions snapshotSeq)) .empty
  let merged := match view.immutable with
    | some imm => EngineView.overlay merged (firstVisiblePerKey imm.iterVersions snapshotSeq)
    | none => merged
  let merged := EngineView.overlay merged (firstVisiblePerKey
    (visited.map fun e => (e.1.userKey, e.1.seq, e.1.tag, entryValue e)) snapshotSeq)
  merged.entries.filterMap fun e => e.2.map fun v => (e.1, v)

/-- The writer has still to insert `pending`; `reads` are the answers of the point reads, in
order. The rows that the scan was still to come to when they were inserted are noted as
`caught`. -/
structure Scene where
  memtable : MemTable
  pending : List BatchRow
  scan : Iteration InternalKey Bytes
  reads : List (Bytes × Option Bytes)
  caught : List BatchRow

inductive Action where
  | insert
  | advance
  | read (table key : Bytes)

def rowKey (seq : ℕ) (r : BatchRow) : InternalKey := ⟨r.key, seq, r.tag⟩

def start (view : EngineView) (batch : Batch) : Scene :=
  ⟨view.memtable, batch.rows, .start, [], []⟩

def step (view : EngineView) (seq : ℕ) (s : Scene) : Action → Scene
  | .insert =>
    match s.pending with
    | [] => s
    | r :: rest =>
      { s with
        memtable := insertRow seq s.memtable r
        pending := rest
        caught := if s.scan.isAhead (rowKey seq r) then r :: s.caught else s.caught }
  | .advance => { s with scan := s.scan.advance s.memtable.data }
  | .read table key =>
    { s with reads := s.reads ++ [(makeKey table key,
      txnRead { view with memtable := s.memtable }.readAt none table key)] }

def scanned (view : EngineView) (s : Scene) (table : Bytes) : List (Bytes × Bytes) :=
  txnScan (scanAtOver view s.scan.visited) none table

def InTable (table : Bytes) (r : BatchRow) : Prop := (makePrefix table).isPrefixOf r.key = true

instance (table : Bytes) (r : BatchRow) : Decidable (InTable table r) :=
  inferInstanceAs (Decidable (_ = _))

def Changes (view : EngineView) (r : BatchRow) : Prop := r.value ≠ view.readAt r.key u64Max

instance (view : EngineView) (r : BatchRow) : Decidable (Changes view r) :=
  inferInstanceAs (Decidable (_ ≠ _))

def Shows (listing : List (Bytes × Bytes)) (key : Bytes) (value : Option Bytes) : Prop :=
  ∀ v, (key, v) ∈ listing ↔ value = some v

/-- The listing of a table shows the effects of all rows of the batch, or of none. -/
def ScanWhole (view : EngineView) (batch : Batch) (table : Bytes)
    (listing : List (Bytes × Bytes)) : Prop :=
  (∀ r ∈ batch.rows, ∀ key, r.key = makeKey table key → Shows listing key r.value) ∨
    ∀ r ∈ batch.rows, ∀ key, r.key = makeKey table key →
      Shows listing key (view.readAt r.key u64Max)

/-- The point reads of keys of a table show the effects of all rows, or of none. -/
def ReadsWhole (view : EngineView) (batch : Batch) (table : Bytes)
    (reads : List (Bytes × Option Bytes)) : Prop :=
  (∀ o ∈ reads, ∀ r ∈ batch.rows, InTable table r → o.1 = r.key → o.2 = r.value) ∨
    ∀ o ∈ reads, ∀ r ∈ batch.rows, InTable table r → o.1 = r.key →
      o.2 = view.readAt r.key u64Max

/-- Rows of the table that make a difference go in where the scan is still to come
(`expected = true`), or where it is gone (`expected = false`). -/
def InsertsMeet (view : EngineView) (seq : ℕ) (table : Bytes) (expected : Bool) (s : Scene) :
    Action → Prop
  | .insert => ∀ r ∈ s.pending.head?, InTable table r → Changes view r →
      s.scan.isAhead (rowKey seq r) = expected
  | _ => True

instance (view : EngineView) (seq : ℕ) (table : Bytes) (expected : Bool) (s : Scene) :
    (a : Action) → Decidable (InsertsMeet view seq table expected s a)
  | .insert => by unfold InsertsMeet; infer_instance
  | .advance => .isTrue trivial
  | .read .. => .isTrue trivial

def ReadsAfter (view : EngineView) (table : Bytes) (s : Scene) : Action → Prop
  | .read t key => ∀ r ∈ s.pending, r.key = makeKey t key → InTable table r → ¬ Changes view r
  | _ => True

def ReadsBefore (view : EngineView) (batch : Batch) (table : Bytes) (s : Scene) : Action → Prop
  | .read t key => ∀ r ∈ batch.rows, r.key = makeKey t key → InTable table r → Changes view r →
      r ∈ s.pending
  | _ => True

section Answers

variable {view : EngineView} {batch : Batch} {seq : ℕ}

structure Fresh (view : EngineView) (seq : ℕ) : Prop where
  older : ∀ v ∈ view.memtable.rows, v.seq < seq
  bounded : seq ≤ u64Max

def entryOf (seq : ℕ) (r : BatchRow) : Entry := (rowKey seq r, r.bytes)

def Holds (view : EngineView) (seq : ℕ) (m : MemTable) (rows : List BatchRow) : Prop :=
  ∀ e, e ∈ m.data.entries ↔ e ∈ view.memtable.data.entries ∨ e ∈ rows.map (entryOf seq)

variable {m : MemTable} {rows : List BatchRow}

theorem mem_rows_iff : v ∈ m.rows ↔ ∃ e ∈ m.data.entries, rowOf e = v := SortedRun.mem_rows

theorem Holds.mem_rows (h : Holds view seq m rows) :
    v ∈ m.rows ↔ v ∈ view.memtable.rows ∨ v ∈ rows.map fun r => r.version seq := by
  have hrow : ∀ r, rowOf (entryOf seq r) = r.version seq := fun r => rowOf_batchRow r seq
  simp only [mem_rows_iff, h _, List.mem_map, or_and_right, exists_or,
    exists_exists_and_eq_and, hrow]

theorem readAt_memtable : { view with memtable := m }.readAt k s = ((firstVisible m.rows k s).or
      ((layers view).tail.findSome? fun rows => firstVisible rows k s)).join := by
  rw [readAt_eq_resolve, resolve, layers, List.findSome?_cons]
  cases firstVisible m.rows k s <;> rfl

variable {r : BatchRow}

theorem key_eq_of_mem (hr : r ∈ batch.rows) (hx : x ∈ batch.rows) (hk : r.key = x.key) : r = x :=
  List.inj_on_of_nodup_map batch.distinct hr hx hk

theorem readAt_row (hfresh : Fresh view seq) (hm : Holds view seq m rows)
    (hsub : ∀ r ∈ rows, r ∈ batch.rows) (hr : r ∈ rows) :
    { view with memtable := m }.readAt r.key u64Max = r.value := by
  have hmem : r.version seq ∈ m.rows := hm.mem_rows.mpr (.inr (List.mem_map_of_mem hr))
  have hrow : ∀ w ∈ m.rows, w.key = r.key → w = r.version seq ∨ w.seq < seq := by
    intro w hw hk
    rcases hm.mem_rows.mp hw with hw | hw
    · exact .inr (hfresh.older w hw)
    · obtain ⟨x, hx, rfl⟩ := List.mem_map.mp hw
      rw [key_eq_of_mem (hsub x hx) (hsub r hr) hk]
      exact .inl rfl
  have hfirst : firstVisible m.rows r.key u64Max = some r.value := by
    cases hfound : firstVisible m.rows r.key u64Max with
    | none =>
      have := firstVisible_eq_none.mp hfound _ hmem rfl
      exact absurd hfresh.bounded (not_le.mpr this)
    | some x =>
      obtain ⟨w, hw, rfl⟩ := firstVisible_newest m.rows_newestFirst hfound
      have hle : seq ≤ w.seq := hw.maximal _ hmem rfl hfresh.bounded
      rcases hrow w hw.mem hw.key_eq with rfl | hlt
      · rfl
      · exact absurd hle (not_le.mpr hlt)
  rw [readAt_memtable, hfirst]
  rfl

theorem readAt_other (hm : Holds view seq m rows) (hk : ∀ r ∈ rows, r.key ≠ k) :
    { view with memtable := m }.readAt k u64Max = view.readAt k u64Max := by
  have hfind : m.data.entries.find? (fun e => (rowOf e).key = k ∧ (rowOf e).seq ≤ u64Max) =
      view.memtable.data.entries.find? fun e => (rowOf e).key = k ∧ (rowOf e).seq ≤ u64Max := by
    refine OrderedMap.find?_congr fun e he => ?_
    rw [hm, or_iff_left]
    intro hrow
    obtain ⟨r, hr, rfl⟩ := List.mem_map.mp hrow
    exact hk r hr (of_decide_eq_true he).1
  have hsame : firstVisible m.rows k u64Max = firstVisible view.memtable.rows k u64Max := by
    have hrows : ∀ x : MemTable, firstVisible x.rows k u64Max = ((x.data.entries.find? fun e =>
        (rowOf e).key = k ∧ (rowOf e).seq ≤ u64Max).map rowOf).map Version.value := by
      intro x
      change ((x.data.entries.map rowOf).find? _).map _ = _
      rw [List.find?_map]
      rfl
    rw [hrows, hrows, hfind]
  rw [readAt_memtable, hsame, ← readAt_memtable]

theorem makeKey_eq (table key : Bytes) : makeKey table key = makePrefix table ++ key := by
  simp [makeKey, makePrefix]

theorem inTable_iff : InTable table r ↔ ∃ key, r.key = makeKey table key := by
  simp only [InTable, List.isPrefixOf_iff_prefix, makeKey_eq]
  exact ⟨fun ⟨key, h⟩ => ⟨key, h.symm⟩, fun ⟨key, h⟩ => ⟨key, h.symm⟩⟩

def listing (rows : List (Bytes × Bytes)) (hs : rows.Pairwise fun a b => a.1 < b.1) :
    OrderedMap Bytes (Option Bytes) :=
  ⟨rows.map fun e => (e.1, some e.2), List.pairwise_map.mpr hs⟩

theorem get?_listing {rows : List (Bytes × Bytes)} {hs : rows.Pairwise fun a b => a.1 < b.1} :
    (listing rows hs).get? k = some x ↔ ∃ v, x = some v ∧ (k, v) ∈ rows := by
  rw [OrderedMap.get?_eq_some]
  simp only [listing, List.mem_map, Prod.mk.injEq, Prod.exists]
  constructor
  · rintro ⟨a, v, hmem, rfl, rfl⟩
    exact ⟨v, rfl, hmem⟩
  · rintro ⟨v, rfl, hmem⟩
    exact ⟨k, v, hmem, rfl, rfl⟩

def txnMerged (scanAt : ℕ → List (Bytes × Bytes)) (txn : Option Txn) (table : Bytes) :
    OrderedMap Bytes (Option Bytes) :=
  let committed := (scanAt ((txn.map Txn.snapshotSeq).getD u64Max)).filter fun e =>
    (makePrefix table).isPrefixOf e.1
  let merged := EngineView.overlay .empty (committed.map fun e => (e.1, some e.2))
  match txn with
    | some t => EngineView.overlay merged
        (t.staged.entries.filter fun e => (makePrefix table).isPrefixOf e.1)
    | none => merged

theorem txnScan_eq : txnScan scanAt txn table =
    (txnMerged scanAt txn table).entries.filterMap fun e =>
      e.2.map fun v => (e.1.drop (makePrefix table).length, v) := rfl

section Scan

variable {scanAt : ℕ → List (Bytes × Bytes)} {txn : Option Txn} {table : Bytes}
  (hs : (scanAt ((txn.map Txn.snapshotSeq).getD u64Max)).Pairwise fun a b => a.1 < b.1)

/-- A key of the table is looked up among the staged writes and then among the committed rows;
keys of other tables are not there. -/
theorem get?_txnMerged : (txnMerged scanAt txn table).get? c =
    if (makePrefix table).isPrefixOf c then
      (txn.bind fun t => t.staged.get? c).or ((listing _ hs).get? c) else none := by
  have hcommitted : ∀ m : OrderedMap Bytes (Option Bytes),
      (EngineView.overlay m (((scanAt ((txn.map Txn.snapshotSeq).getD u64Max)).filter fun e =>
        (makePrefix table).isPrefixOf e.1).map fun e => (e.1, some e.2))).get? c =
      (((listing _ hs).filterKeys fun k => (makePrefix table).isPrefixOf k).get? c).or
        (m.get? c) := by
    intro m
    rw [← get?_overlay_map, OrderedMap.filterKeys, listing]
    dsimp only
    rw [List.filter_map]
    rfl
  unfold txnMerged
  cases txn with
  | none =>
    rw [hcommitted, OrderedMap.get?_filterKeys]
    simp
  | some t =>
    refine (get?_overlay_map _ (t.staged.filterKeys fun k => (makePrefix table).isPrefixOf k)
      c).trans ?_
    refine (congrArg (Option.or _) (hcommitted .empty)).trans ?_
    rw [OrderedMap.get?_filterKeys, OrderedMap.get?_filterKeys]
    split_ifs <;> simp

include hs in
theorem prefix_of_mem_txnMerged
    (he : e ∈ (txnMerged scanAt txn table).entries) : ∃ key, e.1 = makeKey table key := by
  have hget := OrderedMap.get?_eq_some.mpr he
  rw [get?_txnMerged hs] at hget
  split_ifs at hget with hpre
  obtain ⟨key, hkey⟩ := List.isPrefixOf_iff_prefix.mp hpre
  exact ⟨key, by rw [makeKey_eq, hkey]⟩

theorem drop_makeKey (table key : Bytes) :
    (makeKey table key).drop (makePrefix table).length = key := by
  rw [makeKey_eq, List.drop_left]

theorem mem_txnScan_iff : (key, v) ∈ txnScan scanAt txn table ↔
      (txn.bind fun t => t.staged.get? (makeKey table key)).or
        ((listing _ hs).get? (makeKey table key)) = some (some v) := by
  have hpre : (makePrefix table).isPrefixOf (makeKey table key) = true := by
    rw [List.isPrefixOf_iff_prefix, makeKey_eq]
    exact List.prefix_append _ _
  have hget : (txnMerged scanAt txn table).get? (makeKey table key) = _ := get?_txnMerged hs
  rw [if_pos hpre] at hget
  rw [← hget, OrderedMap.get?_eq_some, txnScan_eq, List.mem_filterMap]
  constructor
  · rintro ⟨⟨c, x⟩, he, heq⟩
    obtain ⟨k, hk⟩ := prefix_of_mem_txnMerged hs he
    obtain ⟨w, rfl, hw⟩ := map_eq_some_iff.mp heq
    rw [hk, drop_makeKey] at hw
    obtain ⟨rfl, rfl⟩ := Prod.mk.inj hw
    exact hk ▸ he
  · intro he
    exact ⟨_, he, by rw [drop_makeKey]; rfl⟩

end Scan

theorem mem_txnScan (hs : (scanAt u64Max).Pairwise fun a b => a.1 < b.1) :
    (key, v) ∈ txnScan scanAt none table ↔ (makeKey table key, v) ∈ scanAt u64Max := by
  rw [mem_txnScan_iff hs, bind_none, none_or, get?_listing]
  simp

end Answers

section Runs

variable {view : EngineView} {batch : Batch} {seq : ℕ} {s : Scene} {table : Bytes}

/-- What every state of a scene satisfies: the memtable holds the rows before `pending`, the
scan is on its way through what it caught, and no row is both caught and pending. -/
structure Inserting (view : EngineView) (batch : Batch) (seq : ℕ) (s : Scene) : Prop where
  inserted : ∃ rows, batch.rows = rows ++ s.pending ∧ Holds view seq s.memtable rows
  covers : Covers s.memtable.data (s.caught.map (entryOf seq) ++ view.memtable.data.entries) s.scan
  caught_sub : ∀ r ∈ s.caught, r ∈ batch.rows
  apart : ∀ r ∈ s.pending, r ∉ s.caught

namespace Inserting

theorem initial (view : EngineView) (batch : Batch) (seq : ℕ) :
    Inserting view batch seq (start view batch) where
  inserted := ⟨[], rfl, fun e => by simp [start]⟩
  covers := Covers.start _
  caught_sub := by simp [start]
  apart := by simp [start]

variable {r : BatchRow} (h : Inserting view batch seq s)

include h

theorem pending_sub (hr : r ∈ s.pending) : r ∈ batch.rows := by
  obtain ⟨rows, hrows, _⟩ := h.inserted
  rw [hrows]
  exact List.mem_append_right _ hr

theorem pending_nodup : s.pending.Nodup := by
  obtain ⟨rows, hrows, _⟩ := h.inserted
  have hnodup := batch.distinct.of_map
  rw [hrows] at hnodup
  exact (List.nodup_append.mp hnodup).2.1

theorem insert_row (hfresh : Fresh view seq) (hpending : s.pending = r :: rest) :
    Inserting view batch seq (step view seq s .insert) := by
  have hr : r ∈ batch.rows := h.pending_sub (hpending ▸ List.mem_cons_self)
  have hnotin : r ∉ rest := (List.nodup_cons.mp (hpending ▸ h.pending_nodup)).1
  obtain ⟨rows, hrows, hm⟩ := h.inserted
  rw [hpending] at hrows
  have hkeys : ∀ x ∈ rows, x.key ≠ r.key := by
    have hnodup := batch.distinct
    rw [hrows, List.map_append, List.nodup_append] at hnodup
    intro x hx
    exact hnodup.2.2 x.key (List.mem_map_of_mem hx) r.key (by simp)
  have hentry : ∀ e ∈ s.memtable.data.entries, e.1 ≠ rowKey seq r := by
    intro e he hk
    rcases (hm e).mp he with he | he
    · have hlt := hfresh.older (rowOf e) (mem_rows_iff.mpr ⟨e, he, rfl⟩)
      simp [rowOf, hk, rowKey] at hlt
    · obtain ⟨x, hx, rfl⟩ := List.mem_map.mp he
      exact hkeys x hx (congrArg InternalKey.userKey hk)
  have hcovers := h.covers.insert hentry r.bytes
  simp only [step, hpending]
  refine ⟨⟨rows ++ [r], by simp [hrows], fun e => ?_⟩, ?_, ?_, ?_⟩
  · change e ∈ (s.memtable.data.insert (rowKey seq r) r.bytes).entries ↔ _
    rw [OrderedMap.mem_insert, and_iff_right_of_imp (hentry e), hm]
    simp [entryOf, or_comm, or_left_comm]
  · split_ifs at hcovers ⊢
    · exact hcovers
    · exact hcovers
  · intro x hx
    split_ifs at hx
    · rcases List.mem_cons.mp hx with rfl | hx
      · exact hr
      · exact h.caught_sub x hx
    · exact h.caught_sub x hx
  · intro x hx
    have hxr : x ≠ r := fun h => hnotin (h ▸ hx)
    have hout : x ∉ s.caught := h.apart x (hpending ▸ List.mem_cons_of_mem _ hx)
    split_ifs
    · simp [hxr, hout]
    · exact hout

theorem next (hfresh : Fresh view seq) (a : Action) :
    Inserting view batch seq (step view seq s a) := by
  cases a with
  | insert =>
    cases hpending : s.pending with
    | nil => simpa only [step, hpending] using h
    | cons r rest => exact h.insert_row hfresh hpending
  | advance => exact { h with covers := h.covers.advance }
  | read => exact { h with }

theorem run (hfresh : Fresh view seq) (schedule : List Action) :
    Inserting view batch seq (GuardedRuns.run (step view seq) s schedule) := by
  induction schedule generalizing s with
  | nil => exact h
  | cons a schedule ih => exact ih (h.next hfresh a)

theorem readAt_inserted (hfresh : Fresh view seq) (hr : r ∈ batch.rows) (hnot : r ∉ s.pending) :
    { view with memtable := s.memtable }.readAt r.key u64Max = r.value := by
  obtain ⟨rows, hrows, hm⟩ := h.inserted
  have hsub : ∀ x ∈ rows, x ∈ batch.rows := by
    rw [hrows]
    exact fun x hx => List.mem_append_left _ hx
  rw [hrows] at hr
  exact readAt_row hfresh hm hsub ((List.mem_append.mp hr).resolve_right hnot)

theorem readAt_pending (hr : r ∈ s.pending) :
    { view with memtable := s.memtable }.readAt r.key u64Max = view.readAt r.key u64Max := by
  obtain ⟨rows, hrows, hm⟩ := h.inserted
  refine readAt_other hm fun x hx hk => ?_
  have hnodup := batch.distinct.of_map
  rw [hrows] at hnodup
  have hxr : x = r := key_eq_of_mem (by rw [hrows]; exact List.mem_append_left _ hx)
    (h.pending_sub hr) hk
  exact (List.nodup_append.mp hnodup).2.2 x hx r hr hxr

def visitedTable : MemTable :=
  ⟨⟨s.scan.visited, h.covers.sorted⟩, 0, 0⟩

theorem visited_holds (hfin : s.scan.finished = true) :
    Holds view seq h.visitedTable s.caught := by
  intro e
  change e ∈ s.scan.visited ↔ _
  rw [h.covers.mem_visited hfin, List.mem_append]
  exact or_comm

variable {key : Bytes}

theorem mem_scanned : (key, v) ∈ scanned view s table ↔
      { view with memtable := h.visitedTable }.readAt (makeKey table key) u64Max = some v := by
  have hscan : scanAtOver view s.scan.visited = { view with memtable := h.visitedTable }.scanAt :=
    rfl
  rw [scanned, hscan, mem_txnScan (scanAt_sorted ..), mem_scanAt_iff_readAt]

theorem shows_caught (hfresh : Fresh view seq) (hfin : s.scan.finished = true) (hr : r ∈ s.caught)
    (hk : r.key = makeKey table key) :
    Shows (scanned view s table) key r.value := by
  intro v
  rw [h.mem_scanned, ← hk, readAt_row hfresh (h.visited_holds hfin) h.caught_sub hr]

theorem shows_missed (hfin : s.scan.finished = true) (hr : r ∈ batch.rows)
    (hnot : r ∉ s.caught) (hk : r.key = makeKey table key) :
    Shows (scanned view s table) key (view.readAt r.key u64Max) := by
  intro v
  rw [h.mem_scanned, ← hk, readAt_other (h.visited_holds hfin)]
  intro x hx hkey
  exact hnot (key_eq_of_mem (h.caught_sub x hx) hr hkey ▸ hx)

end Inserting

theorem Shows.unique {listing : List (Bytes × Bytes)}
    (ha : Shows listing key a) (hb : Shows listing key b) : a = b :=
  ext fun v => (ha v).symm.trans (hb v)

/-- A scan shows the batch whole exactly if it caught all the rows that matter, or none. -/
theorem scanWhole_iff (hfresh : Fresh view seq) (h : Inserting view batch seq s)
    (hfin : s.scan.finished = true) :
    ScanWhole view batch table (scanned view s table) ↔
      (∀ r ∈ batch.rows, InTable table r → Changes view r → r ∈ s.caught) ∨
        ∀ r ∈ batch.rows, InTable table r → Changes view r → r ∉ s.caught := by
  refine or_congr ⟨fun hall r hr ht hc => ?_, fun hall r hr key hk => ?_⟩
    ⟨fun hnone r hr ht hc hin => ?_, fun hnone r hr key hk => ?_⟩
  · obtain ⟨key, hk⟩ := inTable_iff.mp ht
    by_contra hnot
    exact hc ((hall r hr key hk).unique (h.shows_missed hfin hr hnot hk))
  · by_cases hin : r ∈ s.caught
    · exact h.shows_caught hfresh hfin hin hk
    · have hsame : ¬ Changes view r := fun hc => hin (hall r hr (inTable_iff.mpr ⟨key, hk⟩) hc)
      rw [not_not.mp hsame]
      exact h.shows_missed hfin hr hin hk
  · obtain ⟨key, hk⟩ := inTable_iff.mp ht
    exact hc ((h.shows_caught hfresh hfin hin hk).unique (hnone r hr key hk))
  · by_cases hin : r ∈ s.caught
    · have hsame : ¬ Changes view r := fun hc => hnone r hr (inTable_iff.mpr ⟨key, hk⟩) hc hin
      rw [← not_not.mp hsame]
      exact h.shows_caught hfresh hfin hin hk
    · exact h.shows_missed hfin hr hin hk

theorem pending_run (hr : r ∈ (run (step view seq) s schedule).pending) : r ∈ s.pending := by
  induction schedule generalizing s with
  | nil => exact hr
  | cons a schedule ih =>
    have hstep := ih hr
    cases a with
    | insert =>
      cases hp : s.pending with
      | nil => simpa only [step, hp] using hstep
      | cons x rest =>
        simp only [step, hp] at hstep
        exact List.mem_cons_of_mem _ hstep
    | advance | read => exact hstep

theorem caught_run (hr : r ∉ s.pending) : r ∈ (run (step view seq) s schedule).caught ↔
    r ∈ s.caught := by
  induction schedule generalizing s with
  | nil => rfl
  | cons a schedule ih =>
    cases a with
    | insert =>
      cases hp : s.pending with
      | nil => simpa only [run_cons, step, hp] using ih hr
      | cons x rest =>
        rw [hp, List.mem_cons, not_or] at hr
        simp only [run_cons, step, hp]
        refine (ih hr.2).trans ?_
        split_ifs
        · simp [hr.1]
        · rfl
    | advance | read => exact ih hr

/-- Induction over the schedule; a row of `pending` is looked at when its turn comes. -/
theorem along_insertsMeet (hfresh : Fresh view seq) (h : Inserting view batch seq s) :
    Along (step view seq) (InsertsMeet view seq table expected) s schedule ↔
      ∀ r ∈ s.pending, InTable table r → Changes view r →
        r ∉ (run (step view seq) s schedule).pending →
        (r ∈ (run (step view seq) s schedule).caught ↔ expected = true) := by
  induction schedule generalizing s with
  | nil => exact ⟨fun _ r hr _ _ hnot => absurd hr hnot, fun _ => trivial⟩
  | cons a schedule ih =>
    have hnext := ih (h.next hfresh a)
    cases a with
    | advance | read t key => exact (and_iff_right trivial).trans hnext
    | insert =>
      cases hp : s.pending with
      | nil =>
        have hmeet : InsertsMeet view seq table expected s .insert := by simp [InsertsMeet, hp]
        refine (and_iff_right hmeet).trans (hnext.trans ?_)
        simp [step, hp]
      | cons r rest =>
        have hnotin : r ∉ rest := (List.nodup_cons.mp (hp ▸ h.pending_nodup)).1
        have hrest : (step view seq s .insert).pending = rest := by simp [step, hp]
        have hdecided : r ∈ (run (step view seq) s (.insert :: schedule)).caught ↔
            s.scan.isAhead (rowKey seq r) = true := by
          rw [run_cons, caught_run (hrest ▸ hnotin)]
          have hout : r ∉ s.caught := h.apart r (hp ▸ List.mem_cons_self)
          simp only [step, hp]
          split_ifs with hahead
          · simp [hahead]
          · simp [hahead, hout]
        have hgone : r ∉ (run (step view seq) s (.insert :: schedule)).pending :=
          fun hr => hnotin (hrest ▸ pending_run hr)
        have hmeet : InsertsMeet view seq table expected s .insert ↔
            (InTable table r → Changes view r → s.scan.isAhead (rowKey seq r) = expected) := by
          simp [InsertsMeet, hp]
        change InsertsMeet view seq table expected s .insert ∧ _ ↔ _
        rw [hmeet, hnext, hrest, List.forall_mem_cons, hdecided]
        rw [forall_prop_of_true hgone]
        cases expected <;> simp

/-- The point reads satisfy `Q` exactly if every read does when it is made. -/
theorem reads_run (hfresh : Fresh view seq) {Q : Bytes × Option Bytes → Prop}
    (hread : ∀ s t key, Inserting view batch seq s → (G s (.read t key) ↔
      Q (makeKey t key, { view with memtable := s.memtable }.readAt (makeKey t key) u64Max)))
    (hother : ∀ s, G s .insert ∧ G s .advance) (h : Inserting view batch seq s) :
    (∀ o ∈ (run (step view seq) s schedule).reads, Q o) ↔
      (∀ o ∈ s.reads, Q o) ∧ Along (step view seq) G s schedule := by
  induction schedule generalizing s with
  | nil => exact (and_iff_left trivial).symm
  | cons a schedule ih =>
    rw [run_cons, ih (h.next hfresh a)]
    change _ ↔ _ ∧ G s a ∧ _
    rw [← and_assoc]
    refine and_congr_left' ?_
    cases a with
    | advance => exact (and_iff_left (hother s).2).symm
    | insert =>
      rw [and_iff_left (hother s).1]
      cases hp : s.pending <;> simp only [step, hp]
    | read t key =>
      rw [hread s t key h]
      simp only [step, List.forall_mem_append, List.forall_mem_singleton]
      rfl

theorem readsWhole_iff (hfresh : Fresh view seq) :
    ReadsWhole view batch table (run (step view seq) (start view batch) schedule).reads ↔
      Along (step view seq) (ReadsAfter view table) (start view batch) schedule ∨
        Along (step view seq) (ReadsBefore view batch table) (start view batch) schedule := by
  have hinit : Inserting view batch seq (start view batch) := .initial view batch seq
  refine or_congr ?_ ?_
  · rw [reads_run hfresh (G := ReadsAfter view table) ?_ (fun _ => ⟨trivial, trivial⟩) hinit]
    · simp [start]
    intro s t key hs
    refine ⟨fun hguard r hr ht hk => ?_, fun hall r hr hk ht => ?_⟩
    · dsimp only at hk ⊢
      rw [hk]
      by_cases hp : r ∈ s.pending
      · rw [hs.readAt_pending hp, not_not.mp (hguard r hp hk.symm ht)]
      · exact hs.readAt_inserted hfresh hr hp
    · have hvalue := hall r (hs.pending_sub hr) ht hk.symm
      rw [← hk, hs.readAt_pending hr] at hvalue
      exact not_not.mpr hvalue.symm
  · rw [reads_run hfresh (G := ReadsBefore view batch table) ?_ (fun _ => ⟨trivial, trivial⟩) hinit]
    · simp [start]
    intro s t key hs
    refine ⟨fun hguard r hr ht hk => ?_, fun hall r hr hk ht hc => ?_⟩
    · dsimp only at hk ⊢
      rw [hk]
      by_cases hp : r ∈ s.pending
      · exact hs.readAt_pending hp
      · rw [hs.readAt_inserted hfresh hr hp]
        exact not_not.mp fun hc => hp (hguard r hr hk.symm ht hc)
    · by_contra hp
      have hvalue := hall r hr ht hk.symm
      rw [← hk, hs.readAt_inserted hfresh hr hp] at hvalue
      exact hc hvalue

theorem scanWhole_run (hfresh : Fresh view seq)
    (hfin : (run (step view seq) (start view batch) schedule).scan.finished = true) :
    ScanWhole view batch table
      (scanned view (run (step view seq) (start view batch) schedule) table) ↔
      (Along (step view seq) (InsertsMeet view seq table true) (start view batch) schedule ∧
        ∀ r ∈ (run (step view seq) (start view batch) schedule).pending,
          InTable table r → ¬ Changes view r) ∨
      Along (step view seq) (InsertsMeet view seq table false) (start view batch) schedule := by
  have hinit : Inserting view batch seq (start view batch) := .initial view batch seq
  have hend := hinit.run hfresh schedule
  rw [scanWhole_iff hfresh hend hfin, along_insertsMeet hfresh hinit,
    along_insertsMeet hfresh hinit]
  refine or_congr ⟨fun hall => ⟨fun r hr ht hc _ => ?_, fun r hr ht hc => ?_⟩, ?_⟩
    ⟨fun hnone r hr ht hc _ => ?_, fun hnone r hr ht hc hin => ?_⟩
  · simpa using hall r hr ht hc
  · exact hend.apart r hr (hall r (hend.pending_sub hr) ht hc)
  · rintro ⟨hmeet, hpending⟩ r hr ht hc
    exact (hmeet r hr ht hc fun hp => hpending r hp ht hc).mpr rfl
  · simpa using hnone r hr ht hc
  · exact absurd ((hnone r hr ht hc fun hp => hend.apart r hp hin).mp hin) (by simp)

end Runs

def Stamped (σ : Sys) : Prop := ∀ v ∈ σ.mem.rows, v.seq < σ.nextSeq

theorem stamped_op (h : Stamped σ) : Stamped (apply filter σ op) := by
  cases op with
  | failAppend => exact fun v hv => Nat.lt_succ_of_lt (h v hv)
  | addRows batch =>
    intro v hv
    have hfresh : ∀ r ∈ batch.rows, ∀ w ∈ σ.mem.rows, w.key = r.key → w.seq ≠ σ.nextSeq :=
      fun _ _ w hw _ => ne_of_lt (h w hw)
    rcases (mem_rows_foldl_insertRow batch.distinct hfresh).mp hv with hv | hv
    · obtain ⟨r, _, rfl⟩ := List.mem_map.mp hv
      exact Nat.lt_succ_self _
    · exact Nat.lt_succ_of_lt (h v hv)
  | freeze =>
    intro v hv
    cases hv
  | _ => exact h

theorem replay_stamped {records : List WalRecord} (h : ∀ r ∈ records, r.seq ≤ bound)
    (hm : ∀ v ∈ m.rows, v.seq ≤ bound) :
    ∀ v ∈ (records.foldl replayRow m).rows, v.seq ≤ bound := by
  induction records generalizing m with
  | nil => exact hm
  | cons r records ih =>
    refine ih (fun x hx => h x (.tail _ hx)) fun v hv => ?_
    obtain ⟨e, he, rfl⟩ := mem_rows_iff.mp hv
    rcases OrderedMap.mem_insert.mp he with rfl | ⟨_, he⟩
    · exact h r List.mem_cons_self
    · exact hm _ (mem_rows_iff.mpr ⟨e, he, rfl⟩)

/-- `open` starts the counter above everything that it replays, whatever the log holds. -/
theorem stamped_crash (h : Stamped σ) : Stamped (σ.crashOpen fetch) := by
  unfold Sys.crashOpen
  split
  · rename_i engine hopen
    obtain ⟨records, maxSeq, hreplay, hmem, hlt⟩ := (LsmEngine.openEngine_ok hopen).replayed
    have hle : ∀ r ∈ records, r.seq ≤ maxSeq := by
      unfold Wal.replay at hreplay
      split at hreplay
      · obtain ⟨rfl, _⟩ := Prod.mk.inj (Except.ok.inj hreplay)
        simp
      · split_ifs at hreplay
        have hpair := Except.ok.inj hreplay
        have hseq := replayBatches_seq_le σ.wal.reopen.file.length σ.wal.reopen.file
        rw [hpair] at hseq
        exact hseq
    intro v hv
    rw [Sys.mem, hmem] at hv
    exact (replay_stamped hle (by simp) v hv).trans_lt hlt
  · exact h

theorem stamped_run : Stamped (run (next filter) (initial path) events) := by
  have hall : Along (next filter) (fun _ _ => True) (initial path) events :=
    along_of_forall fun _ _ => trivial
  refine hall.invariant (fun σ e h _ => ?_) (by simp [Stamped, initial, freshEngine, Sys.mem])
  by_cases hcrash : Event.isCrash e = false
  · exact next_invariant (fun _ op hσ _ => stamped_op hσ) hcrash h
  · cases e with
    | crashOpen fetch => exact stamped_crash h
    | _ => exact absurd rfl hcrash

/-- When a batch that is being inserted is seen whole by reads outside a transaction. For a
scan: the rows that make a difference all go in ahead of its iterator, or all behind it. For
point reads: they are all read after they went in, or all before. -/
theorem batch_seen_whole_iff (filter : BloomFilter) (path : String) (events : List Event)
    (hseq : (run (next filter) (initial path) events).nextSeq ≤ u64Max) :
    let σ := run (next filter) (initial path) events
    let view := σ.engine.view
    ∀ (batch : Batch) (table : Bytes) (schedule : List Action),
      let first := start view batch
      let last := run (step view σ.nextSeq) first schedule
      (last.scan.finished = true →
        (ScanWhole view batch table (scanned view last table) ↔
          (Along (step view σ.nextSeq) (InsertsMeet view σ.nextSeq table true) first schedule ∧
            ∀ r ∈ last.pending, InTable table r → ¬ Changes view r) ∨
          Along (step view σ.nextSeq) (InsertsMeet view σ.nextSeq table false) first schedule)) ∧
      (ReadsWhole view batch table last.reads ↔
        Along (step view σ.nextSeq) (ReadsAfter view table) first schedule ∨
          Along (step view σ.nextSeq) (ReadsBefore view batch table) first schedule) := by
  intro σ view batch table schedule first last
  have hfresh : Fresh view σ.nextSeq := ⟨stamped_run, hseq⟩
  exact ⟨scanWhole_run hfresh, readsWhole_iff hfresh⟩

def twoRows : Batch :=
  ⟨[⟨[116], makeKey [116] [97], some [1]⟩, ⟨[116], makeKey [116] [98], some [2]⟩], by decide⟩

/-- The whole batch goes in while the scan stands at an older row before it. -/
theorem scan_ahead_of_batch_sees_it_whole :
    let σ := run (next exactFilter) (initial "wal.log") [put (makeKey [116] [65]) [0]]
    ScanWhole σ.engine.view twoRows [116] (scanned σ.engine.view
      (run (step σ.engine.view σ.nextSeq) (start σ.engine.view twoRows)
        [.advance, .insert, .insert, .advance, .advance, .advance]) [116]) :=
  ((batch_seen_whole_iff exactFilter "wal.log" [put (makeKey [116] [65]) [0]] (by decide)
    twoRows [116] [.advance, .insert, .insert, .advance, .advance, .advance]).1
      (by decide)).mpr (.inl (by decide))

/-- A scan that ends between the two inserts lists one row of the batch; so do two point reads
made there. -/
theorem scan_between_inserts_is_torn :
    let view := (initial "wal.log").engine.view
    let last := run (step view 1) (start view twoRows)
      [.insert, .advance, .advance, .read [116] [97], .read [116] [98], .insert]
    last.pending = [] ∧ last.scan.finished = true ∧
      scanned view last [116] = [([97], [1])] ∧
      last.reads = [(makeKey [116] [97], some [1]), (makeKey [116] [98], none)] ∧
      ¬ ScanWhole view twoRows [116] (scanned view last [116]) ∧
      ¬ ReadsWhole view twoRows [116] last.reads := by
  intro view last
  have hscan : scanned view last [116] = [([97], [1])] := by decide
  have hreads : last.reads = [(makeKey [116] [97], some [1]), (makeKey [116] [98], none)] := by
    decide
  refine ⟨by decide, by decide, hscan, hreads, ?_, ?_⟩
  · rintro (hall | hnone)
    · have := (hall ⟨[116], makeKey [116] [98], some [2]⟩ (by decide) [98] rfl [2]).mpr rfl
      revert this
      decide
    · have := (hnone ⟨[116], makeKey [116] [97], some [1]⟩ (by decide) [97] rfl [1]).mp (by decide)
      revert this
      decide
  · unfold ReadsWhole
    decide

end DatabaseTxnReads
