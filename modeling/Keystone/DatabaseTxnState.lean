import Keystone.DatabaseTxnReads

/-! # The state of an open transaction

A transaction keeps its writes in a buffer under the composite key of table and row, and reads
the committed store as of its snapshot below them. The composite key ends the table name with a
NUL, so tables do not mix as long as no name has one. -/
namespace DatabaseTxnState

open GuardedRuns List OrderedMaps StorageInternalKey StorageLsmEngine StorageLsmReads
open DatabaseWrites (makeKey)
open DatabaseTxnReads

structure TransactionState where
  id : ℕ
  snapshotSeq : ℕ
  finished : Bool
  staged : OrderedMap Bytes (Option Bytes)

namespace TransactionState

def new (id snapshotSeq : ℕ) : TransactionState := ⟨id, snapshotSeq, false, .empty⟩

def txn (t : TransactionState) : Txn := ⟨t.snapshotSeq, t.staged⟩

def stage (t : TransactionState) (compositeKey : Bytes) (value : Option Bytes) : TransactionState :=
  if t.finished then t else { t with staged := t.staged.insert compositeKey value }

def stageWrite (t : TransactionState) (compositeKey value : Bytes) : TransactionState :=
  t.stage compositeKey (some value)

def stageDelete (t : TransactionState) (compositeKey : Bytes) : TransactionState :=
  t.stage compositeKey none

def takeStaged (t : TransactionState) : TransactionState × OrderedMap Bytes (Option Bytes) :=
  ({ t with finished := true, staged := .empty }, t.staged)

def discard (t : TransactionState) : TransactionState :=
  { t with finished := true, staged := .empty }

end TransactionState

inductive TxnCall where
  | write (table key value : Bytes)
  | delete (table key : Bytes)
  deriving DecidableEq

namespace TxnCall

def table : TxnCall → Bytes
  | .write table _ _ => table
  | .delete table _ => table

def key : TxnCall → Bytes
  | .write _ key _ => key
  | .delete _ key => key

def value : TxnCall → Option Bytes
  | .write _ _ value => some value
  | .delete _ _ => none

end TxnCall

def TransactionState.call (t : TransactionState) : TxnCall → TransactionState
  | .write table key value => t.stageWrite (makeKey table key) value
  | .delete table key => t.stageDelete (makeKey table key)

def applyCalls (table : Bytes) (rows : Bytes → Option Bytes) (calls : List TxnCall) :
    Bytes → Option Bytes :=
  run (fun rows c => if c.table = table then Function.update rows c.key c.value
    else rows) rows calls

theorem takeWhile_makeKey (h : 0 ∉ table) : (makeKey table key).takeWhile (· ≠ 0) = table := by
  have hall : ∀ b ∈ table, decide (b ≠ 0) = true := fun b hb =>
    decide_eq_true (ne_of_mem_of_not_mem hb h)
  rw [makeKey, takeWhile_append_of_pos hall, takeWhile_cons_of_neg (by simp), append_nil]

theorem makeKey_inj (h : 0 ∉ table) (h' : 0 ∉ table')
    (heq : makeKey table key = makeKey table' key') : table = table' ∧ key = key' := by
  have htable : table = table' := by
    rw [← takeWhile_makeKey h, heq, takeWhile_makeKey h']
  subst htable
  exact ⟨rfl, cons_injective (append_cancel_left heq)⟩

theorem lt_of_append_lt {p a b : Bytes} (h : p ++ a < p ++ b) : a < b := by
  induction p with
  | nil => exact h
  | cons x p ih => exact ih (by simpa using h)

section Reads

variable {t : TransactionState} {table : Bytes}

theorem call_eq : t.call c = t.stage (makeKey c.table c.key) c.value := by
  cases c <;> rfl

theorem call_keeps (t : TransactionState) (c : TxnCall) :
    (t.call c).snapshotSeq = t.snapshotSeq ∧ (t.call c).finished = t.finished := by
  rw [call_eq, TransactionState.stage]
  split_ifs <;> exact ⟨rfl, rfl⟩

theorem txnRead_call (hopen : t.finished = false) (hc : 0 ∉ c.table) (htable : 0 ∉ table) :
    txnRead readAt (some (t.call c).txn) table =
      if c.table = table then Function.update (txnRead readAt (some t.txn) table) c.key c.value
      else txnRead readAt (some t.txn) table := by
  funext key
  have hstaged : (t.call c).staged.get? (makeKey table key) =
      if makeKey table key = makeKey c.table c.key then some c.value
      else t.staged.get? (makeKey table key) := by
    rw [call_eq, TransactionState.stage, if_neg (by simp [hopen])]
    rw [OrderedMap.get?_insert]
    split_ifs <;> rfl
  have hsnapshot := (call_keeps t c).1
  by_cases hkey : makeKey table key = makeKey c.table c.key
  · obtain ⟨rfl, rfl⟩ := makeKey_inj htable hc hkey
    simp [txnRead, TransactionState.txn, hstaged]
  · have hread : txnRead readAt (some (t.call c).txn) table key =
      txnRead readAt (some t.txn) table key := by
      simp [txnRead, TransactionState.txn, hstaged, hkey, hsnapshot]
    rw [hread]
    split_ifs with hsame
    · refine (Function.update_of_ne ?_ _ _).symm
      rintro rfl
      exact hkey (by rw [hsame])
    · rfl

/-- Reads in the transaction show the table with the calls on it applied in order. -/
theorem txnRead_calls (htable : 0 ∉ table) (hcalls : ∀ c ∈ calls, 0 ∉ c.table)
    (hopen : t.finished = false) :
    txnRead readAt (some (run TransactionState.call t calls).txn) table =
      applyCalls table (txnRead readAt (some t.txn) table) calls := by
  induction calls generalizing t with
  | nil => rfl
  | cons c calls ih =>
    obtain ⟨hc, hrest⟩ := forall_mem_cons.mp hcalls
    rw [run_cons, ih hrest ((call_keeps t c).2.trans hopen), txnRead_call hopen hc htable]
    rfl

theorem mem_txnScan_iff_txnRead (view : EngineView) :
    (k, v) ∈ txnScan view.scanAt txn table ↔ txnRead view.readAt txn table k = some v := by
  rw [mem_txnScan_iff (scanAt_sorted), txnRead]
  cases txn.bind fun t => t.staged.get? (makeKey table k) with
  | some staged => simp
  | none =>
    rw [Option.none_or, get?_listing]
    simp [mem_scanAt_iff_readAt]

theorem txnScan_sorted (view : EngineView) : (txnScan view.scanAt txn table).Pairwise fun a b =>
    a.1 < b.1 := by
  have hkeys : (txnMerged view.scanAt txn table).entries.Pairwise fun a b =>
      ∃ k k', a.1 = makeKey table k ∧ b.1 = makeKey table k' ∧ k < k' := by
    refine (txnMerged view.scanAt txn table).sorted.imp_of_mem fun ha hb hlt => ?_
    obtain ⟨k, hk⟩ := prefix_of_mem_txnMerged (scanAt_sorted) ha
    obtain ⟨k', hk'⟩ := prefix_of_mem_txnMerged (scanAt_sorted) hb
    rw [hk, hk', makeKey_eq, makeKey_eq] at hlt
    exact ⟨k, k', hk, hk', lt_of_append_lt hlt⟩
  refine hkeys.filterMap _ ?_
  rintro ⟨a, x⟩ ⟨b, y⟩ ⟨k, k', rfl, rfl, hlt⟩ row hrow row' hrow'
  obtain ⟨v, _, rfl⟩ := Option.map_eq_some_iff.mp hrow
  obtain ⟨w, _, rfl⟩ := Option.map_eq_some_iff.mp hrow'
  rw [drop_makeKey, drop_makeKey]
  exact hlt

end Reads

/-- In every committed store, after any calls of an open transaction on any tables: the scan of a
table is sorted by key without repetitions and lists the rows that reads find, both are the
committed rows of the table at the snapshot with the calls on that table applied in order, and
nothing stored under another table is among them. -/
theorem txn_sees_snapshot_with_own_writes (view : EngineView) (id snapshotSeq : ℕ)
    (calls : List TxnCall) (hcalls : ∀ c ∈ calls, 0 ∉ c.table) (table : Bytes)
      (htable : 0 ∉ table) :
    let txn := some (run TransactionState.call (.new id snapshotSeq) calls).txn
    (txnScan view.scanAt txn table).Pairwise (fun a b => a.1 < b.1) ∧
      (∀ k v, (k, v) ∈ txnScan view.scanAt txn table ↔ txnRead view.readAt txn table k = some v) ∧
      (∀ k, txnRead view.readAt txn table k =
        applyCalls table (fun k => view.readAt (makeKey table k) snapshotSeq) calls k) ∧
      ∀ other key, 0 ∉ other → other ≠ table →
        ∀ row ∈ txnScan view.scanAt txn table, makeKey table row.1 ≠ makeKey other key := by
  intro txn
  refine ⟨txnScan_sorted view, fun k v => mem_txnScan_iff_txnRead view,
    fun k => ?_, fun other key hother hne row _ heq => ?_⟩
  · exact congrFun (txnRead_calls htable hcalls rfl) k
  · exact hne (makeKey_inj htable hother heq).1.symm

/-- A table whose name is the front of another name, a key with a NUL, an overwrite and a delete,
over a store with one committed row. -/
theorem scan_of_table_next_to_longer_name :
    let view := (run (StorageLsmSystem.next StorageLsmSystem.exactFilter)
      (StorageLsmSystem.initial "wal.log") [StorageLsmSystem.put (makeKey [116] [97])
        [1]]).engine.view
    let calls : List TxnCall := [.write [116, 116] [97] [9], .write [116] [98, 0] [2],
      .write [116] [98, 0] [3], .write [116] [99] [4], .delete [116] [99], .delete [116] [97]]
    let txn := some (run TransactionState.call (.new 7 1) calls).txn
    txnScan view.scanAt txn [116] = [([98, 0], [3])] ∧
      txnRead view.readAt txn [116] [97] =
        applyCalls [116] (fun k => view.readAt (makeKey [116] k) 1) calls [97] := by
  intro view calls txn
  exact ⟨by decide,
    (txn_sees_snapshot_with_own_writes view 7 1 calls (by decide) [116] (by decide)).2.2.1 [97]⟩

end DatabaseTxnState
