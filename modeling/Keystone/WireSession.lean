import Keystone.ExecutorDml
import Keystone.ExecutorEffects
import Keystone.OrderedMaps

/-! # A session and its database

The committed contents are the changes of all commits in order; an open transaction sees a number of
commits and its own changes behind them. Other sessions commit between any two operations of this
one. -/
namespace WireSession

open ExecutorDml ExecutorSelect ExecutorValue List OrderedMaps SqlAst StorageInternalKey

variable {F ρ : Type}

abbrev Tables := String → OrderedMap Bytes Bytes

structure Change where
  table : String
  key : Bytes
  value : Option Bytes
  deriving DecidableEq

def changeRows (c : Change) (rows : OrderedMap Bytes Bytes) : OrderedMap Bytes Bytes :=
  match c.value with
  | some value => rows.insert c.key value
  | none => rows.erase c.key

def applyChange (t : Tables) (c : Change) : Tables :=
  Function.update t c.table (changeRows c (t c.table))

def tablesAfter (changes : List Change) : Tables := changes.foldl applyChange fun _ => .empty

theorem tablesAfter_append :
    tablesAfter (changes ++ [c]) = applyChange (tablesAfter changes) c := by
  simp [tablesAfter]

theorem tablesAfter_more :
    tablesAfter (changes ++ more) = more.foldl applyChange (tablesAfter changes) :=
  foldl_append

theorem tablesAfter_other (changes : List Change) (h : ∀ c ∈ more, c.table ≠ table) :
    tablesAfter (changes ++ more) table = tablesAfter changes table := by
  rw [tablesAfter_more]
  generalize tablesAfter changes = t
  induction more generalizing t with
  | nil => rfl
  | cons c more ih =>
    simp only [forall_mem_cons] at h
    rw [foldl_cons, ih h.2, applyChange, Function.update_of_ne h.1.symm]

theorem foldl_applyChange_congr (changes : List Change) (h : t table = t' table) :
    changes.foldl applyChange t table = changes.foldl applyChange t' table := by
  induction changes generalizing t t' with
  | nil => exact h
  | cons c changes ih =>
    refine ih ?_
    by_cases heq : table = c.table
    · subst heq
      simp [applyChange, h]
    · simp [applyChange, Function.update_of_ne heq, h]

structure Txn where
  snapshot : ℕ
  staged : List Change
  deriving DecidableEq

/-- A read of a table, or of the row under a key, with what it returned; `seen` is what the
transaction sees at that moment. -/
inductive Event where
  | read (table : String) (key : Option Bytes) (rows : List KeyValue) (seen : Tables)
  | wrote (table : String) (schema : TableSchema) (key : Bytes) (cells : Row) (before : Tables)

structure Cursor where
  result : QueryResult
  pos : ℕ
  deriving DecidableEq

/-- `others` holds what other sessions commit before each of the next operations; `rest` is the
state of everything beside tables: sequences, catalogs, indexes. -/
structure World (ρ : Type) where
  schemas : String → Option TableSchema
  commits : List (List Change)
  others : List (List (List Change))
  txn : Option Txn
  cdc : List CdcEvent
  trace : List Event
  cursors : List (String × Cursor)
  rest : ρ

namespace World

def latest (w : World ρ) : Tables := tablesAfter w.commits.flatten

def txnView (w : World ρ) : Tables :=
  match w.txn with
  | none => w.latest
  | some t => tablesAfter ((w.commits.take t.snapshot).flatten ++ t.staged)

def view (w : World ρ) (handle : Option Unit) : Tables :=
  if handle.isSome then w.txnView else w.latest

def handle (w : World ρ) : Option Unit := w.txn.map fun _ => ()

def change (w : World ρ) (handle : Option Unit) (c : Change) : World ρ :=
  match handle, w.txn with
  | some _, some t => { w with txn := some { t with staged := t.staged ++ [c] } }
  | _, _ => { w with commits := w.commits ++ [[c]] }

def observe (w : World ρ) (e : Event) : World ρ := { w with trace := w.trace ++ [e] }

def interfere (w : World ρ) : World ρ :=
  match w.others with
  | [] => w
  | now :: later => { w with commits := w.commits ++ now, others := later }

end World

theorem interfere_alone {w : World ρ} (h : w.others = []) : w.interfere = w := by
  simp [World.interfere, h]

abbrev M (ρ : Type) := ExceptT EvalError (StateM (World ρ))

def op {α : Type} (f : World ρ → α × World ρ) : M ρ α := fun w =>
  let (a, w') := f w.interfere
  (.ok a, w')

theorem run_op :
    (op f).run.run w = (.ok (f w.interfere).1, (f w.interfere).2) := rfl

def rowsOf (t : Tables) (table : String) : Option Bytes → List KeyValue
  | none => (t table).entries
  | some key => (((t table).get? key).map fun value => (key, value)).toList

def readEvent (w : World ρ) (handle : Option Unit) (table : String) (key : Option Bytes) : Event :=
  .read table key (rowsOf (w.view handle) table key) w.txnView

def txnScan (handle : Option Unit) (table : String) : M ρ (List KeyValue) := op fun w =>
  (rowsOf (w.view handle) table none, w.observe (readEvent w handle table none))

def txnRead (handle : Option Unit) (table : String) (key : Bytes) :
    M ρ (Option Bytes) := op fun w =>
  ((w.view handle table).get? key, w.observe (readEvent w handle table (some key)))

def writeRow (F : Type) [Scalars F] (binaryJson : Bool) (handle : Option Unit) (table : String)
    (schema : TableSchema) (key : Bytes) (cells : Row) : M ρ Unit := op fun w =>
  ((), (w.observe (.wrote table schema key cells (w.view handle))).change handle
    ⟨table, key, some (buildRowValue F binaryJson schema cells)⟩)

def txnDelete (handle : Option Unit) (table : String) (key : Bytes) : M ρ Unit := op fun w =>
  ((), w.change handle ⟨table, key, none⟩)

/-- Published at once, also inside a transaction. -/
def publishCdc (e : CdcEvent) : M ρ Unit := op fun w => ((), { w with cdc := w.cdc ++ [e] })

/-- The database of the session; what does not concern the tables is as in `rest`. -/
def sessionDb [Scalars F] (binaryJson : Bool) (rest : WriteDb (M ρ) F Unit) :
    WriteDb (M ρ) F Unit :=
  { rest with
    getTable := fun name => op fun w => (w.schemas name, w)
    txnScan, txnRead, txnDelete, publishCdc
    writeRow := writeRow F binaryJson }

inductive FetchCount where
  | next | all
  | count (n : ℤ)
  deriving DecidableEq

inductive Stmt (F : Type) where
  | select (query : SelectStmt F)
  | insert (stmt : InsertStmt F)
  | delete (stmt : DeleteStmt F)
  | update (stmt : UpdateStmt F)
  | copyIn (stmt : CopyStmt) (data : Bytes)
  | copyOut (stmt : CopyStmt)
  | declareCursor (name : String) (query : SelectStmt F)
  | fetch (cursor : String) (count : FetchCount)
  | begin
  | commit
  | rollback

inductive Reply where
  | result (r : QueryResult)
  | rows (n : ℕ)
  | lines (ls : List Bytes)
  | done
  deriving DecidableEq

def fetchCount (c : Cursor) : FetchCount → ℕ
  | .next => 1
  | .all => c.result.rows.length - c.pos
  | .count n => n.toNat

def fetch (name : String) (count : FetchCount) : M ρ Reply := fun w =>
  match w.cursors.lookup name with
  | none => (.error (.other (DecimalText.utf8 ("cursor \"" ++ name ++ "\" does not exist"))), w)
  | some c =>
    let stop := min (c.pos + fetchCount c count) c.result.rows.length
    (.ok (.result ⟨c.result.fields, (c.result.rows.drop c.pos).take (stop - c.pos)⟩),
      { w with cursors := (name, { c with pos := stop }) :: w.cursors })

def declare (name : String) (r : QueryResult) : M ρ Reply := fun w =>
  (.ok .done, { w with cursors := (name, ⟨r, 0⟩) :: w.cursors })

/-- A second BEGIN keeps the open transaction. -/
def begin : M ρ Reply := op fun w =>
  (.done, match w.txn with
    | some _ => w
    | none => { w with txn := some ⟨w.commits.length, []⟩ })

def commit : M ρ Reply := op fun w =>
  (.done, match w.txn with
    | none => w
    | some t => { w with commits := w.commits ++ [t.staged], txn := none })

def rollback : M ρ Reply := op fun w => (.done, { w with txn := none })

def currentTxn : M ρ (Option Unit) := fun w => (.ok w.handle, w)

/-- One statement. Cursors and COPY do not get the transaction, and a statement that fails
leaves the transaction open with what it staged. -/
def execute [Scalars F] (db : WriteDb (M ρ) F Unit) (depth : ℕ) (params : List (Value F)) :
    Stmt F → M ρ Reply
  | .select query => do
    let txn ← currentTxn
    let (r, _) ← executeSelect db.toDb depth query [] [] params txn
    pure (.result r)
  | .insert stmt => do
    let txn ← currentTxn
    let n ← executeInsert db (executeSelect db.toDb depth) stmt txn params
    pure (.rows n)
  | .delete stmt => do
    let txn ← currentTxn
    let n ← executeDelete db (executeSelect db.toDb depth) stmt txn params
    pure (.rows n)
  | .update stmt => do
    let txn ← currentTxn
    let n ← executeUpdate db (executeSelect db.toDb depth) stmt txn params
    pure (.rows n)
  | .copyIn stmt data => do
    let n ← copyIn db stmt data
    pure (.rows n)
  | .copyOut stmt => do
    let ls ← copyOut db stmt
    pure (.lines ls)
  | .declareCursor name query => do
    let (r, _) ← executeSelect db.toDb depth query [] [] params none
    declare name r
  | .fetch name count => fetch name count
  | .begin => begin
  | .commit => commit
  | .rollback => rollback

def after [Scalars F] (db : WriteDb (M ρ) F Unit) (depth : ℕ) (params : List (Value F))
    (w : World ρ) (stmt : Stmt F) : World ρ :=
  ((execute db depth params stmt).run.run w).2

section Alone

variable [Scalars F] {db : WriteDb (M ρ) F Unit} {depth : ℕ} {params : List (Value F)} {w : World ρ}
  (h : w.others = [])

include h

theorem after_begin : after db depth params w .begin = match w.txn with
    | some _ => w
    | none => { w with txn := some ⟨w.commits.length, []⟩ } := by
  rw [after, execute, begin, run_op, interfere_alone h]

theorem after_commit : after db depth params w .commit = match w.txn with
    | none => w
    | some t => { w with commits := w.commits ++ [t.staged], txn := none } := by
  rw [after, execute, commit, run_op, interfere_alone h]

theorem after_rollback : after db depth params w .rollback = { w with txn := none } := by
  rw [after, execute, rollback, run_op, interfere_alone h]

end Alone

end WireSession
