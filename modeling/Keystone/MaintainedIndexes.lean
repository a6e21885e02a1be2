import Keystone.GuardedRuns
import Keystone.OrderedMaps

/-! # Indexes that are told of writes

A keyed table with one secondary index. The index hears of every row that is written once it exists
and of every stored row when it is created, and never of a deletion. -/
namespace MaintainedIndexes

open OrderedMaps

variable {K V P : Type*} [LinearOrder K]

inductive Op (K V : Type*) where
  | write (key : K) (value : V)
  | delete (key : K)
  | createIndex
  deriving DecidableEq

/-- `reopened` stands where an index was created again over the file it already had. -/
inductive Event (K P : Type*) where
  | add (key : K) (payload : P)
  | reopened
  deriving DecidableEq

/-- The log is absent until the index is created. -/
structure Table (K V P : Type*) [LinearOrder K] where
  rows : OrderedMap K V
  log : Option (List (Event K P))

def Table.empty : Table K V P := ⟨.empty, none⟩

variable (extract : V → Option P)

def rowEvents (key : K) (value : V) : List (Event K P) :=
  ((extract value).map (Event.add key)).toList

def scanEvents (rows : OrderedMap K V) : List (Event K P) :=
  rows.entries.flatMap fun e => rowEvents extract e.1 e.2

def step (t : Table K V P) : Op K V → Table K V P
  | .write key value => ⟨t.rows.insert key value, t.log.map (· ++ rowEvents extract key value)⟩
  | .delete key => ⟨t.rows.erase key, t.log⟩
  | .createIndex => ⟨t.rows, some (t.log.getD [] ++ .reopened :: scanEvents extract t.rows)⟩

end MaintainedIndexes
