import Keystone.StorageMemTable
import Keystone.StorageWal

/-! # The shared object store and its manifest

The store holds the manifest, the tables under their ids and the shipped log segments. An ETag is a
digest of the object's content; it is modelled by the content itself. A failed request leaves the
store as it was. -/
namespace StorageManifest

open StorageInternalKey StorageMemTable StorageWal

inductive CasError (α : Type) where
  | conflict (currentEtag : Option α)
  | other
  deriving DecidableEq

/-- Write an object only if its current content still is the expected one; `io` says
whether the request itself goes through. -/
def putIfMatch {α : Type} [DecidableEq α] (object : Option α) (data : α) (expectedEtag : Option α)
    (io : Bool) : Except (CasError α) α :=
  if expectedEtag = object then if io then .ok data else .error .other
  else .error (.conflict object)

theorem putIfMatch_ok [DecidableEq α] {object expected : Option α} {data etag : α}
    (h : putIfMatch object data expected io = .ok etag) :
    expected = object ∧ etag = data := by
  unfold putIfMatch at h
  split_ifs at h with he
  exact ⟨he, (Except.ok.inj h).symm⟩

structure Manifest where
  sstableIds : List ℕ
  walSegmentSeq : ℕ
  writerFencingToken : ℕ
  maxCommitSeq : ℕ
  deriving DecidableEq

def Manifest.default : Manifest := ⟨[], 0, 0, 0⟩

def padLeft (width : ℕ) (digits : List Char) : String :=
  String.ofList (List.replicate (width - digits.length) '0' ++ digits)

/-- The object key of a table, with the default of 256 shards. Objects are modelled under
their ids: the key ends in the id, so different tables have different keys. -/
def sstableKey (id : ℕ) : String :=
  "sst/" ++ padLeft 3 (Nat.toDigits 16 (id % 256)) ++ "/" ++ padLeft 20 (Nat.toDigits 10 id)

structure Store where
  manifest : Option Manifest
  sst : ℕ → Option SSTable
  walSegments : ℕ → Option Bytes

namespace Store

def empty : Store := ⟨none, fun _ => none, fun _ => none⟩

def putSst (store : Store) (t : SSTable) : Store :=
  { store with sst := Function.update store.sst t.id (some t) }

def deleteSsts (store : Store) (ids : List ℕ) : Store :=
  { store with sst := fun id => if id ∈ ids then none else store.sst id }

def putWalSegment (store : Store) (id : ℕ) (bytes : Bytes) : Store :=
  { store with walSegments := Function.update store.walSegments id (some bytes) }

def manifestIds (store : Store) : List ℕ := (store.manifest.getD .default).sstableIds

def loadManifest (store : Store) (io : Bool) : Except StorageError (Option Manifest) :=
  if io then .ok store.manifest else .error (.io "reading object manifest.bin")

theorem sst_putSst_of_ne (store : Store) {id : ℕ} (h : id ≠ t.id) :
    (store.putSst t).sst id = store.sst id := Function.update_of_ne h _ _

theorem sst_putSst_self (store : Store) (t : SSTable) : (store.putSst t).sst t.id = some t :=
  Function.update_self _ _ _

theorem sst_deleteSsts_of_notMem (store : Store) {id : ℕ} (h : id ∉ ids) :
    (store.deleteSsts ids).sst id = store.sst id := if_neg h

end Store

/-- `Manifest::save_cas`: the ETag is the only thing compared. -/
def saveCas (store : Store) (manifest : Manifest) (expectedEtag : Option Manifest) (io : Bool)
    (context : String) : Store × Except StorageError Manifest :=
  match putIfMatch store.manifest manifest expectedEtag io with
  | .ok etag => ({ store with manifest := some etag }, .ok etag)
  | .error _ => (store, .error (.manifestCas context))

theorem saveCas_cases (store : Store) (manifest : Manifest) (expectedEtag : Option Manifest)
    (io : Bool) (context : String) :
    (expectedEtag = store.manifest ∧ io = true ∧ saveCas store manifest expectedEtag io context =
      ({ store with manifest := some manifest }, .ok manifest)) ∨
    ((expectedEtag ≠ store.manifest ∨ io = false) ∧
      saveCas store manifest expectedEtag io context = (store, .error (.manifestCas context))) := by
  unfold saveCas putIfMatch
  by_cases he : expectedEtag = store.manifest
  · cases io with
    | true => exact .inl ⟨he, rfl, by simp [he]⟩
    | false => exact .inr ⟨.inr rfl, by simp [he]⟩
  · exact .inr ⟨.inl he, by simp [he]⟩

end StorageManifest
