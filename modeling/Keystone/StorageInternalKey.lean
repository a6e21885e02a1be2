import Keystone.VersionedLayers
import Mathlib.Data.List.Lex
import Mathlib.Data.Prod.Lex

/-! # Internal keys and sorted runs

An internal key is a user key tagged with a commit sequence number and a put/delete tag. Versions of
one user key sort together, newest first, and the user key is compared in isolation before the
sequence number. -/
namespace StorageInternalKey

open List VersionedLayers

instance linearOrderByte : LinearOrder UInt8 where
  le := (· ≤ ·)
  lt := (· < ·)
  le_refl := UInt8.le_refl
  le_trans _ _ _ := UInt8.le_trans
  lt_iff_le_not_ge a b := by
    rw [UInt8.not_le]
    exact ⟨fun h => ⟨UInt8.le_of_lt h, h⟩, fun h => h.2⟩
  le_antisymm _ _ := UInt8.le_antisymm
  le_total := UInt8.le_total
  toDecidableLE := inferInstance
  toDecidableLT := inferInstance
  toDecidableEq := inferInstance

abbrev Bytes := List UInt8

instance : LawfulBEq Bytes := inferInstance

def putTag : UInt8 := 0
def deleteTag : UInt8 := 2

structure InternalKey where
  userKey : Bytes
  seq : ℕ
  tag : UInt8
  deriving DecidableEq

namespace InternalKey

def seek (userKey : Bytes) (snapshotSeq : ℕ) : InternalKey := ⟨userKey, snapshotSeq, putTag⟩

def isDelete (k : InternalKey) : Bool := k.tag == deleteTag

/-- `cmp` compares the user keys, then the newer version comes first, then the tags. -/
def rank (a : InternalKey) : Bytes ×ₗ (ℕᵒᵈ ×ₗ UInt8) :=
  toLex (a.userKey, toLex (OrderDual.toDual a.seq, a.tag))

instance : LinearOrder InternalKey := LinearOrder.lift' rank (by
  intro a b h
  cases a; cases b
  simpa [rank] using h)

variable {a b : InternalKey}

theorem lt_iff : a < b ↔ a.userKey < b.userKey ∨ a.userKey = b.userKey ∧
      (b.seq < a.seq ∨ a.seq = b.seq ∧ a.tag < b.tag) := by
  change a.rank < b.rank ↔ _
  simp [rank, Prod.Lex.toLex_lt_toLex]

theorem userKey_le (h : a ≤ b) : a.userKey ≤ b.userKey := by
  rcases lt_or_eq_of_le h with h | rfl
  · rcases lt_iff.mp h with h | ⟨h, _⟩
    · exact le_of_lt h
    · exact le_of_eq h
  · exact le_rfl

theorem seq_ge (h : a ≤ b) (hk : a.userKey = b.userKey) : b.seq ≤ a.seq := by
  rcases lt_or_eq_of_le h with h | rfl
  · rcases lt_iff.mp h with h | ⟨_, h | ⟨h, _⟩⟩
    · exact absurd hk (ne_of_lt h)
    · exact le_of_lt h
    · exact le_of_eq h.symm
  · exact le_rfl

/-- Nothing sorts before the put tag, so the seek key skips exactly the smaller user keys
and the versions of its own key that are newer than the snapshot. -/
theorem seek_le : seek k s ≤ a ↔ k < a.userKey ∨ a.userKey = k ∧ a.seq ≤ s := by
  rw [← not_lt, lt_iff]
  have htag : ¬ a.tag < putTag := by
    rw [UInt8.not_lt]; exact UInt8.le_iff_toNat_le.mpr (Nat.zero_le _)
  simp only [seek, htag, and_false, or_false, not_or, not_lt, not_and]
  constructor
  · rintro ⟨hk, hs⟩
    rcases lt_or_eq_of_le hk with hk | hk
    · exact .inl hk
    · exact .inr ⟨hk.symm, hs hk.symm⟩
  · rintro (hk | ⟨hk, hs⟩)
    · exact ⟨le_of_lt hk, fun he => absurd he.symm (ne_of_lt hk)⟩
    · exact ⟨le_of_eq hk.symm, fun _ => hs⟩

end InternalKey

abbrev Entry := InternalKey × Bytes

/-- The value an entry stands for: a tombstone has none, whatever bytes it carries. -/
def entryValue (e : Entry) : Option Bytes := if e.1.isDelete then none else some e.2

def rowOf (e : Entry) : Version Bytes Bytes := ⟨e.1.userKey, e.1.seq, entryValue e⟩

structure SortedRun where
  entries : List Entry
  sorted : entries.Pairwise fun a b => a.1 ≤ b.1

namespace SortedRun

def rows (run : SortedRun) : List (Version Bytes Bytes) := run.entries.map rowOf

theorem mem_rows {run : SortedRun} {v : Version Bytes Bytes} :
    v ∈ run.rows ↔ ∃ e ∈ run.entries, rowOf e = v := mem_map

theorem rows_newestFirst (run : SortedRun) : NewestFirst run.rows := by
  refine pairwise_map.mpr (run.sorted.imp ?_)
  intro a b hab hk
  exact InternalKey.seq_ge hab hk

def seekVisible (run : SortedRun) (k : Bytes) (s : ℕ) : Option (Option Bytes) :=
  match run.entries.find? fun e => InternalKey.seek k s ≤ e.1 with
  | none => none
  | some e => if e.1.userKey ≠ k then none else some (entryValue e)

theorem seekVisible_eq (run : SortedRun) (k : Bytes) (s : ℕ) :
    run.seekVisible k s = firstVisible run.rows k s := by
  obtain ⟨entries, hs⟩ := run
  simp only [seekVisible, rows]
  induction entries with
  | nil => rfl
  | cons e rest ih =>
    obtain ⟨he, hrest⟩ := pairwise_cons.mp hs
    by_cases hseek : InternalKey.seek k s ≤ e.1
    · rw [List.find?_cons_of_pos (by simpa using hseek)]
      rcases InternalKey.seek_le.mp hseek with hk | ⟨hk, hle⟩
      · -- the seek ran past the key: every later entry has a larger user key too
        have hno : firstVisible ((e :: rest).map rowOf) k s = none := by
          rw [firstVisible_eq_none]
          intro w hw hwk
          obtain ⟨x, hx, rfl⟩ := mem_map.mp hw
          have hge : e.1.userKey ≤ x.1.userKey := by
            rcases mem_cons.mp hx with rfl | hx
            · exact le_rfl
            · exact InternalKey.userKey_le (he x hx)
          exact absurd hwk (ne_of_gt (lt_of_lt_of_le hk hge))
        rw [hno]
        simp [ne_of_gt hk]
      · simp [firstVisible, rowOf, hk, hle]
    · have hskip : ¬ ((rowOf e).key = k ∧ (rowOf e).seq ≤ s) := by
        intro h
        exact hseek (InternalKey.seek_le.mpr (.inr h))
      rw [List.find?_cons_of_neg (by simpa using hseek), ih hrest]
      simp [firstVisible, hskip]

end SortedRun
end StorageInternalKey
