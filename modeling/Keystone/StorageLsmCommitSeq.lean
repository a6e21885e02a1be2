import Keystone.StorageLsmSteps
import Keystone.StorageWalReplay

/-! # Commit sequence numbers across restarts

`open` rebuilds the counter from three sources: the log, the tables and the manifest. One of them
must still know every number that was returned. -/
namespace StorageLsmCommitSeq

open GuardedRuns List StorageInternalKey StorageMemTable StorageWal StorageWalReplay
open StorageLsmEngine StorageLsmSystem StorageLsmSteps
open LsmEngine (openEngine)

def returnedSeq (σ : Sys) : Event → Option ℕ
  | .writeBatch batch lease io =>
    match (σ.engine.writeBatch batch lease io).2 with
    | .ok (seq, _) => some seq
    | .error _ => none
  | _ => none

def returned (filter : BloomFilter) : Sys → List Event → List ℕ
  | _, [] => []
  | σ, e :: events => (returnedSeq σ e).toList ++ returned filter (next filter σ e) events

def belowOffset (wal : Wal) : Bytes := wal.file.take wal.offset

/-- A batch is appended only where whole batches end, and under a number that fits its field. -/
def AppendsAtBoundary (σ : Sys) : Event → Prop
  | .writeBatch _ _ .ok =>
    σ.wal.offset ≤ σ.wal.file.length ∧
      wholeBatches σ.wal.offset (belowOffset σ.wal) = true ∧ σ.nextSeq < 2 ^ 64
  | _ => True

instance (σ : Sys) : (e : Event) → Decidable (AppendsAtBoundary σ e)
  | .writeBatch _ _ .ok => inferInstanceAs (Decidable (_ ∧ _ ∧ _))
  | .writeBatch _ _ (.failed _) | .beginFlush _ | .finishFlush .. | .commitFlush ..
  | .beginCompact _ | .finishCompact .. | .commitCompact .. | .snapshotNow
  | .registerSnapshot _ | .releaseSnapshot _ | .crashOpen _ => .isTrue trivial

section Log

variable {wal : Wal}

theorem belowOffset_failed :
    belowOffset wal <+: belowOffset (wal.appendBatch seq entries (.failed written)).1 := by
  refine (prefix_take_iff.mpr ⟨?_, ?_⟩)
  · simp only [Wal.appendBatch, writeAt, append_assoc]
    exact prefix_append _ _
  · exact length_take_le _ _

theorem belowOffset_append (h : wal.offset ≤ wal.file.length) :
    belowOffset (wal.appendBatch seq entries .ok).1 =
      belowOffset wal ++ encodeBatch ⟨seq, entries⟩ := by
  have hgap : wal.offset - wal.file.length = 0 := Nat.sub_eq_zero_of_le h
  have hlen : (wal.file.take wal.offset).length = wal.offset := length_take_of_le h
  simp only [belowOffset, Wal.appendBatch, writeAt, hgap, replicate_zero, append_nil]
  rw [← length_append.trans (congrArg (· + _) hlen), take_left]

theorem highestSeq_mono (h : a <+: b) : highestSeq a ≤ highestSeq b := by
  obtain ⟨ext, rfl⟩ := h
  exact highestSeq_append a ext

theorem replay_seq (h : wal.replay = .ok (records, maxSeq)) : maxSeq = highestSeq wal.file := by
  unfold Wal.replay at h
  unfold highestSeq
  split at h
  next hnil =>
    obtain ⟨_, rfl⟩ := Prod.mk.inj (Except.ok.inj h)
    rw [hnil]
    rfl
  next =>
    split_ifs at h with hmarker
    rw [Except.ok.inj h]

end Log

theorem writeBatch_fields (filter : BloomFilter) (σ : Sys) (batch : Batch) (lease : LeaseHandle) :
    let τ := next filter σ (.writeBatch batch lease .ok)
    τ.nextSeq = σ.nextSeq + 1 ∧ τ.store = σ.store ∧
      τ.wal = (σ.wal.appendBatch σ.nextSeq (batch.rows.map BatchRow.walEntry) .ok).1 := by
  simp only [StorageLsmSystem.next, Sys.writeBatch, LsmEngine.writeBatch, Wal.appendBatch]
  split_ifs with hfull
  · simp only [LsmEngine.beginFlush]
    split_ifs <;> simp
  · simp

theorem returnedSeq_eq (h : n ∈ returnedSeq σ e) : n = σ.nextSeq := by
  cases e with
  | writeBatch batch lease io =>
    simp only [returnedSeq, LsmEngine.writeBatch] at h
    cases io with
    | ok =>
      simp only [Wal.appendBatch, LsmEngine.beginFlush] at h
      split_ifs at h <;> simp_all
    | failed written => simp [Wal.appendBatch] at h
  | _ => simp [returnedSeq] at h

def manifestSeq (σ : Sys) : ℕ := (σ.store.manifest.getD .default).maxCommitSeq

structure Remembers (seqs : List ℕ) (σ : Sys) : Prop where
  next_pos : 0 < σ.nextSeq
  manifest_lt : manifestSeq σ < σ.nextSeq
  below : ∀ s ∈ seqs, s < σ.nextSeq
  known : ∀ s ∈ seqs, s ≤ manifestSeq σ ∨ s ≤ highestSeq (belowOffset σ.wal)

namespace Remembers

variable {filter : BloomFilter} {seqs : List ℕ} {σ τ : Sys}

theorem initial_remembers : Remembers [] (initial path) where
  next_pos := Nat.one_pos
  manifest_lt := Nat.one_pos
  below := by simp
  known := by simp

variable (h : Remembers seqs σ)

include h

theorem of_manifest (hseq : τ.nextSeq = σ.nextSeq)
    (hmanifest : manifestSeq τ = σ.nextSeq - 1) : Remembers seqs τ where
  next_pos := hseq ▸ h.next_pos
  manifest_lt := by have := h.next_pos; omega
  below := hseq ▸ h.below
  known := fun s hs => .inl (by have := h.below s hs; omega)

theorem apply_op (he : Enabled σ op)
    (hadd : ∀ batch, op ≠ .addRows batch) : Remembers seqs (apply filter σ op) := by
  cases op with
  | addRows batch => exact absurd rfl (hadd batch)
  | failAppend batch written =>
    exact {
      next_pos := Nat.succ_pos _
      manifest_lt := Nat.lt_succ_of_lt h.manifest_lt
      below := fun s hs => Nat.lt_succ_of_lt (h.below s hs)
      known := fun s hs => (h.known s hs).imp_right fun hle =>
        hle.trans (highestSeq_mono belowOffset_failed) }
  | shipSegment =>
    have hmanifest : manifestSeq (apply filter σ .shipSegment) = manifestSeq σ := by
      simp [manifestSeq]
    exact { h with
      manifest_lt := hmanifest ▸ h.manifest_lt
      known := hmanifest ▸ h.known }
  | publish | replace => exact h.of_manifest rfl rfl
  | truncateLog io =>
    -- the manifest has taken over before the log is cut
    have hcut : σ.nextSeq - 1 ≤ manifestSeq σ := he
    exact { h with known := fun s hs => .inl (by
      have := h.below s hs
      change s ≤ manifestSeq σ
      omega) }
  | _ => exact { h with }

theorem wrote (hs : AppendsAtBoundary σ (.writeBatch batch lease .ok)) :
    Remembers (σ.nextSeq :: seqs) (next filter σ (.writeBatch batch lease .ok)) := by
  obtain ⟨hoffset, hwhole, hfits⟩ := hs
  obtain ⟨hseq, hstore, hwal⟩ := writeBatch_fields filter σ batch lease
  have hmanifest : manifestSeq (next filter σ (.writeBatch batch lease .ok)) = manifestSeq σ := by
    rw [manifestSeq, hstore, manifestSeq]
  have hlog : belowOffset (next filter σ (.writeBatch batch lease .ok)).wal =
      belowOffset σ.wal ++ encodeBatch (batch.walBatch σ.nextSeq) := by
    rw [hwal]
    exact belowOffset_append hoffset
  refine ⟨hseq ▸ Nat.succ_pos _, ?_, fun s hs => ?_, fun s hs => ?_⟩
  · rw [hmanifest, hseq]
    exact Nat.lt_succ_of_lt h.manifest_lt
  · rw [hseq]
    rcases mem_cons.mp hs with rfl | hs
    · exact Nat.lt_succ_self _
    · exact Nat.lt_succ_of_lt (h.below s hs)
  · rw [hmanifest, hlog]
    rcases mem_cons.mp hs with rfl | hs
    · exact .inr (le_highestSeq_whole hwhole (b := batch.walBatch σ.nextSeq) hfits)
    · exact (h.known s hs).imp_right fun hle => hle.trans (highestSeq_append ..)

/-- `open` finds the highest number in the log or in the manifest. -/
theorem crash (fetch : ℕ → Bool) : Remembers seqs (next filter σ (.crashOpen fetch)) := by
  simp only [StorageLsmSystem.next, Sys.crashOpen]
  cases hopen : openEngine σ.wal σ.store fetch with
  | error => exact h
  | ok engine =>
    have hopened := LsmEngine.openEngine_ok hopen
    obtain ⟨records, maxSeq, hreplay, _, hlt⟩ := hopened.replayed
    have hmax : maxSeq = highestSeq σ.wal.file := replay_seq hreplay
    have hlog :=
      highestSeq_mono
      (show belowOffset σ.wal <+: belowOffset
      σ.wal.reopen by simp [belowOffset, Wal.reopen, take_prefix])
    have hfile : belowOffset σ.wal.reopen = σ.wal.file := take_length
    rw [hfile, ← hmax] at hlog
    refine ⟨(Nat.zero_le _).trans_lt hlt, hopened.manifest_lt, fun s hs => ?_, fun s hs => ?_⟩
    · rcases h.known s hs with hle | hle
      · exact hle.trans_lt hopened.manifest_lt
      · exact (hle.trans hlog).trans_lt hlt
    · refine (h.known s hs).imp_right fun hle => ?_
      change s ≤ highestSeq (belowOffset engine.ws.wal)
      rw [hopened.wal_eq, hfile, ← hmax]
      exact hle.trans hlog

theorem quiet (he : Event.isCrash e = false) (hwrite : ∀ batch lease, e ≠
    .writeBatch batch lease .ok) : Remembers seqs (next filter σ e) := by
  refine next_invariant_of_guard
    (fun τ op hτ hop hadd => hτ.apply_op hop hadd) he (fun ops hd => ?_) h
  cases hd with
  | wrote batch lease | wroteAndFroze batch lease | wroteFenced batch lease =>
    exact absurd rfl (hwrite batch lease)
  | nothing => trivial
  | _ => simp [Along]

theorem step (hs : AppendsAtBoundary σ e) : Remembers ((returnedSeq σ e).toList ++ seqs)
    (next filter σ e) := by
  cases e with
  | writeBatch batch lease io =>
    cases io with
    | ok =>
      have hwrote : Remembers (σ.nextSeq :: seqs) (next filter σ (.writeBatch batch lease .ok)) :=
        h.wrote hs
      refine { hwrote with below := fun s hs => ?_, known := fun s hs => ?_ }
      all_goals
        have hmem : s ∈ σ.nextSeq :: seqs := by
          rcases mem_append.mp hs with hs | hs
          · rw [returnedSeq_eq (Option.mem_toList.mp hs)]
            exact mem_cons_self
          · exact mem_cons_of_mem _ hs
      · exact hwrote.below s hmem
      · exact hwrote.known s hmem
    | failed written => exact h.quiet rfl (by simp)
  | crashOpen fetch => exact h.crash fetch
  | _ => exact h.quiet rfl (by simp)

end Remembers

/-- In every run, with any number of failed appends and crashes, that appends batches only
where whole batches end: each sequence number that is returned is above all those returned
before it. -/
theorem commit_seqs_never_reissued (filter : BloomFilter) (path : String) (events : List Event)
    (hlog : Along (next filter) AppendsAtBoundary (initial path) events) :
    (returned filter (initial path) events).Pairwise (· < ·) := by
  suffices h : ∀ (σ : Sys) seqs, Remembers seqs σ → Along (next filter) AppendsAtBoundary σ events →
      (returned filter σ events).Pairwise (· < ·) ∧
        ∀ s ∈ seqs, ∀ n ∈ returned filter σ events, s < n from
    (h _ [] (.initial_remembers) hlog).1
  clear hlog
  induction events with
  | nil => exact fun _ _ _ _ => ⟨List.Pairwise.nil, by simp [returned]⟩
  | cons e events ih =>
    intro σ seqs hσ hlog
    obtain ⟨hrest, habove⟩ := ih _ _ (hσ.step hlog.1) hlog.2
    refine ⟨pairwise_append.mpr ⟨?_, hrest, fun s hs => ?_⟩, fun s hs n hn => ?_⟩
    · cases returnedSeq σ e <;> simp
    · exact habove s (mem_append_left _ hs)
    · rcases mem_append.mp hn with hn | hn
      · rw [returnedSeq_eq (Option.mem_toList.mp hn)]
        exact hσ.below s hs
      · exact habove s (mem_append_right _ hs) n hn

/-- A torn append, a restart, writes, a flush, and another torn append before the last restart. -/
theorem seqs_increase_across_restarts :
    (returned exactFilter (initial "wal.log") ([put [97] [1], put [98] [2]] ++ flushPhases ++
      [put [97] [3], .writeBatch (putRow [99] [4]) heldLease (.failed 13),
        .crashOpen fun _ => true] ++
      flushPhases ++ [put [97] [5], put [98] [6]])).Pairwise (· < ·) :=
  commit_seqs_never_reissued exactFilter "wal.log" _ (by decide)

/-- A crash tears a batch behind its header, the next session appends behind the torn bytes,
and after the next crash its number is returned again. -/
theorem seq_reissued_behind_torn_header : returned exactFilter (initial "wal.log")
      [put [97] [1], .writeBatch (putRow [98] [2]) heldLease (.failed 13), .crashOpen fun _ => true,
        put [98] [3], .crashOpen fun _ => true, put [97] [4]] = [1, 3, 3] := by
  decide +kernel

end StorageLsmCommitSeq
