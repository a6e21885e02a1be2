import Keystone.GuardedRuns
import Keystone.StorageWal
import Mathlib.Tactic.IntervalCases

/-! # What replay recovers

From a log that is cut at any byte, replay recovers the batches that lie before the cut, and
the sequence number of every header that does. -/
namespace StorageWalReplay

open ByteCodecs GuardedRuns StorageInternalKey StorageWal Wal
open List (append_assoc append_nil length_append mem_cons_self)

def layout : ℕ → List WalBatch → List (ℕ × WalBatch)
  | _, [] => []
  | start, b :: batches => (start, b) :: layout (start + (encodeBatch b).length) batches

def wholeWithin (n : ℕ) (layout : List (ℕ × WalBatch)) : List WalBatch :=
  (layout.filter fun p => p.1 + (encodeBatch p.2).length ≤ n).map Prod.snd

def headersWithin (n : ℕ) (layout : List (ℕ × WalBatch)) : List WalBatch :=
  (layout.filter fun p => p.1 + headerLength ≤ n).map Prod.snd

def appendAll (wal : Wal) (batches : List WalBatch) : Wal :=
  batches.foldl (fun wal b => (wal.appendBatch b.seq b.entries .ok).1) wal

variable {batches : List WalBatch}

theorem holds_appendAll (h : wal.Holds old) (hfit : ∀ b ∈ batches, b.Fits) :
    (appendAll wal batches).Holds (old ++ batches) := by
  induction batches generalizing wal old with
  | nil => simpa [appendAll] using h
  | cons b batches ih =>
    have := ih (h.append_ok (hfit b mem_cons_self)) fun x hx =>
      hfit x (.tail _ hx)
    simpa [appendAll] using this

section Layout

variable {n start : ℕ} {batches : List WalBatch}

theorem le_of_mem_layout (hp : p ∈ layout start batches) : start ≤ p.1 := by
  induction batches generalizing start with
  | nil => cases hp
  | cons b batches ih =>
    rcases List.mem_cons.mp hp with rfl | hp
    · exact le_rfl
    · exact (Nat.le_add_right ..).trans (ih hp)

theorem headersWithin_behind (h : n ≤ start) : headersWithin n (layout start batches) = [] := by
  have : (layout start batches).filter (fun p => p.1 + headerLength ≤ n) = [] := by
    refine List.filter_eq_nil_iff.mpr fun p hp => ?_
    have := le_of_mem_layout hp
    rw [decide_eq_true_eq]
    unfold headerLength
    omega
  simp [headersWithin, this]

theorem wholeWithin_behind (h : n ≤ start) : wholeWithin n (layout start batches) = [] := by
  have : (layout start batches).filter (fun p => p.1 + (encodeBatch p.2).length ≤ n) = [] := by
    refine List.filter_eq_nil_iff.mpr fun p hp => ?_
    have := le_of_mem_layout hp
    have := length_encodeBatch_pos p.2
    rw [decide_eq_true_eq]
    omega
  simp [wholeWithin, this]

theorem wholeWithin_cons : wholeWithin n (layout start (b :: batches)) =
      (if start + (encodeBatch b).length ≤ n then [b] else []) ++
        wholeWithin n (layout (start + (encodeBatch b).length) batches) := by
  simp only [wholeWithin, layout, List.filter_cons, decide_eq_true_eq]
  split_ifs <;> simp

theorem headersWithin_cons : headersWithin n (layout start (b :: batches)) =
      (if start + headerLength ≤ n then [b] else []) ++
        headersWithin n (layout (start + (encodeBatch b).length) batches) := by
  simp only [headersWithin, layout, List.filter_cons, decide_eq_true_eq]
  split_ifs <;> simp

end Layout

variable {fuel : ℕ}

theorem replayBatches_take (hfit : ∀ b ∈ batches, b.Fits) (start m : ℕ)
    (hfuel : ((batches.map encodeBatch).flatten.take m).length ≤ fuel) :
    replayBatches fuel ((batches.map encodeBatch).flatten.take m) =
      (((wholeWithin (start + m) (layout start batches)).map WalBatch.records).flatten,
        ((headersWithin (start + m) (layout start batches)).map WalBatch.seq).foldr max 0) := by
  induction batches generalizing start m fuel with
  | nil => cases fuel <;> simp [replayBatches, parseHeader, wholeWithin, headersWithin, layout]
  | cons b batches ih =>
    have hb := hfit b mem_cons_self
    have hheader := headerLength_le b
    rw [List.map_cons, List.flatten_cons] at hfuel ⊢
    rw [wholeWithin_cons, headersWithin_cons]
    by_cases hwhole : (encodeBatch b).length ≤ m
    · -- the batch lies before the cut, and so does its header
      obtain ⟨m, rfl⟩ : ∃ k, m = (encodeBatch b).length + k :=
        ⟨m - (encodeBatch b).length, by omega⟩
      rw [List.take_length_add_append] at hfuel ⊢
      have htail := ih (fun x hx => hfit x (.tail _ hx))
        (start + (encodeBatch b).length) m le_rfl
      have hone := replayBatches_encode (List.forall_mem_singleton.mpr hb) fuel
        ((batches.map encodeBatch).flatten.take m) (by simpa using hfuel)
      rw [htail] at hone
      rw [if_pos (by omega), if_pos (by omega), ← Nat.add_assoc]
      simpa using hone
    · -- the cut is inside this batch
      rw [not_le] at hwhole
      have hbehind : start + m ≤ start + (encodeBatch b).length := by omega
      have hcut : ¬ start + (encodeBatch b).length ≤ start + m := by omega
      rw [List.take_append_of_le_length hwhole.le] at hfuel ⊢
      rw [List.length_take_of_le hwhole.le] at hfuel
      rw [replayBatches_torn hb hwhole hfuel, wholeWithin_behind hbehind,
        headersWithin_behind hbehind, if_neg hcut]
      by_cases hm : headerLength ≤ m
      · rw [if_pos hm, if_pos (by omega)]
        simp
      · rw [if_neg hm, if_neg (by omega)]
        rfl

/-- For every list of batches and every cut of the log they are appended to: replay hands out
the records of the batches before the cut, in order and tagged with their sequence numbers,
and returns the largest sequence number of a header before the cut. -/
theorem replay_recovers_durable_prefix (path : String) (batches : List WalBatch)
    (hfit : ∀ b ∈ batches, b.Fits) (n : ℕ) :
    let log := appendAll ⟨path, [], 0⟩ batches
    { log with file := log.file.take n }.replay =
      .ok (((wholeWithin n (layout 0 batches)).map WalBatch.records).flatten,
        ((headersWithin n (layout 0 batches)).map WalBatch.seq).foldr max 0) := by
  intro log
  have hempty : (⟨path, [], 0⟩ : Wal).Holds [] := ⟨rfl, rfl, by simp⟩
  have hfile : log.file = (batches.map encodeBatch).flatten :=
    (holds_appendAll hempty hfit).file
  have hnil : ∀ first ∈ ([] : Bytes).head?, first = batchMarker := by simp
  have hhead : ∀ first ∈ (log.file.take n).head?, first = batchMarker := by
    rw [hfile, ← append_nil (batches.map encodeBatch).flatten]
    exact head_take (head_encode batches hnil) n
  have hloop := replayBatches_take hfit 0 n le_rfl
  rw [← hfile, Nat.zero_add] at hloop
  rw [replay_of_marker hhead, hloop]

/-- Two batches, cut inside the value of the second. -/
theorem cut_batch_is_dropped :
    let batches : List WalBatch :=
      [⟨4, [⟨[116], [97], [1], 0⟩]⟩, ⟨7, [⟨[116], [98], [2, 3], 0⟩, ⟨[116], [97], [], 2⟩]⟩]
    let log := appendAll ⟨"wal.log", [], 0⟩ batches
    { log with file := log.file.take 57 }.replay = .ok ([⟨4, [116], [97], [1], 0⟩], 7) :=
  replay_recovers_durable_prefix "wal.log" _ (by decide) 57

def highestSeq (buf : Bytes) : ℕ := (replayBatches buf.length buf).2

def wholeBatches : ℕ → Bytes → Bool
  | _, [] => true
  | 0, _ :: _ => false
  | fuel + 1, buf@(_ :: _) =>
    match parseHeader buf with
    | none => false
    | some (seq, count, body) =>
      match parseRecords seq count body with
      | none => false
      | some (_, rest) => wholeBatches fuel rest

variable {buf : Bytes}

theorem replayBatches_seq_mono (hmore : (buf ++ ext).length ≤ more) :
    (replayBatches fuel buf).2 ≤ (replayBatches more (buf ++ ext)).2 := by
  induction fuel generalizing buf more with
  | zero => exact Nat.zero_le _
  | succ fuel ih =>
    cases hheader : parseHeader buf with
    | none => simp [replayBatches, hheader]
    | some header =>
      obtain ⟨seq, count, body⟩ := header
      have hlen := parseHeader_length hheader
      rw [length_append] at hmore
      unfold headerLength at hlen
      obtain ⟨more, rfl⟩ : ∃ k, more = k + 1 := ⟨more - 1, by omega⟩
      have hstable := parseHeader_stable hheader ext
      cases hrecords : parseRecords seq count body with
      | none =>
        -- the batch is cut short here, and its header counts in any case
        simp only [replayBatches, hheader, hrecords, hstable]
        cases parseRecords seq count (body ++ ext) with
        | none => exact le_rfl
        | some parsed => exact le_max_left _ _
      | some parsed =>
        have hrest := parseRecords_length hrecords
        simp only [replayBatches, hheader, hrecords, hstable, parseRecords_stable hrecords ext]
        refine max_le_max_left seq (ih ?_)
        rw [length_append]
        omega

theorem highestSeq_append (buf ext : Bytes) : highestSeq buf ≤ highestSeq (buf ++ ext) :=
  replayBatches_seq_mono le_rfl

theorem parseHeader_cons (h : 12 ≤ buf.length) : parseHeader (batchMarker :: buf) =
      some (decodeBE (buf.take 8), decodeBE ((buf.drop 8).take 4), buf.drop 12) := by
  have h8 : 8 ≤ buf.length := by omega
  have h4 : 4 ≤ buf.length - 8 := by omega
  simp [parseHeader, readBE, readBytes, h8, h4]

/-- A whole header counts, whatever follows it. -/
theorem le_replayBatches (hheader : parseHeader buf = some (seq, count, body))
    (hmore : buf.length ≤ more) :
    seq ≤ (replayBatches more buf).2 := by
  have hlen := parseHeader_length hheader
  unfold headerLength at hlen
  obtain ⟨more, rfl⟩ : ∃ k, more = k + 1 := ⟨more - 1, by omega⟩
  simp only [replayBatches, hheader]
  cases parseRecords seq count body with
  | none => exact le_rfl
  | some parsed => exact le_max_left _ _

variable {b : WalBatch}

theorem parseHeader_encode_seq (hseq : b.seq < 2 ^ 64) :
    ∃ count body, parseHeader (encodeBatch b) = some (b.seq, count, body) := by
  have hbound : b.seq < 256 ^ 8 := by omega
  have hlen := headerLength_le b
  obtain ⟨fields, hfields, hfound⟩ : ∃ fields, encodeBatch b = batchMarker :: fields ∧
      fields.take 8 = encodeBE 8 b.seq :=
    ⟨_, rfl, List.take_left' (length_encodeBE 8 b.seq)⟩
  rw [hfields, headerLength, List.length_cons] at hlen
  rw [hfields, parseHeader_cons (by omega), hfound, decodeBE_encodeBE hbound]
  exact ⟨_, _, rfl⟩

theorem le_highestSeq_whole (hwhole : wholeBatches fuel buf = true) (hseq : b.seq < 2 ^ 64) :
    b.seq ≤ highestSeq (buf ++ encodeBatch b) := by
  suffices h : ∀ more, (buf ++ encodeBatch b).length ≤ more →
      b.seq ≤ (replayBatches more (buf ++ encodeBatch b)).2 from h _ le_rfl
  obtain ⟨count, body, hheader⟩ := parseHeader_encode_seq hseq
  induction fuel generalizing buf with
  | zero =>
    cases buf with
    | nil => exact fun more hmore => le_replayBatches hheader hmore
    | cons => cases hwhole
  | succ fuel ih =>
    intro more hmore
    cases buf with
    | nil => exact le_replayBatches hheader hmore
    | cons first buf =>
      unfold wholeBatches at hwhole
      cases hhead : parseHeader (first :: buf) with
      | none => simp [hhead] at hwhole
      | some header =>
        obtain ⟨seq, count, body⟩ := header
        cases hrecords : parseRecords seq count body with
        | none => simp [hhead, hrecords] at hwhole
        | some parsed =>
          simp only [hhead, hrecords] at hwhole
          have hlen := parseHeader_length hhead
          have hrest := parseRecords_length hrecords
          unfold headerLength at hlen
          rw [length_append] at hmore
          obtain ⟨more, rfl⟩ : ∃ k, more = k + 1 := ⟨more - 1, by omega⟩
          simp only [replayBatches, parseHeader_stable hhead, parseRecords_stable hrecords]
          refine le_max_of_le_right (ih hwhole more ?_)
          rw [length_append]
          omega

/-- What happens to the log file between its creation and a replay: a batch is appended, or
the append of a batch is cut by a crash after `n` bytes and the log is opened again. -/
inductive LogEvent where
  | append (b : WalBatch)
  | crash (b : WalBatch) (n : ℕ)
  deriving DecidableEq

namespace LogEvent

def step (wal : Wal) : LogEvent → Wal
  | .append b => (wal.appendBatch b.seq b.entries .ok).1
  | .crash b n => (wal.appendBatch b.seq b.entries (.failed n)).1.reopen

def Valid : LogEvent → Prop
  | .append b => b.Fits
  | .crash b n => b.Fits ∧ n < (encodeBatch b).length

instance : (e : LogEvent) → Decidable e.Valid
  | .append b => inferInstanceAs (Decidable b.Fits)
  | .crash b _ => inferInstanceAs (Decidable (b.Fits ∧ _ < _))

def tears : LogEvent → Bool
  | .append _ => false
  | .crash _ n => n ≠ 0

def writes : LogEvent → Bool
  | .append _ => true
  | .crash _ n => n ≠ 0

def appended : LogEvent → Option WalBatch
  | .append b => some b
  | .crash _ _ => none

end LogEvent

def logAfter (path : String) (events : List LogEvent) : Wal :=
  run LogEvent.step ⟨path, [], 0⟩ events

def Recovers (path : String) (events : List LogEvent) : Prop :=
  ∃ maxSeq, (logAfter path events).replay =
    .ok (((events.filterMap LogEvent.appended).map WalBatch.records).flatten, maxSeq)

/-- Nothing is written behind a torn batch. -/
def NothingBehindTorn (events : List LogEvent) : Prop :=
  events.Pairwise fun a b => a.tears = true → b.writes = false

instance (events : List LogEvent) : Decidable (NothingBehindTorn events) :=
  inferInstanceAs (Decidable (events.Pairwise _))

/-! A header with a foreign sequence number yields no record of the batch that follows it. -/

theorem replayBatches_foreign (hheader : parseHeader buf = some (seq, count, body))
    (hstop : count = 0 → parseHeader body = none) (hsome : records ≠ [])
      (hseq : ∀ r ∈ records, r.seq ≠ seq) :
    (replayBatches fuel buf).1 ≠ records := by
  cases fuel with
  | zero => exact hsome.symm
  | succ fuel =>
    unfold replayBatches
    rw [hheader]
    cases count with
    | zero =>
      have hnone : (replayBatches fuel body).1 = [] := by
        cases fuel with
        | zero => rfl
        | succ fuel => simp only [replayBatches, hstop rfl]
      simpa [parseRecords, hnone] using hsome.symm
    | succ count =>
      cases hrecords : parseRecords seq (count + 1) body with
      | none => simpa [hrecords] using hsome.symm
      | some parsed =>
        obtain ⟨found, rest⟩ := parsed
        have hfound := parseRecords_seq hrecords
        simp only [hrecords]
        simp only [parseRecords, Option.bind_eq_bind, Option.bind_eq_some_iff,
          Prod.exists] at hrecords
        obtain ⟨record, _, _, more, _, _, heq⟩ := hrecords
        obtain ⟨rfl, _⟩ := Prod.mk.inj (Option.some.inj heq)
        intro hsame
        refine hseq record ?_ (hfound record mem_cons_self)
        exact hsame ▸ mem_cons_self

/-- A batch that is lost behind the front of batch `b`. -/
def lostBehind (b : WalBatch) : WalBatch := ⟨if b.seq = 0 then 1 else 0, [⟨[], [], [], 0⟩]⟩

theorem lostBehind_seq (b : WalBatch) :
    (lostBehind b).seq ≠ b.seq ∧ (lostBehind b).seq < batchMarker.toNat := by
  unfold lostBehind
  by_cases hb : b.seq = 0
  · simp [hb, batchMarker]
  · simp [hb, batchMarker, eq_comm]

/-- Behind its marker no byte of the batch looks like one. -/
theorem lostBehind_no_marker (hk : 5 ≤ k) (hk' : k ≤ 12) :
    parseHeader ((encodeBatch (lostBehind b)).drop k) = none := by
  unfold lostBehind
  split_ifs <;> interval_cases k <;> rfl

theorem marker_mem_take (h : front.length < k) (b : WalBatch) :
    batchMarker ∈ (front ++ encodeBatch b).take k := by
  obtain ⟨m, hm⟩ : ∃ m, k - front.length = m + 1 := ⟨k - front.length - 1, by omega⟩
  rw [List.take_append, hm]
  exact List.mem_append_right _ mem_cons_self

theorem lostBehind_records :
    (lostBehind b).records ≠ [] ∧ ∀ r ∈ (lostBehind b).records, r.seq = (lostBehind b).seq := by
  simp [WalBatch.records, lostBehind, WalEntry.record]

/-- A whole header counts a record that is not: bytes of the next batch are taken for it. -/
theorem lost_behind_header (hfit : b.Fits) (hn : headerLength + m < (encodeBatch b).length) :
    (replayBatches fuel ((encodeBatch b).take (headerLength + m) ++
      encodeBatch (lostBehind b))).1 ≠ (lostBehind b).records := by
  obtain ⟨hrecords, htagged⟩ := lostBehind_records
  have hcount : b.entries.length ≠ 0 := by
    intro h0
    rw [List.length_eq_zero_iff] at h0
    simp [encodeBatch, h0, headerLength] at hn
  rw [take_encodeBatch, List.cons_append, append_assoc, append_assoc]
  refine replayBatches_foreign (parseHeader_fields hfit.seq hfit.count)
    (fun h => absurd h hcount) hrecords (fun r hr => ?_)
  rw [htagged r hr]
  exact (lostBehind_seq b).1

/-- Inside the header, the marker of the next batch is taken for a byte of the sequence number
or of the count. -/
theorem lost_inside_header (hfit : b.Fits) (hn : m + 1 < headerLength) :
    (replayBatches fuel ((encodeBatch b).take (m + 1) ++ encodeBatch (lostBehind b))).1 ≠
      (lostBehind b).records := by
  obtain ⟨hrecords, htagged⟩ := lostBehind_records
  obtain ⟨hseq, hsmall⟩ := lostBehind_seq b
  have hlen := headerLength_le b
  have hlost := headerLength_le (lostBehind b)
  unfold headerLength at hn hlen hlost
  let fields := encodeBE 8 b.seq ++ (encodeBE 4 b.entries.length ++
    (b.entries.map encodeRecord).flatten)
  have hm : (fields.take m).length = m := by
    have : (encodeBatch b).length = fields.length + 1 := rfl
    exact List.length_take_of_le (by omega)
  have hparse : parseHeader (batchMarker :: (fields.take m ++ encodeBatch (lostBehind b))) = _ :=
    parseHeader_cons (by rw [length_append]; omega)
  by_cases hcut : m < 8
  · have hlarge := toNat_le_decodeBE (marker_mem_take (hm.trans_lt hcut) (lostBehind b))
    refine replayBatches_foreign hparse (fun _ => ?_) hrecords (fun r hr => ?_)
    · rw [List.drop_append, List.drop_of_length_le (by omega), List.nil_append, hm]
      exact lostBehind_no_marker (by omega) (by omega)
    · rw [htagged r hr]
      omega
  · have hdrop : (fields.take m ++ encodeBatch (lostBehind b)).drop 8 =
        (fields.take m).drop 8 ++ encodeBatch (lostBehind b) :=
      List.drop_append_of_le_length (by omega)
    have hshort : ((fields.take m).drop 8).length < 4 := by rw [List.length_drop]; omega
    have hlarge := toNat_le_decodeBE (marker_mem_take hshort (lostBehind b))
    have hfound : (fields.take m ++ encodeBatch (lostBehind b)).take 8 = encodeBE 8 b.seq := by
      rw [List.take_append_of_le_length (by omega), List.take_take, min_eq_left (by omega)]
      exact List.take_left' (length_encodeBE 8 b.seq)
    have hbound : b.seq < 256 ^ 8 := by have := hfit.seq; omega
    rw [hfound, decodeBE_encodeBE hbound, hdrop] at hparse
    refine replayBatches_foreign hparse (fun h => ?_) hrecords (fun r hr => ?_)
    · rw [h] at hlarge
      exact absurd hlarge (by decide)
    · rw [htagged r hr]
      exact hseq

/-- Whatever byte `b` is cut at, there is a batch that is not recovered behind it. -/
theorem lost_behind_torn (hfit : b.Fits) (hpos : n ≠ 0) (hn : n < (encodeBatch b).length) :
    (replayBatches fuel ((encodeBatch b).take n ++ encodeBatch (lostBehind b))).1 ≠
      (lostBehind b).records := by
  by_cases hheader : headerLength ≤ n
  · obtain ⟨m, rfl⟩ : ∃ m, n = headerLength + m := ⟨n - headerLength, by omega⟩
    exact lost_behind_header hfit hn
  · obtain ⟨m, rfl⟩ := Nat.exists_eq_succ_of_ne_zero hpos
    exact lost_inside_header hfit (not_le.mp hheader)

structure Torn (wal : Wal) (batches : List WalBatch) (b : WalBatch) (n : ℕ) : Prop where
  file : wal.file = (batches.map encodeBatch).flatten ++ (encodeBatch b).take n
  offset : wal.offset = wal.file.length
  fits : ∀ b ∈ batches, b.Fits
  torn_fits : b.Fits
  some_bytes : n ≠ 0
  not_all : n < (encodeBatch b).length

namespace Torn

variable {wal : Wal} {batches : List WalBatch} {b : WalBatch} {n : ℕ}

theorem of_holds (h : wal.Holds batches) (hb : b.Fits) (hpos : n ≠ 0)
    (hn : n < (encodeBatch b).length) :
    Torn (wal.appendBatch b.seq b.entries (.failed n)).1.reopen batches b n where
  file := by simp only [appendBatch, reopen, h.offset, writeAt_end, h.file]
  offset := rfl
  fits := h.fits
  torn_fits := hb
  some_bytes := hpos
  not_all := hn

variable (h : Torn wal batches b n)

include h

theorem head (tail : Bytes) : ∀ first ∈ (wal.file ++ tail).head?, first = batchMarker := by
  obtain ⟨m, rfl⟩ := Nat.exists_eq_succ_of_ne_zero h.some_bytes
  rw [h.file, append_assoc]
  refine head_encode batches ?_
  simp [encodeBatch]

theorem replay_eq : ∃ maxSeq, wal.replay = .ok ((batches.map WalBatch.records).flatten,
    maxSeq) := by
  have hhead := h.head []
  have hloop := replayBatches_encode h.fits _ ((encodeBatch b).take n) le_rfl
  rw [← h.file, replayBatches_torn h.torn_fits h.not_all
    (le_of_eq (List.length_take_of_le h.not_all.le).symm), append_nil] at hloop
  rw [append_nil] at hhead
  exact ⟨_, by rw [replay_of_marker hhead, hloop]⟩

/-- The next append is acknowledged, but there is a batch it does not bring back. -/
theorem append_lost : ((wal.appendBatch (lostBehind b).seq (lostBehind b).entries .ok).1).replay ≠
      .ok (((batches ++ [lostBehind b]).map WalBatch.records).flatten, maxSeq) := by
  have hfile : (wal.appendBatch (lostBehind b).seq (lostBehind b).entries .ok).1.file =
      wal.file ++ encodeBatch (lostBehind b) := by
    simp [appendBatch, h.offset, writeAt_end]
  have hhead := h.head (encodeBatch (lostBehind b))
  have hloop := replayBatches_encode h.fits _
    ((encodeBatch b).take n ++ encodeBatch (lostBehind b)) le_rfl
  rw [← append_assoc, ← h.file, ← hfile] at hloop
  rw [← hfile] at hhead
  rw [replay_of_marker hhead, hloop]
  intro heq
  have hrecords := (Prod.mk.inj (Except.ok.inj heq)).1
  exact lost_behind_torn h.torn_fits h.some_bytes h.not_all (by simpa using hrecords)

theorem step_quiet (he : e.writes = false) : LogEvent.step wal e = wal ∧ e.appended = none := by
  cases e with
  | append c => cases he
  | crash c k =>
    obtain rfl : k = 0 := by simpa [LogEvent.writes] using he
    have hfile : writeAt wal.file wal.offset [] = wal.file := by
      rw [h.offset, writeAt_end, append_nil]
    have hreopen : ({ wal with offset := wal.file.length } : Wal) = wal := by rw [← h.offset]
    refine ⟨?_, rfl⟩
    simp only [LogEvent.step, appendBatch, List.take_zero, hfile]
    exact hreopen

theorem run_quiet (hquiet : ∀ e ∈ events, e.writes = false) :
    run LogEvent.step wal events = wal ∧ events.filterMap LogEvent.appended = [] := by
  induction events with
  | nil => exact ⟨rfl, rfl⟩
  | cons e events ih =>
    obtain ⟨hstep, hnone⟩ := h.step_quiet (hquiet e mem_cons_self)
    obtain ⟨hrun, hrest⟩ := ih fun x hx => hquiet x (.tail _ hx)
    exact ⟨by rw [run_cons, hstep, hrun], by rw [List.filterMap_cons_none hnone, hrest]⟩

end Torn

/-- As long as nothing is written behind a torn batch, the log holds the appended batches and
at most the front of one more. -/
theorem run_cases (h : wal.Holds batches) (hvalid : ∀ e ∈ events, e.Valid)
    (hclean : NothingBehindTorn events) :
    ((∀ e ∈ events, e.tears = false) ∧ (run LogEvent.step wal events).Holds
      (batches ++ events.filterMap LogEvent.appended)) ∨
    ((∃ e ∈ events, e.tears = true) ∧ ∃ b n, Torn (run LogEvent.step wal events)
      (batches ++ events.filterMap LogEvent.appended) b n) := by
  induction events generalizing wal batches with
  | nil => exact .inl ⟨by simp, by simpa using h⟩
  | cons e events ih =>
    obtain ⟨hfirst, hrest⟩ := List.pairwise_cons.mp hclean
    have hvalidRest := fun x hx => hvalid x (List.mem_cons_of_mem e hx)
    cases e with
    | append b =>
      have hstep := h.append_ok (hvalid (.append b) mem_cons_self)
      simpa [LogEvent.appended, LogEvent.step, LogEvent.tears] using ih hstep hvalidRest hrest
    | crash b n =>
      obtain ⟨hb, hn⟩ := hvalid (.crash b n) mem_cons_self
      by_cases hzero : n = 0
      · subst hzero
        have hstep : LogEvent.step wal (.crash b 0) = wal := by
          rw [LogEvent.step, h.append_failed_zero, h.reopen]
        have hwhole : (LogEvent.crash b 0).tears = false := rfl
        have hnone : (LogEvent.crash b 0).appended = none := rfl
        simpa [hwhole, List.filterMap_cons_none hnone, hstep] using ih h hvalidRest hrest
      · have htears : (LogEvent.crash b n).tears = true := by simpa [LogEvent.tears] using hzero
        have htorn : Torn (LogEvent.step wal (.crash b n)) batches b n := .of_holds h hb hzero hn
        obtain ⟨hrun, hnone⟩ := htorn.run_quiet fun x hx => hfirst x hx htears
        refine .inr ⟨⟨_, mem_cons_self, htears⟩, b, n, ?_⟩
        rw [run_cons, hrun, List.filterMap_cons_none rfl, hnone, append_nil]
        exact htorn

/-- In every run of sessions that writes nothing behind a torn batch, replay hands out every
appended batch and nothing else. If moreover no batch is torn, that stays so for whatever is
appended next, and only then: behind the front of a batch there is always one that an append
acknowledges and replay does not hand out. -/
theorem sessions_recovered_iff_untorn (path : String) (events : List LogEvent)
    (hvalid : ∀ e ∈ events, e.Valid) (hclean : NothingBehindTorn events) :
    Recovers path events ∧
      ((∀ b : WalBatch, b.Fits → Recovers path (events ++ [.append b])) ↔
        ∀ e ∈ events, e.tears = false) := by
  have hempty : (⟨path, [], 0⟩ : Wal).Holds [] := ⟨rfl, rfl, by simp⟩
  have happend : ∀ b, logAfter path (events ++ [.append b]) =
      ((logAfter path events).appendBatch b.seq b.entries .ok).1 := fun b => run_append _ _
  have hall : ∀ b, (events ++ [LogEvent.append b]).filterMap LogEvent.appended =
      events.filterMap LogEvent.appended ++ [b] := fun b => List.filterMap_append
  rcases run_cases hempty hvalid hclean with ⟨huntorn, hholds⟩ | ⟨⟨e, he, htears⟩, b, n, htorn⟩
  · refine ⟨⟨_, hholds.replay_eq⟩, fun _ => huntorn, fun _ b hb => ?_⟩
    unfold Recovers
    rw [happend, hall]
    exact ⟨_, (hholds.append_ok hb).replay_eq⟩
  · refine ⟨htorn.replay_eq, fun hnext => ?_, fun huntorn => ?_⟩
    · obtain ⟨maxSeq, hreplay⟩ :=
        hnext _ (show (lostBehind b).Fits by unfold lostBehind; split_ifs <;> decide)
      rw [happend, hall] at hreplay
      exact absurd hreplay htorn.append_lost
    · exact absurd htears (by simp [huntorn e he])

/-- A run with a clean restart, and a crash that tears the last batch. -/
theorem torn_tail_is_ignored :
    let events : List LogEvent :=
      [.append ⟨1, [⟨[116], [97], [1], 0⟩]⟩, .crash ⟨2, []⟩ 0, .append ⟨2, [⟨[116], [98], [2], 0⟩]⟩,
        .crash ⟨3, [⟨[116], [99], [3], 0⟩]⟩ 20]
    Recovers "wal.log" events ∧
      ((∀ b : WalBatch, b.Fits → Recovers "wal.log" (events ++ [.append b])) ↔
        ∀ e ∈ events, e.tears = false) :=
  sessions_recovered_iff_untorn "wal.log" _ (by decide) (by decide)

/-- The first session appends a batch and is cut while it appends the next. The second session
appends two batches. Replay in the third hands out neither, but a row of the torn batch with
a value that nobody wrote. -/
theorem batches_behind_torn_batch_lost :
    let events : List LogEvent :=
      [.append ⟨1, [⟨[116], [97], [1], 0⟩]⟩, .crash ⟨2, [⟨[116], [98], [2], 0⟩]⟩ 27,
        .append ⟨3, [⟨[116], [99], [3], 0⟩]⟩, .append ⟨4, [⟨[116], [100], [4], 0⟩]⟩,
          .crash ⟨5, []⟩ 0]
    (∀ e ∈ events, e.Valid) ∧
      (logAfter "wal.log" events).replay =
        .ok ([⟨1, [116], [97], [1], 0⟩, ⟨2, [116], [98], [255], 0⟩], 2) ∧
      ¬ Recovers "wal.log" events := by
  intro events
  have hreplay : (logAfter "wal.log" events).replay =
      .ok ([⟨1, [116], [97], [1], 0⟩, ⟨2, [116], [98], [255], 0⟩], 2) := by
    decide +kernel
  refine ⟨by decide, hreplay, ?_⟩
  rintro ⟨maxSeq, h⟩
  rw [hreplay] at h
  exact absurd (congrArg List.length (Prod.mk.inj (Except.ok.inj h)).1) (by decide)

end StorageWalReplay
