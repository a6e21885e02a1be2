import Keystone.ByteCodecs
import Keystone.StorageInternalKey

/-! # The write-ahead log

One file of batches, each appended with a single write and fsync. Recovery accepts a batch
in full or drops it in full. The file is modelled byte by byte, with the append position
that the backend tracks on its own and that a failed append leaves where it was. -/
namespace StorageWal

open ByteCodecs List Option StorageInternalKey

inductive StorageError where
  | noBatchMarker (path : String)
  | io (operation : String)
  | fencedOff
  | manifestCas (context : String)
  | readOnlyReplica
  | indexMaintenance
  | sstableNotFound (key : String)
  deriving DecidableEq

/-- Distinct from every record type in use. -/
def batchMarker : UInt8 := 0xFF

structure WalRecord where
  seq : ℕ
  table : Bytes
  key : Bytes
  value : Bytes
  recordType : UInt8
  deriving DecidableEq

structure WalEntry where
  table : Bytes
  key : Bytes
  value : Bytes
  recordType : UInt8
  deriving DecidableEq

structure WalBatch where
  seq : ℕ
  entries : List WalEntry
  deriving DecidableEq

def WalEntry.record (e : WalEntry) (seq : ℕ) : WalRecord :=
  ⟨seq, e.table, e.key, e.value, e.recordType⟩

def WalBatch.records (b : WalBatch) : List WalRecord := b.entries.map fun e => e.record b.seq

def encodeRecord (e : WalEntry) : Bytes :=
  encodeField e.table ++ (encodeField e.key ++ (encodeField e.value ++ [e.recordType]))

/-- `marker | commit_seq | count | record*`. -/
def encodeBatch (b : WalBatch) : Bytes :=
  batchMarker :: (encodeBE 8 b.seq ++ (encodeBE 4 b.entries.length ++
    (b.entries.map encodeRecord).flatten))

def parseRecord (seq : ℕ) (buf : Bytes) : Option (WalRecord × Bytes) := do
  let (table, buf) ← readField buf
  let (key, buf) ← readField buf
  let (value, buf) ← readField buf
  let (tag, buf) ← readBytes 1 buf
  some (⟨seq, fromUtf8Lossy table, key, value, tag.headD 0⟩, buf)

def parseRecords (seq : ℕ) : ℕ → Bytes → Option (List WalRecord × Bytes)
  | 0, buf => some ([], buf)
  | count + 1, buf => do
    let (record, buf) ← parseRecord seq buf
    let (records, buf) ← parseRecords seq count buf
    some (record :: records, buf)

def parseHeader : Bytes → Option (ℕ × ℕ × Bytes)
  | [] => none
  | marker :: buf =>
    if marker ≠ batchMarker then none
    else do
      let (seq, buf) ← readBE 8 buf
      let (count, buf) ← readBE 4 buf
      some (seq, count, buf)

/-- The batch loop. A batch that is cut short ends the replay, but its header still counts
towards the highest sequence number. The fuel is the file length: a batch has 13 bytes or more. -/
def replayBatches : ℕ → Bytes → List WalRecord × ℕ
  | 0, _ => ([], 0)
  | fuel + 1, buf =>
    match parseHeader buf with
    | none => ([], 0)
    | some (seq, count, body) =>
      match parseRecords seq count body with
      | none => ([], seq)
      | some (records, rest) =>
        let (more, maxSeq) := replayBatches fuel rest
        (records ++ more, max seq maxSeq)

structure Wal where
  path : String
  file : Bytes
  offset : ℕ
  deriving DecidableEq

/-- How an append ends: all bytes durable, or an error after `written` of them reached the file. -/
inductive AppendIo where
  | ok
  | failed (written : ℕ)
  deriving DecidableEq

/-- How a truncation ends: done, refused, or cut to length zero with the fsync failing after. -/
inductive TruncateIo where
  | ok
  | failed
  | unsynced
  deriving DecidableEq

/-- A positional write; writing past the end leaves zeros in the gap. -/
def writeAt (file : Bytes) (offset : ℕ) (buf : Bytes) : Bytes :=
  file.take offset ++ List.replicate (offset - file.length) 0 ++ buf ++ file.drop
    (offset + buf.length)

theorem writeAt_end (file buf : Bytes) : writeAt file file.length buf = file ++ buf := by
  simp [writeAt]

namespace Wal

/-- `Wal::open`: the append position is the length found on disk, torn tail included. -/
def reopen (wal : Wal) : Wal := { wal with offset := wal.file.length }

def appendBatch (wal : Wal) (seq : ℕ) (entries : List WalEntry) :
    AppendIo → Wal × Except StorageError (List WalRecord)
  | .ok =>
    let buf := encodeBatch ⟨seq, entries⟩
    ({ wal with file := writeAt wal.file wal.offset buf, offset := wal.offset + buf.length },
      .ok (WalBatch.records ⟨seq, entries⟩))
  | .failed written =>
    let buf := (encodeBatch ⟨seq, entries⟩).take written
    ({ wal with file := writeAt wal.file wal.offset buf }, .error (.io "appending to wal"))

def replay (wal : Wal) : Except StorageError (List WalRecord × ℕ) :=
  match wal.file with
  | [] => .ok ([], 0)
  | first :: _ =>
    if first ≠ batchMarker then .error (.noBatchMarker wal.path)
    else .ok (replayBatches wal.file.length wal.file)

def truncate (wal : Wal) : TruncateIo → Wal × Except StorageError Unit
  | .ok => ({ wal with file := [], offset := 0 }, .ok ())
  | .failed => (wal, .error (.io "truncating wal file"))
  | .unsynced => ({ wal with file := [] }, .error (.io "fsyncing wal after truncate"))

end Wal

structure WalEntry.Fits (e : WalEntry) : Prop where
  table : e.table.length < 2 ^ 32
  utf8 : validUtf8 e.table = true
  key : e.key.length < 2 ^ 32
  value : e.value.length < 2 ^ 32

structure WalBatch.Fits (b : WalBatch) : Prop where
  seq : b.seq < 2 ^ 64
  count : b.entries.length < 2 ^ 32
  entries : ∀ e ∈ b.entries, e.Fits

instance (e : WalEntry) : Decidable e.Fits :=
  decidable_of_iff (e.table.length < 2 ^ 32 ∧ validUtf8 e.table = true ∧ e.key.length < 2 ^ 32 ∧
      e.value.length < 2 ^ 32)
    ⟨fun h => ⟨h.1, h.2.1, h.2.2.1, h.2.2.2⟩, fun h => ⟨h.table, h.utf8, h.key, h.value⟩⟩

instance (b : WalBatch) : Decidable b.Fits :=
  decidable_of_iff (b.seq < 2 ^ 64 ∧ b.entries.length < 2 ^ 32 ∧ ∀ e ∈ b.entries, e.Fits)
    ⟨fun h => ⟨h.1, h.2.1, h.2.2⟩, fun h => ⟨h.seq, h.count, h.entries⟩⟩

theorem parseRecord_encode (hfit : e.Fits) :
    parseRecord seq (encodeRecord e ++ rest) = some (e.record seq, rest) := by
  obtain ⟨ht, hutf, hk, hv⟩ := hfit
  have htag : readBytes 1 (e.recordType :: rest) = some ([e.recordType], rest) := by
    simp [readBytes]
  simp only [parseRecord, encodeRecord, append_assoc, bind_eq_bind, bind_some,
    readField_encodeField (show e.table.length < 256 ^ 4 by omega),
    readField_encodeField (show e.key.length < 256 ^ 4 by omega),
    readField_encodeField (show e.value.length < 256 ^ 4 by omega),
    fromUtf8Lossy_valid hutf]
  rfl

theorem parseRecords_encode {entries : List WalEntry} (hfit : ∀ e ∈ entries, e.Fits) (seq : ℕ)
    (rest : Bytes) :
    parseRecords seq entries.length ((entries.map encodeRecord).flatten ++ rest) =
      some (entries.map fun e => e.record seq, rest) := by
  induction entries with
  | nil => rfl
  | cons e entries ih =>
    simp [parseRecords, parseRecord_encode (hfit e mem_cons_self),
      ih fun e he => hfit e (.tail _ he)]

def headerLength : ℕ := 13

variable {seq count : ℕ}

theorem parseHeader_fields (hseq : seq < 2 ^ 64) (hcount : count < 2 ^ 32) :
    parseHeader (batchMarker :: (encodeBE 8 seq ++ (encodeBE 4 count ++ body))) =
      some (seq, count, body) := by
  have hseq : seq < 256 ^ 8 := by omega
  have hcount : count < 256 ^ 4 := by omega
  simp [parseHeader, readBE_encodeBE hseq, readBE_encodeBE hcount]

theorem parseHeader_encode (hfit : b.Fits) : parseHeader (encodeBatch b ++ rest) =
      some (b.seq, b.entries.length, (b.entries.map encodeRecord).flatten ++ rest) := by
  rw [← parseHeader_fields hfit.seq hfit.count]
  simp [encodeBatch]

variable {buf : Bytes}

theorem parseHeader_short (h : buf.length < headerLength) : parseHeader buf = none := by
  cases buf with
  | nil => rfl
  | cons marker buf =>
    simp only [headerLength, length_cons] at h
    simp only [parseHeader]
    split_ifs with hm
    · rfl
    · by_cases h8 : 8 ≤ buf.length
      · have h4 : ¬ 4 ≤ buf.length - 8 := by omega
        simp [readBE, readBytes, h8, h4]
      · simp [readBE, readBytes, h8]

theorem headerLength_le (b : WalBatch) : headerLength ≤ (encodeBatch b).length := by
  simp only [headerLength, encodeBatch, length_cons, length_append, length_encodeBE]
  omega

theorem length_encodeBatch_pos (b : WalBatch) : 0 < (encodeBatch b).length := by
  simp [encodeBatch]

variable {buf rest : Bytes}

theorem parseRecord_length (h : parseRecord seq buf = some (record, rest)) :
    rest.length < buf.length := by
  simp only [parseRecord, bind_eq_bind, bind_eq_some_iff, Prod.exists] at h
  obtain ⟨table, b1, h1, key, b2, h2, value, b3, h3, tag, b4, h4, h⟩ := h
  obtain ⟨_, rfl⟩ := Prod.mk.inj (Option.some.inj h)
  have := readField_length h1
  have := readField_length h2
  have := readField_length h3
  have := readBytes_length h4
  omega

theorem parseRecords_length (h : parseRecords seq count buf = some (records, rest)) :
    rest.length ≤ buf.length := by
  induction count generalizing buf records with
  | zero =>
    obtain ⟨_, rfl⟩ := Prod.mk.inj (Option.some.inj h)
    exact le_rfl
  | succ count ih =>
    simp only [parseRecords, bind_eq_bind, bind_eq_some_iff, Prod.exists] at h
    obtain ⟨record, mid, hrecord, more, b, hmore, h⟩ := h
    obtain ⟨_, rfl⟩ := Prod.mk.inj (Option.some.inj h)
    exact (ih hmore).trans (le_of_lt (parseRecord_length hrecord))

theorem parseHeader_length (h : parseHeader buf = some (seq, count, rest)) :
    buf.length = headerLength + rest.length := by
  cases buf with
  | nil => simp [parseHeader] at h
  | cons marker buf =>
    simp only [parseHeader, bind_eq_bind] at h
    split_ifs at h with hm
    simp only [bind_eq_some_iff, Prod.exists] at h
    obtain ⟨s, b1, h1, c, b2, h2, h⟩ := h
    obtain ⟨_, _, rfl⟩ := h
    have := readBE_length h1
    have := readBE_length h2
    simp only [headerLength, length_cons]
    omega

theorem replayBatches_fuel (hfuel : buf.length ≤ fuel) (hmore : buf.length ≤ more) :
    replayBatches fuel buf = replayBatches more buf := by
  have hempty : ∀ n, replayBatches n [] = ([], 0) := fun n => by cases n <;> rfl
  induction fuel generalizing buf more with
  | zero =>
    obtain rfl := eq_nil_of_length_eq_zero (Nat.le_zero.mp hfuel)
    rw [hempty, hempty]
  | succ fuel ih =>
    cases more with
    | zero =>
      obtain rfl := eq_nil_of_length_eq_zero (Nat.le_zero.mp hmore)
      rw [hempty, hempty]
    | succ more =>
      unfold replayBatches
      cases hheader : parseHeader buf with
      | none => rfl
      | some header =>
        obtain ⟨seq, count, body⟩ := header
        cases hrecords : parseRecords seq count body with
        | none => simp only [hrecords]
        | some parsed =>
          obtain ⟨records, rest⟩ := parsed
          have hbody := parseHeader_length hheader
          have hrest := parseRecords_length hrecords
          simp only [headerLength] at hbody
          have hstep : replayBatches fuel rest = replayBatches more rest :=
            ih (by omega) (by omega)
          simp [hrecords, hstep]

theorem replayBatches_encode {batches : List WalBatch} (hfit : ∀ b ∈ batches, b.Fits) (fuel : ℕ)
    (tail : Bytes)
    (hfuel : ((batches.map encodeBatch).flatten ++ tail).length ≤ fuel) :
    replayBatches fuel ((batches.map encodeBatch).flatten ++ tail) =
      ((batches.map WalBatch.records).flatten ++ (replayBatches tail.length tail).1,
        (batches.map WalBatch.seq).foldr max (replayBatches tail.length tail).2) := by
  induction batches generalizing fuel with
  | nil => simpa using replayBatches_fuel hfuel le_rfl
  | cons b batches ih =>
    have hb := hfit b mem_cons_self
    have hpos := length_encodeBatch_pos b
    simp only [map_cons, flatten_cons, length_append] at hfuel ⊢
    obtain ⟨fuel, rfl⟩ : ∃ n, fuel = n + 1 := ⟨fuel - 1, by omega⟩
    have hrecords := parseRecords_encode hb.entries b.seq
      ((batches.map encodeBatch).flatten ++ tail)
    have ih := ih (fun x hx => hfit x (.tail _ hx)) fuel
      (by simp only [length_append]; omega)
    simp [replayBatches, parseHeader_encode hb, hrecords, ih, WalBatch.records]

section Torn

variable {buf rest : Bytes} {seq : ℕ}

theorem parseRecord_stable (h : parseRecord seq buf = some (r, rest)) (ext : Bytes) :
    parseRecord seq (buf ++ ext) = some (r, rest ++ ext) := by
  simp only [parseRecord, bind_eq_bind, bind_eq_some_iff, Prod.exists] at h
  obtain ⟨table, b1, h1, key, b2, h2, value, b3, h3, tag, b4, h4, h⟩ := h
  obtain ⟨rfl, rfl⟩ := h
  simp [parseRecord, readField_stable h1, readField_stable h2, readField_stable h3,
    readBytes_stable h4]

theorem parseRecords_stable (h : parseRecords seq count buf = some (rs, rest)) (ext : Bytes) :
    parseRecords seq count (buf ++ ext) = some (rs, rest ++ ext) := by
  induction count generalizing buf rs with
  | zero =>
    obtain ⟨rfl, rfl⟩ := h
    rfl
  | succ count ih =>
    simp only [parseRecords, bind_eq_bind, bind_eq_some_iff, Prod.exists] at h
    obtain ⟨r, mid, hr, more, b, hmore, h⟩ := h
    obtain ⟨rfl, rfl⟩ := h
    simp [parseRecords, parseRecord_stable hr, ih hmore]

theorem parseHeader_stable (h : parseHeader buf = some (seq, count, rest)) (ext : Bytes) :
    parseHeader (buf ++ ext) = some (seq, count, rest ++ ext) := by
  cases buf with
  | nil => simp [parseHeader] at h
  | cons marker buf =>
    simp only [parseHeader, bind_eq_bind] at h
    split_ifs at h with hm
    simp only [bind_eq_some_iff, Prod.exists] at h
    obtain ⟨s, b1, h1, c, b2, h2, h⟩ := h
    obtain ⟨rfl, rfl, rfl⟩ := h
    simp [parseHeader, hm, readBE_stable h1, readBE_stable h2]

theorem take_encodeBatch : (encodeBatch b).take (headerLength + m) =
    batchMarker :: (encodeBE 8 b.seq ++
      (encodeBE 4 b.entries.length ++ (b.entries.map encodeRecord).flatten.take m)) := by
  have hsplit : encodeBatch b = (batchMarker :: (encodeBE 8 b.seq ++
      encodeBE 4 b.entries.length)) ++ (b.entries.map encodeRecord).flatten := by
    simp [encodeBatch]
  have hhead :
    headerLength = (batchMarker :: (encodeBE 8 b.seq ++ encodeBE 4 b.entries.length)).length := by
    simp [headerLength]
  rw [hsplit, hhead, take_length_add_append]
  simp

/-- Reading on into the missing bytes would leave them unread. -/
theorem parseRecords_torn {entries : List WalEntry} (hfit : ∀ e ∈ entries, e.Fits) {m : ℕ}
    (hm : m < (entries.map encodeRecord).flatten.length) :
    parseRecords seq entries.length ((entries.map encodeRecord).flatten.take m) = none := by
  have hwhole := parseRecords_encode hfit seq []
  rw [append_nil] at hwhole
  cases hr : parseRecords seq entries.length ((entries.map encodeRecord).flatten.take m) with
  | none => rfl
  | some parsed =>
    obtain ⟨rs, rest⟩ := parsed
    have hfull := parseRecords_stable hr ((entries.map encodeRecord).flatten.drop m)
    rw [take_append_drop, hwhole] at hfull
    have hrest : [] = rest ++ (entries.map encodeRecord).flatten.drop m :=
      (Prod.mk.inj (Option.some.inj hfull)).2
    have := congrArg List.length hrest
    simp only [length_append, length_drop, length_nil] at this
    omega

/-- A batch that is cut anywhere before its end replays nothing, but a whole header still
counts. -/
theorem replayBatches_torn {b : WalBatch} (hfit : b.Fits) {n : ℕ}
    (hn : n < (encodeBatch b).length) (hfuel : n ≤ fuel) :
    replayBatches fuel ((encodeBatch b).take n) = ([], if headerLength ≤ n then b.seq else 0) := by
  split_ifs with hheader
  · obtain ⟨m, rfl⟩ : ∃ m, n = headerLength + m := ⟨n - headerLength, by omega⟩
    obtain ⟨fuel, rfl⟩ : ∃ k, fuel = k + 1 :=
      ⟨fuel - 1, by simp only [headerLength] at hfuel; omega⟩
    have hbody : m < (b.entries.map encodeRecord).flatten.length := by
      have hlen :
        (encodeBatch b).length = headerLength + (b.entries.map encodeRecord).flatten.length := by
        simp [encodeBatch, headerLength]
        omega
      omega
    simp [take_encodeBatch, replayBatches, parseHeader_fields hfit.seq hfit.count,
      parseRecords_torn hfit.entries hbody]
  · have hshort : parseHeader ((encodeBatch b).take n) = none := by
      refine parseHeader_short ?_
      rw [length_take]
      omega
    cases fuel with
    | zero => rfl
    | succ fuel => simp only [replayBatches, hshort]

end Torn

theorem parseRecord_seq (h : parseRecord seq buf = some (record, rest)) : record.seq = seq := by
  unfold parseRecord at h
  simp only [bind_eq_bind, bind_eq_some_iff] at h
  obtain ⟨_, _, _, _, _, _, _, _, rfl, _⟩ := h
  rfl

theorem parseRecords_seq (h : parseRecords seq count buf = some (records, rest)) :
    ∀ r ∈ records, r.seq = seq := by
  induction count generalizing buf records rest with
  | zero =>
    obtain ⟨rfl, _⟩ := Prod.mk.inj (Option.some.inj h)
    simp
  | succ count ih =>
    simp only [parseRecords, bind_eq_bind, bind_eq_some_iff] at h
    obtain ⟨⟨record, buf'⟩, hrecord, ⟨more, rest'⟩, hmore, heq⟩ := h
    obtain ⟨rfl, _⟩ := Prod.mk.inj (Option.some.inj heq)
    exact forall_mem_cons.mpr ⟨parseRecord_seq hrecord, ih hmore⟩

/-- No record that is replayed lies above the sequence number that replay reports. -/
theorem replayBatches_seq_le (fuel : ℕ) (buf : Bytes) :
    ∀ r ∈ (replayBatches fuel buf).1, r.seq ≤ (replayBatches fuel buf).2 := by
  induction fuel generalizing buf with
  | zero => simp [replayBatches]
  | succ fuel ih =>
    unfold replayBatches
    cases hheader : parseHeader buf with
    | none => simp
    | some header =>
      obtain ⟨seq, count, body⟩ := header
      cases hrecords : parseRecords seq count body with
      | none => simp [hrecords]
      | some parsed =>
        obtain ⟨records, rest⟩ := parsed
        simp only [hrecords]
        intro r hr
        rcases mem_append.mp hr with hr | hr
        · rw [parseRecords_seq hrecords r hr]
          exact le_max_left _ _
        · exact (ih rest r hr).trans (le_max_right ..)

theorem Wal.replay_of_marker {wal : Wal} (h : ∀ first ∈ wal.file.head?, first = batchMarker) :
    wal.replay = .ok (replayBatches wal.file.length wal.file) := by
  unfold Wal.replay
  split
  next hnil => rw [hnil]; rfl
  next first rest hcons =>
    have : first = batchMarker := h first (by rw [hcons]; rfl)
    rw [if_neg (not_not.mpr this)]

theorem head_encodeBatch (b : WalBatch) : ∀ first ∈ (encodeBatch b).head?, first = batchMarker := by
  simp [encodeBatch]

theorem head_encode (batches : List WalBatch) {tail : Bytes}
    (h : ∀ first ∈ tail.head?, first = batchMarker) :
    ∀ first ∈ ((batches.map encodeBatch).flatten ++ tail).head?, first = batchMarker := by
  cases batches with
  | nil => simpa using h
  | cons b batches => simp [encodeBatch]

theorem head_take (h : ∀ first ∈ buf.head?, first = batchMarker) (n : ℕ) :
    ∀ first ∈ (buf.take n).head?, first = batchMarker := by
  intro first hfirst
  rw [List.head?_take] at hfirst
  split_ifs at hfirst with hn
  · cases hfirst
  · exact h first hfirst

/-- A log of whole batches with the append position at its end. -/
structure Wal.Holds (wal : Wal) (batches : List WalBatch) : Prop where
  file : wal.file = (batches.map encodeBatch).flatten
  offset : wal.offset = wal.file.length
  fits : ∀ b ∈ batches, b.Fits

namespace Wal.Holds

variable {wal : Wal} {batches : List WalBatch} (h : wal.Holds batches)

include h

theorem replay_eq : wal.replay = .ok ((batches.map WalBatch.records).flatten,
      (batches.map WalBatch.seq).foldr max 0) := by
  have hend : replayBatches ([] : Bytes).length [] = ([], 0) := rfl
  have hloop := replayBatches_encode h.fits _ [] le_rfl
  have hnil : ∀ first ∈ ([] : Bytes).head?, first = batchMarker := by simp
  have hhead := head_encode batches hnil
  rw [append_nil, ← h.file] at hhead
  rw [append_nil, hend, ← h.file, append_nil] at hloop
  rw [Wal.replay_of_marker hhead, hloop]

variable {b : WalBatch}

theorem append_ok (hb : b.Fits) : (wal.appendBatch b.seq b.entries .ok).1.Holds
    (batches ++ [b]) := by
  refine ⟨?_, ?_, ?_⟩
  · simp only [appendBatch, h.offset, writeAt_end, map_append, flatten_append, ← h.file]
    simp
  · simp [appendBatch, h.offset, writeAt_end]
  · intro x hx
    rcases mem_append.mp hx with hx | hx
    · exact h.fits x hx
    · rw [mem_singleton.mp hx]; exact hb

theorem append_failed_zero : (wal.appendBatch seq entries (.failed 0)).1 = wal := by
  have hfile : writeAt wal.file wal.offset [] = wal.file := by
    rw [h.offset, writeAt_end, append_nil]
  simp [appendBatch, hfile]

/-- An append that fails short of its end leaves a log that replays as before. -/
theorem append_torn (hb : b.Fits) {n : ℕ} (hn : n < (encodeBatch b).length) :
    ∃ maxSeq, (wal.appendBatch b.seq b.entries (.failed n)).1.reopen.replay =
      .ok ((batches.map WalBatch.records).flatten, maxSeq) := by
  have hfile : (wal.appendBatch b.seq b.entries (.failed n)).1.reopen.file =
      (batches.map encodeBatch).flatten ++ (encodeBatch b).take n := by
    simp only [appendBatch, Wal.reopen, h.offset, writeAt_end, h.file]
  have hloop := replayBatches_encode h.fits _ ((encodeBatch b).take n) le_rfl
  have hhead := head_encode batches (head_take (head_encodeBatch b) n)
  rw [← hfile] at hhead
  rw [← hfile, replayBatches_torn hb hn (le_of_eq (length_take_of_le hn.le).symm),
    append_nil] at hloop
  exact ⟨_, by rw [Wal.replay_of_marker hhead, hloop]⟩

/-- An append whose bytes all arrived is in the log, although it was reported as failed. -/
theorem append_unsynced (hb : b.Fits) (hn : (encodeBatch b).length ≤ n) :
    (wal.appendBatch b.seq b.entries (.failed n)).1.reopen.Holds (batches ++ [b]) := by
  have hok := h.append_ok hb
  refine ⟨?_, rfl, hok.fits⟩
  rw [← hok.file]
  simp only [appendBatch, Wal.reopen, take_of_length_le hn]

omit h in
theorem truncated : (wal.truncate .ok).1.Holds [] := by
  refine ⟨rfl, rfl, by simp⟩

theorem reopen : wal.reopen = wal := by
  simp [Wal.reopen, ← h.offset]

end Wal.Holds
end StorageWal
