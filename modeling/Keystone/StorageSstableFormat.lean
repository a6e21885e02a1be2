import Keystone.ByteCodecs
import Keystone.SliceSearch
import Keystone.StorageMemTable

/-! # The table file format

A table is one blob: the data records, the index, the filter and a fixed footer that says where the
sections start. Offsets are absolute, so every reader below is stated at a position of the whole
blob. -/
namespace StorageSstableFormat

open ByteCodecs List StorageInternalKey StorageMemTable VersionedLayers

def footerLen : ℕ := 32

def sstableFormatMagic : Bytes := [84, 80, 84, 83, 83, 84, 48, 50]

inductive SstableError where
  | wantU32 (pos : ℕ)
  | wantU64 (pos : ℕ)
  | dataRecord
  | formatMarker (key : String)
  | indexEntry
  | indexEntryTag
  | bloomBitmap
  deriving DecidableEq

structure IndexEntry where
  key : Bytes
  seq : ℕ
  tag : UInt8
  offset : ℕ
  valueLen : ℕ
  deriving DecidableEq

/-- What a filter exports: bitmap, bit count, number of hash functions and two key pairs. -/
structure BloomParts where
  bitmap : Bytes
  numBits : UInt64
  numHashes : UInt32
  sipKeys : (UInt64 × UInt64) × (UInt64 × UInt64)
  deriving DecidableEq

/-- The filter crate. A new filter draws random hash keys, here the seed. An inserted key is
never reported missing, also by the filter made again from what the first one exports. -/
structure BloomCrate where
  Filter : Type
  Seed : Type
  newForFpRate : Seed → ℕ → Filter
  set : Filter → Bytes → Filter
  check : Filter → Bytes → Bool
  parts : Filter → BloomParts
  fromExisting : BloomParts → Filter
  check_fromExisting : ∀ seed n (keys : List Bytes), ∀ k ∈ keys,
    check (fromExisting (parts (keys.foldl set (newForFpRate seed n)))) k = true

variable (crate : BloomCrate) (seed : crate.Seed)

def readU32 (buf : Bytes) (pos : ℕ) : Except SstableError ℕ :=
  if buf.length < pos + 4 then .error (.wantU32 pos)
  else .ok (decodeBE (slice buf pos (pos + 4)))

def readU64 (buf : Bytes) (pos : ℕ) : Except SstableError ℕ :=
  if buf.length < pos + 8 then .error (.wantU64 pos)
  else .ok (decodeBE (slice buf pos (pos + 8)))

def readValueAt (buf : Bytes) (entry : IndexEntry) : Except SstableError Bytes := do
  let keyLen ← readU32 buf entry.offset
  let pos := entry.offset + (4 + keyLen)
  let valueLen ← readU32 buf pos
  let pos := pos + 4
  if buf.length < pos + valueLen then .error .dataRecord
  else .ok (slice buf pos (pos + valueLen))

structure Building where
  index : List IndexEntry
  bloom : crate.Filter
  dataBuf : Bytes

variable {crate} in
/-- One round of the loop over the entries. A tombstone has no data record; its offset is the
one of the record that follows. -/
def Building.push (b : Building crate) (e : Entry) : Building crate :=
  let bloom := crate.set b.bloom e.1.userKey
  let offset := b.dataBuf.length
  if e.1.tag = deleteTag then
    { b with index := b.index ++ [⟨e.1.userKey, e.1.seq, e.1.tag, offset, 0⟩], bloom }
  else
    { index := b.index ++ [⟨e.1.userKey, e.1.seq, e.1.tag, offset, e.2.length % 2 ^ 32⟩]
      bloom
      dataBuf := b.dataBuf ++ (encodeField e.1.userKey ++ encodeField e.2) }

def Building.start (count : ℕ) : Building crate := ⟨[], crate.newForFpRate seed (max count 1), []⟩

def built (entries : List Entry) : Building crate :=
  entries.foldl Building.push (.start crate seed entries.length)

def encodeIndexEntry (ie : IndexEntry) : Bytes :=
  encodeField ie.key ++ (encodeBE 8 ie.seq ++ ([ie.tag] ++
    (encodeBE 8 ie.offset ++ encodeBE 4 ie.valueLen)))

def encodeIndex (index : List IndexEntry) : Bytes :=
  encodeBE 4 index.length ++ (index.map encodeIndexEntry).flatten

def encodeBloom (p : BloomParts) : Bytes :=
  encodeField p.bitmap ++ (encodeBE 8 p.numBits.toNat ++ (encodeBE 4 p.numHashes.toNat ++
    (encodeBE 8 p.sipKeys.1.1.toNat ++ (encodeBE 8 p.sipKeys.1.2.toNat ++
      (encodeBE 8 p.sipKeys.2.1.toNat ++ encodeBE 8 p.sipKeys.2.2.toNat)))))

def encodeFooter (indexOffset bloomOffset : ℕ) : Bytes :=
  encodeBE 8 0 ++ (encodeBE 8 indexOffset ++ (encodeBE 8 bloomOffset ++ sstableFormatMagic))

def buildBytes (entries : List Entry) : Bytes :=
  let b := built crate seed entries
  let indexOffset := b.dataBuf.length
  let buf := b.dataBuf ++ encodeIndex b.index
  let bloomOffset := buf.length
  buf ++ encodeBloom (crate.parts b.bloom) ++ encodeFooter indexOffset bloomOffset

structure DecodedTable where
  key : String
  id : ℕ
  index : List IndexEntry
  bloom : crate.Filter
  data : Bytes

def decodeIndexEntry (buf : Bytes) (pos : ℕ) : Except SstableError (IndexEntry × ℕ) := do
  let keyLen ← readU32 buf pos
  let pos := pos + 4
  if buf.length < pos + keyLen then .error .indexEntry
  else
    let key := slice buf pos (pos + keyLen)
    let pos := pos + keyLen
    let seq ← readU64 buf pos
    let pos := pos + 8
    if buf.length ≤ pos then .error .indexEntryTag
    else
      let tag := buf.getD pos 0
      let pos := pos + 1
      let offset ← readU64 buf pos
      let pos := pos + 8
      let valueLen ← readU32 buf pos
      .ok (⟨key, seq, tag, offset, valueLen⟩, pos + 4)

def decodeIndex (buf : Bytes) : ℕ → ℕ → Except SstableError (List IndexEntry)
  | 0, _ => .ok []
  | count + 1, pos => do
    let (entry, pos) ← decodeIndexEntry buf pos
    let rest ← decodeIndex buf count pos
    .ok (entry :: rest)

def decodeBloom (buf : Bytes) (pos : ℕ) : Except SstableError BloomParts := do
  let bitsLen ← readU32 buf pos
  let pos := pos + 4
  if buf.length < pos + bitsLen then .error .bloomBitmap
  else
    let bits := slice buf pos (pos + bitsLen)
    let pos := pos + bitsLen
    let numBits ← readU64 buf pos
    let pos := pos + 8
    let numHashes ← readU32 buf pos
    let pos := pos + 4
    let k0 ← readU64 buf pos
    let k1 ← readU64 buf (pos + 8)
    let k2 ← readU64 buf (pos + 8 + 8)
    let k3 ← readU64 buf (pos + 8 + 8 + 8)
    .ok ⟨bits, .ofNat numBits, .ofNat numHashes, (.ofNat k0, .ofNat k1), (.ofNat k2, .ofNat k3)⟩

def decode (key : String) (id : ℕ) (data : Bytes) : Except SstableError (DecodedTable crate) :=
  if data.length < footerLen ∨ data.drop (data.length - 8) ≠ sstableFormatMagic then
    .error (.formatMarker key)
  else do
    let footerStart := data.length - footerLen
    let indexOffset ← readU64 data (footerStart + 8)
    let bloomOffset ← readU64 data (footerStart + 16)
    let count ← readU32 data indexOffset
    let index ← decodeIndex data count (indexOffset + 4)
    let parts ← decodeBloom data bloomOffset
    .ok ⟨key, id, index, crate.fromExisting parts, data⟩

def beforeSeek (key : Bytes) (snapshotSeq : ℕ) (ie : IndexEntry) : Bool :=
  match compareOfLessAndEq ie.key key with
  | .lt => true
  | .eq => snapshotSeq < ie.seq
  | .gt => false

namespace DecodedTable

variable {crate}

def readAt (t : DecodedTable crate) (key : Bytes) (snapshotSeq : ℕ) :
    Except SstableError (Option (Option Bytes)) :=
  if !crate.check t.bloom key then .ok none
  else
    match t.index[SliceSearch.partitionPoint (beforeSeek key snapshotSeq) t.index]? with
    | none => .ok none
    | some entry =>
      if entry.key ≠ key then .ok none
      else if entry.tag = deleteTag then .ok (some none)
      else do
        let value ← readValueAt t.data entry
        .ok (some (some value))

def maxSeq (t : DecodedTable crate) : ℕ := (t.index.map IndexEntry.seq).foldl max 0

def scanEntry (buf : Bytes) (entry : IndexEntry) : Except SstableError ScannedVersion :=
  if entry.tag = deleteTag then .ok (entry.key, entry.seq, entry.tag, none)
  else do
    let value ← readValueAt buf entry
    .ok (entry.key, entry.seq, entry.tag, some value)

def scanAllVersions (t : DecodedTable crate) : Except SstableError (List ScannedVersion) :=
  t.index.mapM (scanEntry t.data)

end DecodedTable

section Readers

variable {buf rest : Bytes} {pos n : ℕ}

theorem readU32_at (h : At buf pos (encodeBE 4 n ++ rest)) (hn : n < 2 ^ 32) :
    readU32 buf pos = .ok n := by
  have hlen := h.length_eq
  rw [length_append, length_encodeBE] at hlen
  rw [readU32, if_neg (by omega), h.decodeBE_slice (by omega)]

theorem readU64_at (h : At buf pos (encodeBE 8 n ++ rest)) (hn : n < 2 ^ 64) :
    readU64 buf pos = .ok n := by
  have hlen := h.length_eq
  rw [length_append, length_encodeBE] at hlen
  rw [readU64, if_neg (by omega), h.decodeBE_slice (by omega)]

theorem readValueAt_at (h : At buf entry.offset (encodeField key ++ (encodeField value ++ rest)))
    (hkey : key.length < 2 ^ 32) (hvalue : value.length < 2 ^ 32) :
    readValueAt buf entry = .ok value := by
  have hvalueField : At buf (entry.offset + (4 + key.length)) (encodeField value ++ rest) :=
    h.skip_eq (length_encodeField)
  have hkeyLen :
    At buf entry.offset (encodeBE 4 key.length ++ (key ++ (encodeField value ++ rest))) := by
    simpa only [encodeField, append_assoc] using h
  have hvalueLen : At buf (entry.offset + (4 + key.length))
    (encodeBE 4 value.length ++ (value ++ rest)) := by
    simpa only [encodeField, append_assoc] using hvalueField
  have hbytes : At buf (entry.offset + (4 + key.length) + 4) (value ++ rest) :=
    hvalueLen.skip_eq (length_encodeBE 4 _)
  have hroom := hbytes.length_eq
  rw [length_append] at hroom
  simp only [readValueAt, readU32_at hkeyLen hkey, readU32_at hvalueLen hvalue, bind, Except.bind]
  rw [if_neg (by omega), hbytes.slice_eq rfl]

end Readers

structure IndexEntry.Fits (ie : IndexEntry) : Prop where
  key : ie.key.length < 2 ^ 32
  seq : ie.seq < 2 ^ 64
  offset : ie.offset < 2 ^ 64
  valueLen : ie.valueLen < 2 ^ 32

variable {buf rest : Bytes} {pos : ℕ} {ie : IndexEntry}

theorem decodeIndexEntry_at (hfits : ie.Fits) (h : At buf pos (encodeIndexEntry ie ++ rest)) :
    decodeIndexEntry buf pos = .ok (ie, pos + (encodeIndexEntry ie).length) := by
  have hkeyLen : At buf pos (encodeBE 4 ie.key.length ++ (ie.key ++ (encodeBE 8 ie.seq ++
      ([ie.tag] ++ (encodeBE 8 ie.offset ++ (encodeBE 4 ie.valueLen ++ rest)))))) := by
    simpa only [encodeIndexEntry, encodeField, append_assoc] using h
  have hkey := hkeyLen.skip_eq (length_encodeBE 4 _)
  have hseq := hkey.skip
  have htag := hseq.skip_eq (length_encodeBE 8 _)
  have hoffset := htag.skip_eq (n := 1) rfl
  have hvalueLen := hoffset.skip_eq (length_encodeBE 8 _)
  have hroom := hseq.length_eq
  have htagAt : buf.getD (pos + 4 + ie.key.length + 8) 0 = ie.tag := by
    obtain ⟨front, rfl, hfront⟩ := htag
    simp [← hfront]
  simp only [length_append, length_encodeBE] at hroom
  simp only [decodeIndexEntry, readU32_at hkeyLen hfits.key, bind, Except.bind]
  rw [if_neg (by omega)]
  simp only [hkey.slice_eq rfl, readU64_at hseq hfits.seq]
  rw [if_neg (by omega)]
  simp only [htagAt, readU64_at hoffset hfits.offset, readU32_at hvalueLen hfits.valueLen]
  simp [encodeIndexEntry]
  omega

theorem decodeIndex_at (hfits : ∀ ie ∈ index, ie.Fits)
    (h : At buf pos ((index.map encodeIndexEntry).flatten ++ rest)) :
    decodeIndex buf index.length pos = .ok index := by
  induction index generalizing pos with
  | nil => rfl
  | cons ie index ih =>
    rw [map_cons, flatten_cons, append_assoc] at h
    have hhead := decodeIndexEntry_at (hfits ie mem_cons_self) h
    have htail := ih (fun x hx => hfits x (.tail _ hx)) h.skip
    simp only [length_cons, decodeIndex, hhead, bind, Except.bind, htail]

theorem decodeBloom_at (hbitmap : p.bitmap.length < 2 ^ 32)
    (h : At buf pos (encodeBloom p ++ rest)) :
    decodeBloom buf pos = .ok p := by
  obtain ⟨bitmap, numBits, numHashes, ⟨k0, k1⟩, k2, k3⟩ := p
  simp only [encodeBloom, encodeField, append_assoc] at h
  have hbits := h.skip_eq (length_encodeBE 4 _)
  have hnumBits := hbits.skip
  have hnumHashes := hnumBits.skip_eq (length_encodeBE 8 _)
  have hk0 := hnumHashes.skip_eq (length_encodeBE 4 _)
  have hk1 := hk0.skip_eq (length_encodeBE 8 _)
  have hk2 := hk1.skip_eq (length_encodeBE 8 _)
  have hk3 := hk2.skip_eq (length_encodeBE 8 _)
  have hroom := hnumBits.length_eq
  simp only [decodeBloom, readU32_at h hbitmap, bind, Except.bind]
  rw [if_neg (by omega)]
  simp [hbits.slice_eq rfl, readU64_at hnumBits numBits.toNat_lt,
    readU32_at hnumHashes numHashes.toNat_lt, readU64_at hk0 k0.toNat_lt,
      readU64_at hk1 k1.toNat_lt,
    readU64_at hk2 k2.toNat_lt, readU64_at hk3 k3.toNat_lt]

structure Storable (e : Entry) : Prop where
  key : e.1.userKey.length < 2 ^ 32
  seq : e.1.seq < 2 ^ 64
  value : e.2.length < 2 ^ 32

structure Points (buf : Bytes) (e : Entry) (ie : IndexEntry) : Prop where
  key : ie.key = e.1.userKey
  seq : ie.seq = e.1.seq
  tag : ie.tag = e.1.tag
  offset : ie.offset ≤ buf.length
  valueLen : ie.valueLen < 2 ^ 32
  record : e.1.tag ≠ deleteTag → ∃ rest,
    At buf ie.offset (encodeField e.1.userKey ++ (encodeField e.2 ++ rest))

theorem Points.append (h : Points buf e ie) (ext : Bytes) : Points (buf ++ ext) e ie := by
  refine ⟨h.key, h.seq, h.tag, ?_, h.valueLen, fun htag => ?_⟩
  · rw [length_append]
    exact le_trans h.offset (Nat.le_add_right ..)
  · obtain ⟨rest, hrest⟩ := h.record htag
    refine ⟨rest ++ ext, ?_⟩
    simpa only [append_assoc] using hrest.append ext

variable {crate}

theorem Building.push_bloom (b : Building crate) :
    (b.push e).bloom = crate.set b.bloom e.1.userKey := by
  unfold Building.push
  split_ifs <;> rfl

theorem Building.push_points {b : Building crate}
    (h : List.Forall₂ (Points b.dataBuf) done b.index) :
    List.Forall₂ (Points (b.push e).dataBuf) (done ++ [e]) (b.push e).index := by
  unfold Building.push
  by_cases htag : e.1.tag = deleteTag
  · simp only [htag]
    refine rel_append h (.cons ?_ .nil)
    exact ⟨rfl, rfl, htag.symm, le_rfl, Nat.two_pow_pos 32, fun hne => absurd htag hne⟩
  · simp only [htag, if_false]
    refine rel_append (h.imp fun _ _ hp => hp.append _) (.cons ?_ .nil)
    refine ⟨rfl, rfl, rfl, ?_, Nat.mod_lt _ (by decide), fun _ => ⟨[], ?_⟩⟩
    · rw [length_append]
      exact Nat.le_add_right _ _
    · simpa using At.length b.dataBuf (encodeField e.1.userKey ++ encodeField e.2)

theorem foldl_push_points (entries : List Entry)
    (h : List.Forall₂ (Points b.dataBuf) done b.index) :
    List.Forall₂ (Points (entries.foldl Building.push b).dataBuf) (done ++ entries)
      (entries.foldl Building.push b).index := by
  induction entries generalizing b done with
  | nil => simpa using h
  | cons e entries ih => simpa using ih (b.push_points h)

theorem foldl_push_bloom (entries : List Entry) : (entries.foldl Building.push b).bloom =
      (entries.map fun e => e.1.userKey).foldl crate.set b.bloom := by
  induction entries generalizing b with
  | nil => rfl
  | cons e entries ih => rw [foldl_cons, ih, b.push_bloom, map_cons, foldl_cons]

variable (crate)

theorem built_points (entries : List Entry) :
    List.Forall₂ (Points (built crate seed entries).dataBuf) entries
      (built crate seed entries).index := by
  have hstart : List.Forall₂ (Points (Building.start crate seed entries.length).dataBuf) []
      (Building.start crate seed entries.length).index := .nil
  exact foldl_push_points entries hstart

@[simp] theorem length_encodeFooter : (encodeFooter i b).length = footerLen := by
  simp [encodeFooter, footerLen, sstableFormatMagic]

structure Layout (buf data : Bytes) (index : List IndexEntry) (parts : BloomParts) : Prop where
  indexAt : At buf data.length (encodeIndex index ++ (encodeBloom parts ++
    encodeFooter data.length (data ++ encodeIndex index).length))
  bloomAt : At buf (data ++ encodeIndex index).length (encodeBloom parts ++
    encodeFooter data.length (data ++ encodeIndex index).length)
  footerAt : At buf (buf.length - footerLen)
    (encodeFooter data.length (data ++ encodeIndex index).length)
  long : footerLen ≤ buf.length

theorem buildBytes_layout (entries : List Entry) :
    let b := built crate seed entries
    Layout (buildBytes crate seed entries) b.dataBuf b.index (crate.parts b.bloom) := by
  intro b
  have hlen : (buildBytes crate seed entries).length =
      (b.dataBuf ++ encodeIndex b.index ++ encodeBloom (crate.parts b.bloom)).length +
        footerLen := by
    simp only [b, buildBytes, length_append, length_encodeFooter]
  refine ⟨?_, ?_, ?_, ?_⟩
  · simpa only [buildBytes, append_assoc] using At.length b.dataBuf _
  · rw [buildBytes, append_assoc]
    exact At.length _ _
  · rw [hlen, Nat.add_sub_cancel]
    exact At.length _ _
  · omega

theorem decode_layout (h : Layout buf data index parts) (hvec : buf.length < 2 ^ 63)
    (hcount : index.length < 2 ^ 32) (hfits : ∀ ie ∈ index, ie.Fits)
    (hbitmap : parts.bitmap.length < 2 ^ 32) (id : ℕ) :
    decode crate key id buf = .ok ⟨key, id, index, crate.fromExisting parts, buf⟩ := by
  have hbound := h.bloomAt.length_eq
  have hlong := h.long
  have hindexOffset := h.footerAt.skip_eq (length_encodeBE 8 0)
  have hbloomOffset := hindexOffset.skip_eq (length_encodeBE 8 _)
  have hmagic := (hbloomOffset.skip_eq (length_encodeBE 8 _)).drop_eq
  have hindex := h.indexAt
  rw [encodeIndex, append_assoc] at hindex
  have hentries := hindex.skip_eq (length_encodeBE 4 _)
  have hpos : buf.length - footerLen + 8 + 8 + 8 = buf.length - 8 := by
    simp only [footerLen] at hlong ⊢
    omega
  rw [hpos] at hmagic
  have hdata : data.length ≤ (data ++ encodeIndex index).length := by
    rw [length_append]
    exact Nat.le_add_right _ _
  have hreadIndex := readU64_at hindexOffset (by omega)
  have hreadBloom : readU64 buf (buf.length - footerLen + 16) = _ :=
    readU64_at hbloomOffset (by omega)
  rw [decode, if_neg (by simp [hmagic, not_lt.mpr hlong])]
  simp only [hreadIndex, hreadBloom, readU32_at hindex hcount, decodeIndex_at hfits hentries,
    decodeBloom_at hbitmap h.bloomAt, bind, Except.bind]

def decoded (key : String) (id : ℕ) (entries : List Entry) : DecodedTable crate where
  key := key
  id := id
  index := (built crate seed entries).index
  bloom := crate.fromExisting (crate.parts (built crate seed entries).bloom)
  data := buildBytes crate seed entries

theorem decoded_points (key : String) (id : ℕ) (entries : List Entry) :
    List.Forall₂ (Points (decoded crate seed key id entries).data) entries
      (decoded crate seed key id entries).index := by
  refine (built_points crate seed entries).imp fun e ie hp => ?_
  simp only [decoded, buildBytes, append_assoc]
  exact hp.append _

section Decoded

variable {entries : List Entry} (hstorable : ∀ e ∈ entries, Storable e)
include hstorable

theorem built_index_fits (hvec : (buildBytes crate seed entries).length < 2 ^ 63) :
    ∀ ie ∈ (built crate seed entries).index, ie.Fits := by
  intro ie hie
  have hdata := (buildBytes_layout crate seed entries).indexAt.length_eq
  obtain ⟨i, hi, rfl⟩ := getElem_of_mem hie
  have hpoints := built_points crate seed entries
  have hi' : i < entries.length := hpoints.length_eq ▸ hi
  have hp := hpoints.get hi' hi
  have hs := hstorable _ (getElem_mem hi')
  simp only [get_eq_getElem] at hp
  have hoffset := hp.offset
  refine ⟨?_, ?_, by omega, hp.valueLen⟩
  · rw [hp.key]
    exact hs.key
  · rw [hp.seq]
    exact hs.seq

theorem decode_buildBytes_eq (hcount : entries.length < 2 ^ 32)
    (hbitmap : (crate.parts (built crate seed entries).bloom).bitmap.length < 2 ^ 32)
    (hvec : (buildBytes crate seed entries).length < 2 ^ 63) (id : ℕ) :
    decode crate key id (buildBytes crate seed entries) = .ok (decoded crate seed key id entries) :=
  decode_layout crate (buildBytes_layout crate seed entries) hvec
    ((built_points crate seed entries).length_eq ▸ hcount)
    (built_index_fits crate seed hstorable hvec) hbitmap id

end Decoded

section Lookup

variable {buf : Bytes} {entries : List Entry} {index : List IndexEntry}

theorem points_getElem? (h : List.Forall₂ (Points buf) entries index) (i : ℕ) :
    (entries[i]? = none ∧ index[i]? = none) ∨
      ∃ e ie, entries[i]? = some e ∧ index[i]? = some ie ∧ Points buf e ie := by
  by_cases hi : i < entries.length
  · have hi' : i < index.length := h.length_eq ▸ hi
    exact .inr ⟨_, _, getElem?_eq_getElem hi, getElem?_eq_getElem hi', h.get hi hi'⟩
  · have hi' : ¬ i < index.length := h.length_eq ▸ hi
    exact .inl ⟨getElem?_eq_none (not_lt.mp hi), getElem?_eq_none (not_lt.mp hi')⟩

theorem points_keys (h : List.Forall₂ (Points buf) entries index) :
    index.map (fun ie => (ie.key, ie.seq)) = entries.map fun e => (e.1.userKey, e.1.seq) := by
  induction h with
  | nil => rfl
  | cons hp _ ih => rw [map_cons, map_cons, ih, hp.key, hp.seq]

def passed (k : Bytes) (s : ℕ) (v : Bytes × ℕ) : Bool := v.1 < k ∨ v.1 = k ∧ s < v.2

theorem beforeSeek_eq : beforeSeek k s ie = passed k s (ie.key, ie.seq) := by
  unfold beforeSeek passed compareOfLessAndEq
  by_cases hlt : ie.key < k
  · simp [hlt]
  · by_cases heq : ie.key = k
    · simp [heq]
    · simp [hlt, heq]

/-- The predicate only turns false once along the order of internal keys, for any snapshot. -/
theorem passed_of_le {a b : InternalKey} (h : a ≤ b) {s : ℕ}
    (hb : passed k s (b.userKey, b.seq) = true) : passed k s (a.userKey, a.seq) = true := by
  simp only [passed, decide_eq_true_eq] at hb ⊢
  rcases lt_or_eq_of_le (InternalKey.userKey_le h) with hk | hk
  · rcases hb with hb | ⟨hb, _⟩
    · exact .inl (lt_trans hk hb)
    · exact .inl (hb ▸ hk)
  · have hseq := InternalKey.seq_ge h hk
    rcases hb with hb | ⟨hb, hs⟩
    · exact .inl (hk ▸ hb)
    · exact .inr ⟨hk.trans hb, lt_of_lt_of_le hs hseq⟩

theorem partitionPoint_index (run : SortedRun)
    (h : List.Forall₂ (Points buf) run.entries index) (s : ℕ) :
    SliceSearch.partitionPoint (beforeSeek k s) index =
      partitionPoint (fun e : Entry => e.1.userKey < k ∨ e.1.userKey = k ∧ s < e.1.seq)
        run.entries := by
  have hkeys := points_keys h
  have hfun : beforeSeek k s = passed k s ∘ fun ie : IndexEntry => (ie.key, ie.seq) :=
    funext fun ie => beforeSeek_eq
  have hsorted : index.Pairwise fun a b => beforeSeek k s b = true → beforeSeek k s a = true := by
    have hmap : (index.map fun ie => (ie.key, ie.seq)).Pairwise
        fun a b => passed k s b = true → passed k s a = true := by
      rw [hkeys]
      exact pairwise_map.mpr (run.sorted.imp fun hab => passed_of_le hab)
    rw [hfun]
    exact pairwise_map.mp hmap
  have hlen : (index.takeWhile (beforeSeek k s)).length =
      ((index.map fun ie => (ie.key, ie.seq)).takeWhile (passed k s)).length := by
    rw [takeWhile_map, length_map, hfun]
  rw [SliceSearch.partitionPoint_eq hsorted, hlen, hkeys, takeWhile_map, length_map]
  rfl

variable {e : Entry}

theorem readValueAt_points (hp : Points buf e ie) (hs : Storable e)
    (htag : e.1.tag ≠ deleteTag) : readValueAt buf ie = .ok e.2 := by
  obtain ⟨rest, hrest⟩ := hp.record htag
  exact readValueAt_at hrest hs.key hs.value

theorem entryValue_of_delete (h : e.1.tag = deleteTag) : entryValue e = none := by
  simp [entryValue, InternalKey.isDelete, h]

theorem entryValue_of_ne (h : e.1.tag ≠ deleteTag) : entryValue e = some e.2 := by
  simp [entryValue, InternalKey.isDelete, h]

theorem scanEntry_points (hp : Points buf e ie) (hs : Storable e) :
    DecodedTable.scanEntry buf ie = .ok (e.1.userKey, e.1.seq, e.1.tag, entryValue e) := by
  by_cases htag : e.1.tag = deleteTag
  · rw [DecodedTable.scanEntry, if_pos (hp.tag.trans htag), hp.key, hp.seq, hp.tag,
      entryValue_of_delete htag]
  · rw [DecodedTable.scanEntry, if_neg (hp.tag ▸ htag), readValueAt_points hp hs htag, hp.key,
      hp.seq, hp.tag, entryValue_of_ne htag]
    rfl

theorem mapM_scanEntry (h : List.Forall₂ (Points buf) entries index)
    (hs : ∀ e ∈ entries, Storable e) :
    index.mapM (DecodedTable.scanEntry buf) =
      .ok (entries.map fun e => (e.1.userKey, e.1.seq, e.1.tag, entryValue e)) := by
  induction h with
  | nil => rfl
  | cons hp _ ih =>
    have hrest := ih fun e he => hs e (.tail _ he)
    rw [mapM_cons, scanEntry_points hp (hs _ mem_cons_self), hrest]
    rfl

end Lookup

/-- The filter of the engine's tables: the crate's, after one trip through the blob. -/
def BloomCrate.filter : BloomFilter where
  check keys k := crate.check (crate.fromExisting (crate.parts
    (keys.foldl crate.set (crate.newForFpRate seed (max keys.length 1))))) k
  no_false_negative keys := crate.check_fromExisting seed _ keys

variable (run : SortedRun) (key : String) (id : ℕ)

section Storable

variable (hstorable : ∀ e ∈ run.entries, Storable e)
include hstorable

theorem decoded_readAt (k : Bytes) (s : ℕ) : (decoded crate seed key id run.entries).readAt k s =
      .ok ((SSTable.create (crate.filter seed) id run).readAt k s) := by
  have hpoints := decoded_points crate seed key id run.entries
  set t := SSTable.create (crate.filter seed) id run
  have hbloom : crate.check (decoded crate seed key id run.entries).bloom k = t.bloom k := by
    simp [t, decoded, built, Building.start, foldl_push_bloom, SSTable.create, BloomCrate.filter]
  have hrun : t.run = run := rfl
  unfold DecodedTable.readAt SSTable.readAt
  rw [hbloom, partitionPoint_index run hpoints, hrun]
  by_cases hb : t.bloom k = true
  · simp only [hb, Bool.not_true, Bool.false_eq_true, if_false]
    rcases points_getElem? hpoints (partitionPoint (fun e : Entry =>
      e.1.userKey < k ∨ e.1.userKey = k ∧ s < e.1.seq) run.entries)
      with ⟨he, hie⟩ | ⟨e, ie, he, hie, hp⟩
    · rw [he, hie]
    · rw [he, hie]
      by_cases hk : e.1.userKey = k
      · by_cases htag : e.1.tag = deleteTag
        · simp [hp.key, hk, hp.tag, htag, entryValue_of_delete htag]
        · have hmem := mem_of_getElem? he
          simp [hp.key, hk, hp.tag, htag, entryValue_of_ne htag,
            readValueAt_points hp (hstorable e hmem) htag, bind, Except.bind]
      · simp [hp.key, hk]
  · simp [hb]

end Storable

/-- The least version in internal-key order among the visible ones answers a read. -/
theorem firstVisible_of_least {entries : List Entry}
    (hsorted : entries.Pairwise fun a b => a.1 < b.1) {s : ℕ}
    (he : e ∈ entries) (hk : e.1.userKey = k) (hs : e.1.seq ≤ s)
    (hleast : ∀ e' ∈ entries, e'.1.userKey = k → e'.1.seq ≤ s → e.1 ≤ e'.1) :
    firstVisible (entries.map rowOf) k s = some (entryValue e) := by
  obtain ⟨front, back, rfl⟩ := append_of_mem he
  have hbefore := (pairwise_append.mp hsorted).2.2
  have hfront : (front.map rowOf).find? (fun v => v.key = k ∧ v.seq ≤ s) = none := by
    rw [find?_eq_none]
    intro v hv
    obtain ⟨x, hx, rfl⟩ := mem_map.mp hv
    rw [decide_eq_true_eq]
    rintro ⟨hxk, hxs⟩
    have hle := hleast x (mem_append_left _ hx) hxk hxs
    exact absurd (hbefore x hx e mem_cons_self) (not_lt.mpr hle)
  have hhead : (rowOf e).key = k ∧ (rowOf e).seq ≤ s := ⟨hk, hs⟩
  rw [firstVisible, map_append, find?_append, hfront, map_cons,
    find?_cons_of_pos (by simpa using hhead)]
  rfl

/-- A blob built from strictly sorted entries decodes, scans as its entries in order, and
answers every lookup with the newest visible version: nothing, a tombstone or a value. -/
theorem sstable_round_trip {entries : List Entry} (hsorted : entries.Pairwise fun a b => a.1 < b.1)
    (hstorable : ∀ e ∈ entries, Storable e) (hcount : entries.length < 2 ^ 32)
    (hbitmap : (crate.parts (built crate seed entries).bloom).bitmap.length < 2 ^ 32)
    (hvec : (buildBytes crate seed entries).length < 2 ^ 63) :
    ∃ t, decode crate key id (buildBytes crate seed entries) = .ok t ∧
      t.scanAllVersions = .ok (entries.map fun e =>
        (e.1.userKey, e.1.seq, e.1.tag, if e.1.tag = deleteTag then none else some e.2)) ∧
      ∀ k s,
        ((∀ e ∈ entries, e.1.userKey = k → s < e.1.seq) → t.readAt k s = .ok none) ∧
        ∀ e ∈ entries, e.1.userKey = k → e.1.seq ≤ s →
          (∀ e' ∈ entries, e'.1.userKey = k → e'.1.seq ≤ s → e.1 ≤ e'.1) →
          t.readAt k s = .ok (some (if e.1.tag = deleteTag then none else some e.2)) := by
  let run : SortedRun := ⟨entries, hsorted.imp le_of_lt⟩
  have hread := decoded_readAt crate seed run key id hstorable
  have hvalue : ∀ e : Entry, entryValue e = if e.1.tag = deleteTag then none else some e.2 := by
    intro e
    by_cases htag : e.1.tag = deleteTag
    · rw [entryValue_of_delete htag, if_pos htag]
    · rw [entryValue_of_ne htag, if_neg htag]
  refine ⟨_, decode_buildBytes_eq crate seed hstorable hcount hbitmap hvec id, ?_, ?_⟩
  · simp only [← hvalue]
    exact mapM_scanEntry (decoded_points crate seed key id run.entries) hstorable
  · intro k s
    refine ⟨fun hnone => ?_, fun e he hk hs hleast => ?_⟩
    · rw [hread, SSTable.readAt_eq, firstVisible_eq_none.mpr]
      intro w hw hwk
      obtain ⟨x, hx, rfl⟩ := SortedRun.mem_rows.mp hw
      exact hnone x hx hwk
    · rw [hread, SSTable.readAt_eq, ← hvalue]
      exact congrArg Except.ok (firstVisible_of_least hsorted he hk hs hleast)

def passAll : BloomCrate where
  Filter := Unit
  Seed := Unit
  newForFpRate _ _ := ()
  set _ _ := ()
  check _ _ := true
  parts _ := ⟨[0], 8, 1, (0, 0), (0, 0)⟩
  fromExisting _ := ()
  check_fromExisting _ _ _ _ _ := rfl

def deletedAndEmpty : List Entry :=
  [(⟨[97], 7, deleteTag⟩, []), (⟨[97], 5, putTag⟩, [1, 2]), (⟨[98], 6, putTag⟩, [])]

theorem sstable_round_trip_deleted_and_empty :
    ∃ t, decode passAll "sst/1" 1 (buildBytes passAll () deletedAndEmpty) = .ok t ∧
      t.scanAllVersions = .ok [([97], 7, deleteTag, none), ([97], 5, putTag, some [1, 2]),
        ([98], 6, putTag, some [])] ∧
      t.readAt [97] 4 = .ok none ∧ t.readAt [97] 6 = .ok (some (some [1, 2])) ∧
      t.readAt [97] 7 = .ok (some none) ∧ t.readAt [98] 9 = .ok (some (some [])) := by
  have hsorted : deletedAndEmpty.Pairwise fun a b => a.1 < b.1 := by decide
  have hstorable : ∀ e ∈ deletedAndEmpty, Storable e := by
    intro e he
    simp only [deletedAndEmpty, mem_cons, not_mem_nil, or_false] at he
    rcases he with rfl | rfl | rfl <;> exact ⟨by decide, by decide, by decide⟩
  obtain ⟨t, hdecode, hscan, hread⟩ := sstable_round_trip passAll () "sst/1" 1 hsorted hstorable
    (by decide) (by decide) (by decide +kernel)
  refine ⟨t, hdecode, hscan, ?_, ?_, ?_, ?_⟩
  · exact (hread [97] 4).1 (by decide)
  · exact (hread [97] 6).2 (⟨[97], 5, putTag⟩, [1, 2]) (by decide) rfl (by decide) (by decide)
  · exact (hread [97] 7).2 (⟨[97], 7, deleteTag⟩, []) (by decide) rfl (by decide) (by decide)
  · exact (hread [98] 9).2 (⟨[98], 6, putTag⟩, []) (by decide) rfl (by decide) (by decide)

end StorageSstableFormat
