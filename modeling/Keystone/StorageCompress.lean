import Keystone.BitStreams
import Keystone.DatabaseSequences
import Keystone.StorageJsonb
import Mathlib.Data.Nat.Size

/-! # Compressed series

Floats are written as the difference of their bits to the value before: one bit if there is none, or
the bits between the zeros at both ends. Timestamps are written as differences of differences. The
number of floats has a field of 32 bits. -/
namespace StorageCompress

open BitStreams ByteCodecs StorageInternalKey
open DatabaseSequences (InI64 Profile)
open StorageJsonb (Fault readVarint writeVarint readVarint_write)

/-! ## Floats -/

def leadingZeros (x : ℕ) : ℕ := 64 - x.size

def trailingZerosFrom : ℕ → ℕ → ℕ
  | 0, _ => 0
  | fuel + 1, x => if x % 2 = 1 then 0 else trailingZerosFrom fuel (x / 2) + 1

def trailingZeros (x : ℕ) : ℕ := trailingZerosFrom 64 x

/-- How many zeros at the ends are left out; 65 in front stands for no window yet. -/
structure Window where
  leading : ℕ
  trailing : ℕ
  deriving DecidableEq, Repr

def encodeNext (w : Writer) (window : Window) (prev bits : ℕ) : Writer × Window :=
  let xor := bits ^^^ prev
  if xor = 0 then (w.writeBit false, window)
  else
    let leading := leadingZeros xor
    let trailing := trailingZeros xor
    if window.leading ≠ 65 ∧ window.leading ≤ leading ∧ window.trailing ≤ trailing then
      (((w.writeBit true).writeBit false).writeBits (xor / 2 ^ window.trailing)
        (64 - window.leading - window.trailing), window)
    else
      let meaningful := 64 - leading - trailing
      (((((w.writeBit true).writeBit true).writeBits leading 6).writeBits meaningful 6).writeBits
        (xor / 2 ^ trailing) meaningful, ⟨leading, trailing⟩)

def encodeRest : Writer → Window → ℕ → List ℕ → Writer
  | w, _, _, [] => w
  | w, window, prev, bits :: rest =>
    let (w, window) := encodeNext w window prev bits
    encodeRest w window bits rest

/-- Floats as their bits. The number of values is cut to 32 bits. -/
def gorillaEncode (values : List ℕ) : Bytes :=
  match values with
  | [] => []
  | first :: rest =>
    let (bytes, validLastBits) :=
      (encodeRest (Writer.new.writeBits first 64) ⟨65, 0⟩ first rest).finish
    encodeBE 4 values.length ++ UInt8.ofNat validLastBits :: bytes

inductive Decoded where
  | panic
  | stop
  | next (bits : ℕ) (r : Reader) (window : Window)

/-- Zero if there are not enough bits, and then none are left. -/
def readBitsOr (r : Reader) (count : ℕ) : ℕ × Reader := (r.readBits count).getD (0, .new [])

/-- Six bits each; a width of 64 is written as zero. -/
def readWindow (r : Reader) : Option (Window × Reader) :=
  let (leading, r) := readBitsOr r 6
  let (raw, r) := readBitsOr r 6
  let meaningful := if raw = 0 then 64 else raw
  if leading + meaningful ≤ 64 then some (⟨leading, 64 - leading - meaningful⟩, r) else none

/-- The window is taken off 64 without a check. -/
def decodeXor (prev : ℕ) (r : Reader) (window : Window) : Decoded :=
  if window.leading + window.trailing ≤ 64 then
    let (bits, r) := readBitsOr r (64 - window.leading - window.trailing)
    .next (prev ^^^ bits * 2 ^ window.trailing % 2 ^ 64) r window
  else .panic

def decodeNext (r : Reader) (window : Window) (prev : ℕ) : Decoded :=
  match r.readBit with
  | none => .stop
  | some (false, r) => .next prev r window
  | some (true, r) =>
    match r.readBit with
    | none => .stop
    | some (false, r) => decodeXor prev r window
    | some (true, r) =>
      match readWindow r with
      | none => .panic
      | some (window, r) => decodeXor prev r window

def decodeRest : ℕ → Reader → Window → ℕ → Option (List ℕ)
  | 0, _, _, _ => some []
  | count + 1, r, window, prev =>
    match decodeNext r window prev with
    | .panic => none
    | .stop => some []
    | .next bits r window => (decodeRest count r window bits).map (bits :: ·)

/-- None where a width overflows: a panic in the dev profile, a wrapped width in the release
profile. -/
def gorillaDecode (data : Bytes) : Option (List ℕ) :=
  if data.length < 5 then some []
  else
    let count := decodeBE (data.take 4)
    if count = 0 then some []
    else
      let (first, r) := readBitsOr (.new (data.drop 5)) 64
      (decodeRest (count - 1) r ⟨65, 0⟩ first).map (first :: ·)

/-! ## What the ends of a word are -/

theorem two_pow_trailingZerosFrom_dvd (fuel x : ℕ) : 2 ^ trailingZerosFrom fuel x ∣ x := by
  induction fuel generalizing x with
  | zero => simp [trailingZerosFrom]
  | succ fuel ih =>
    unfold trailingZerosFrom
    split
    · simp
    · have heven : x = 2 * (x / 2) := by omega
      rw [pow_succ']
      conv_rhs => rw [heven]
      exact Nat.mul_dvd_mul_left 2 (ih (x / 2))

theorem lt_two_pow_leadingZeros {x : ℕ} (h : x < 2 ^ 64) : x < 2 ^ (64 - leadingZeros x) := by
  have hsize : x.size ≤ 64 := Nat.size_le.2 h
  rw [leadingZeros, show 64 - (64 - x.size) = x.size by omega]
  exact Nat.lt_size_self x

/-- A word that is not zero has a bit between its ends. -/
theorem ends_lt {x : ℕ} (h : x < 2 ^ 64) (hne : x ≠ 0) : leadingZeros x + trailingZeros x < 64 := by
  have hle : 2 ^ trailingZeros x ≤ x := Nat.le_of_dvd (Nat.pos_of_ne_zero hne)
    (two_pow_trailingZerosFrom_dvd 64 x)
  have hlt := hle.trans_lt (lt_two_pow_leadingZeros h)
  have := (Nat.pow_lt_pow_iff_right (by decide : 1 < 2)).1 hlt
  omega

theorem shift_back {x t : ℕ} (h : 2 ^ t ∣ x) : x / 2 ^ t * 2 ^ t = x := Nat.div_mul_cancel h

theorem shifted_lt {x width t : ℕ} (h : x < 2 ^ (width + t)) : x / 2 ^ t < 2 ^ width :=
  Nat.div_lt_of_lt_mul (by rwa [← pow_add, add_comm])

/-! ## Floats are read as they were written -/

/-- Two widths that leave at least one bit, or no window yet. -/
def Window.Fits (window : Window) : Prop := window.leading = 65 ∨
    window.leading + window.trailing < 64

/-- What is written for one value, and the window after it. -/
def nextBits (window : Window) (prev bits : ℕ) : List Bool × Window :=
  let xor := bits ^^^ prev
  if xor = 0 then ([false], window)
  else
    let leading := leadingZeros xor
    let trailing := trailingZeros xor
    if window.leading ≠ 65 ∧ window.leading ≤ leading ∧ window.trailing ≤ trailing then
      ([true, false] ++ natBits (64 - window.leading - window.trailing) (xor / 2 ^ window.trailing),
        window)
    else
      let meaningful := 64 - leading - trailing
      ([true, true] ++ natBits 6 leading ++ natBits 6 meaningful ++ natBits meaningful
        (xor / 2 ^ trailing),
        ⟨leading, trailing⟩)

theorem encodeNext_bits (w : Writer) (window : Window) (prev bits : ℕ) :
    (encodeNext w window prev bits).1.bits = w.bits ++ (nextBits window prev bits).1 ∧
      (encodeNext w window prev bits).2 = (nextBits window prev bits).2 := by
  unfold encodeNext nextBits
  dsimp only
  split
  · simp
  · split
    · simp
    · simp

def restBits : Window → ℕ → List ℕ → List Bool
  | _, _, [] => []
  | window, prev, bits :: rest =>
    (nextBits window prev bits).1 ++ restBits (nextBits window prev bits).2 bits rest

theorem encodeRest_bits (w : Writer) (window : Window) (prev : ℕ) (values : List ℕ) :
    (encodeRest w window prev values).bits = w.bits ++ restBits window prev values := by
  induction values generalizing w window prev with
  | nil => simp [encodeRest, restBits]
  | cons bits rest ih =>
    obtain ⟨hbits, hwindow⟩ := encodeNext_bits w window prev bits
    rw [encodeRest, ih, hbits, hwindow, restBits, List.append_assoc]

theorem readBitsOr_of_natBits {r : Reader} {count n : ℕ} {rest : List Bool} (hn : n < 2 ^ count)
    (h : r.bits = natBits count n ++ rest) : ∃ r', readBitsOr r count = (n, r') ∧
      r'.bits = rest := by
  obtain ⟨r', hread, hrest⟩ := Reader.readBits_of_natBits hn h
  exact ⟨r', by rw [readBitsOr, hread]; rfl, hrest⟩

/-- A window is read as it was written: 64 bits wide comes back from zero. -/
theorem readWindow_of_natBits {r : Reader} {leading trailing : ℕ} {rest : List Bool}
    (h : leading + trailing < 64)
    (hbits : r.bits = natBits 6 leading ++ (natBits 6 (64 - leading - trailing) ++ rest)) :
    ∃ r', readWindow r = some (⟨leading, trailing⟩, r') ∧ r'.bits = rest := by
  obtain ⟨r₁, hread₁, hrest₁⟩ := readBitsOr_of_natBits (by omega) hbits
  rw [← natBits_mod] at hrest₁
  obtain ⟨r₂, hread₂, hrest₂⟩ := readBitsOr_of_natBits (Nat.mod_lt _ (by decide)) hrest₁
  have hwidth : (if (64 - leading - trailing) % 2 ^ 6 = 0 then 64
    else (64 - leading - trailing) % 2 ^ 6) =
      64 - leading - trailing := by
    split
    · omega
    · omega
  refine ⟨r₂, ?_, hrest₂⟩
  unfold readWindow
  simp only [hread₁, hread₂, hwidth]
  rw [if_pos (by omega), show 64 - leading - (64 - leading - trailing) = trailing by omega]

theorem decodeXor_of_natBits {r : Reader} {xor : ℕ} {rest : List Bool} (prev : ℕ) (window : Window)
    (hfits : window.leading + window.trailing < 64) (hxor : xor < 2 ^ (64 - window.leading))
    (hdvd : 2 ^ window.trailing ∣ xor)
    (hbits : r.bits =
      natBits (64 - window.leading - window.trailing) (xor / 2 ^ window.trailing) ++ rest) :
    ∃ r', decodeXor prev r window = .next (prev ^^^ xor) r' window ∧ r'.bits = rest := by
  have hlt : xor / 2 ^ window.trailing < 2 ^ (64 - window.leading - window.trailing) := by
    apply shifted_lt
    rwa [show 64 - window.leading - window.trailing + window.trailing =
      64 - window.leading by omega]
  have hword : xor < 2 ^ 64 := hxor.trans_le (Nat.pow_le_pow_right (by decide) (by omega))
  obtain ⟨r', hread, hrest⟩ := readBitsOr_of_natBits hlt hbits
  refine ⟨r', ?_, hrest⟩
  unfold decodeXor
  rw [if_pos hfits.le, hread]
  dsimp only
  rw [shift_back hdvd, Nat.mod_eq_of_lt hword]

/-- One value back, and the window that the encoder has after it. -/
theorem decodeNext_nextBits {r : Reader} {window : Window} {prev bits : ℕ} {rest : List Bool}
    (hfits : window.Fits) (hprev : prev < 2 ^ 64) (hvalue : bits < 2 ^ 64)
    (hbits : r.bits = (nextBits window prev bits).1 ++ rest) :
    (nextBits window prev bits).2.Fits ∧
      ∃ r', decodeNext r window prev = .next bits r' (nextBits window prev bits).2 ∧
        r'.bits = rest := by
  have hback : prev ^^^ (bits ^^^ prev) = bits := by
    rw [Nat.xor_comm bits prev, ← Nat.xor_assoc, Nat.xor_self, Nat.zero_xor]
  have hword : bits ^^^ prev < 2 ^ 64 := Nat.xor_lt_two_pow hvalue hprev
  have hends := lt_two_pow_leadingZeros hword
  have hdvd : 2 ^ trailingZeros (bits ^^^ prev) ∣ bits ^^^ prev :=
    two_pow_trailingZerosFrom_dvd 64 _
  unfold nextBits at hbits ⊢
  dsimp only at hbits ⊢
  unfold decodeNext
  split at hbits
  case isTrue hsame =>
    obtain ⟨r₁, hread, hrest⟩ := Reader.readBit_of_bits hbits
    have heq : prev = bits := by rw [← hback, hsame, Nat.xor_zero]
    rw [if_pos hsame]
    refine ⟨hfits, r₁, ?_, hrest⟩
    rw [hread, heq]
  case isFalse hne =>
    rw [if_neg hne]
    split at hbits
    case isTrue hreuse =>
      obtain ⟨hwindow, hleading, htrailing⟩ := hreuse
      have hroom : window.leading + window.trailing < 64 := hfits.resolve_left hwindow
      obtain ⟨r₁, hread₁, hrest₁⟩ := Reader.readBit_of_bits hbits
      obtain ⟨r₂, hread₂, hrest₂⟩ := Reader.readBit_of_bits hrest₁
      obtain ⟨r₃, hread₃, hrest₃⟩ := decodeXor_of_natBits prev window hroom
        (hends.trans_le (Nat.pow_le_pow_right (by decide) (by omega)))
        ((pow_dvd_pow 2 htrailing).trans hdvd) hrest₂
      rw [if_pos ⟨hwindow, hleading, htrailing⟩]
      refine ⟨hfits, r₃, ?_, hrest₃⟩
      rw [hread₁]
      dsimp only
      rw [hread₂]
      dsimp only
      rw [hread₃, hback]
    case isFalse hfresh =>
      have hroom := ends_lt hword hne
      obtain ⟨r₁, hread₁, hrest₁⟩ := Reader.readBit_of_bits hbits
      obtain ⟨r₂, hread₂, hrest₂⟩ := Reader.readBit_of_bits hrest₁
      simp only [List.append_eq, List.nil_append, List.append_assoc] at hrest₂
      obtain ⟨r₃, hread₃, hrest₃⟩ := readWindow_of_natBits hroom hrest₂
      obtain ⟨r₄, hread₄, hrest₄⟩ := decodeXor_of_natBits prev
        ⟨leadingZeros (bits ^^^ prev), trailingZeros (bits ^^^ prev)⟩ hroom hends hdvd hrest₃
      rw [if_neg hfresh]
      refine ⟨.inr hroom, r₄, ?_, hrest₄⟩
      rw [hread₁]
      dsimp only
      rw [hread₂]
      dsimp only
      rw [hread₃]
      dsimp only
      rw [hread₄, hback]

theorem decodeRest_restBits {r : Reader} {window : Window} {prev : ℕ} {values : List ℕ}
    {padding : List Bool}
    (hfits : window.Fits) (hprev : prev < 2 ^ 64) (hvalues : ∀ bits ∈ values, bits < 2 ^ 64)
    (hbits : r.bits = restBits window prev values ++ padding) :
    decodeRest values.length r window prev = some values := by
  induction values generalizing r window prev with
  | nil => rfl
  | cons bits rest ih =>
    have hvalue := hvalues bits List.mem_cons_self
    rw [restBits, List.append_assoc] at hbits
    obtain ⟨hfits', r', hnext, hrest⟩ := decodeNext_nextBits hfits hprev hvalue hbits
    rw [List.length_cons, decodeRest, hnext]
    dsimp only
    rw [ih hfits' hvalue (fun b hb => hvalues b (List.mem_cons_of_mem _ hb)) hrest]
    rfl

theorem length_decodeRest {window : Window} {values : List ℕ} {r : Reader}
    (h : decodeRest count r window prev = some values) : values.length ≤ count := by
  induction count generalizing r window prev values with
  | zero =>
    cases h
    rfl
  | succ count ih =>
    rw [decodeRest] at h
    split at h
    · cases h
    · cases h
      simp
    · obtain ⟨rest, hrest, rfl⟩ := Option.map_eq_some_iff.mp h
      exact Nat.succ_le_succ (ih hrest)

/-- No more values than the number in front says. -/
theorem length_gorillaDecode (h : gorillaDecode data = some values) :
    values.length ≤ decodeBE (data.take 4) := by
  unfold gorillaDecode at h
  split at h
  · cases h
    simp
  · dsimp only at h
    split at h
    · cases h
      simp
    · obtain ⟨rest, hrest, rfl⟩ := Option.map_eq_some_iff.mp h
      have hle := length_decodeRest hrest
      rw [List.length_cons]
      omega

/-- A series of fewer than 2^32 floats is read as it was written. -/
theorem gorillaDecode_encode {values : List ℕ} (hwords : ∀ bits ∈ values, bits < 2 ^ 64)
    (hcount : values.length < 2 ^ 32) : gorillaDecode (gorillaEncode values) = some values := by
  cases values with
  | nil => rfl
  | cons first rest =>
    obtain ⟨k, hbits⟩ := (encodeRest (Writer.new.writeBits first 64) ⟨65, 0⟩ first rest).bits_finish
    rw [encodeRest_bits, Writer.bits_writeBits, Writer.bits_new, List.nil_append,
      List.append_assoc] at hbits
    have hfirst := hwords first List.mem_cons_self
    obtain ⟨r, hread, hrest⟩ := readBitsOr_of_natBits
      (r := .new (encodeRest (Writer.new.writeBits first 64) ⟨65, 0⟩ first rest).finish.1)
        hfirst hbits
    have hdecode := decodeRest_restBits (.inl rfl) hfirst
      (fun b hb => hwords b (List.mem_cons_of_mem _ hb)) hrest
    have hlength : decodeBE (encodeBE 4 (first :: rest).length) = (first :: rest).length :=
      decodeBE_encodeBE (by simpa using hcount)
    unfold gorillaDecode gorillaEncode
    dsimp only
    rw [if_neg (by simp [length_encodeBE]; omega), List.take_left' (length_encodeBE 4 _), hlength,
      if_neg (by simp)]
    have hdrop : (encodeBE 4 (first :: rest).length ++ UInt8.ofNat
        (encodeRest (Writer.new.writeBits first 64) ⟨65, 0⟩ first rest).finish.2 ::
        (encodeRest (Writer.new.writeBits first 64) ⟨65, 0⟩ first rest).finish.1).drop 5 =
        (encodeRest (Writer.new.writeBits first 64) ⟨65, 0⟩ first rest).finish.1 := by
      rw [List.drop_append, length_encodeBE]
      simp [length_encodeBE]
    rw [hdrop, hread]
    dsimp only
    rw [List.length_cons, Nat.add_sub_cancel, hdecode]
    rfl

theorem gorilla_lossless_iff {values : List ℕ} (hwords : ∀ bits ∈ values, bits < 2 ^ 64) :
    gorillaDecode (gorillaEncode values) = some values ↔ values.length < 2 ^ 32 := by
  refine ⟨fun h => ?_, gorillaDecode_encode hwords⟩
  cases values with
  | nil => decide
  | cons first rest =>
    have hle := length_gorillaDecode h
    unfold gorillaEncode at hle
    dsimp only at hle
    rw [List.take_left' (length_encodeBE 4 _)] at hle
    exact hle.trans_lt ((decodeBE_lt _).trans_eq (by rw [length_encodeBE]; norm_num))

/-! ## Timestamps -/

/-- `((v << 1) ^ (v >> 63)) as u64`: twice the number, or one less than twice its opposite. -/
def zigzagEncode (v : ℤ) : ℕ := if 0 ≤ v then (2 * v).toNat else (-2 * v - 1).toNat

def zigzagDecode (v : ℕ) : ℤ := if v % 2 = 0 then (v / 2 : ℕ) else -(v / 2 : ℕ) - 1

/-- The loop from the third value on. -/
def encodeDeltas (profile : Profile) : ℤ → ℤ → List ℤ → Option Bytes
  | _, _, [] => some []
  | prev, prevDelta, v :: rest => do
    let delta ← profile.i64 (v - prev)
    let dd ← profile.i64 (delta - prevDelta)
    let more ← encodeDeltas profile v delta rest
    return writeVarint (zigzagEncode dd) ++ more

/-- None if the process panics. -/
def deltaDeltaEncode (profile : Profile) : List ℤ → Option Bytes
  | [] => some (writeVarint 0)
  | [first] => some (writeVarint 1 ++ writeVarint (zigzagEncode first))
  | first :: second :: rest => do
    let delta ← profile.i64 (second - first)
    let more ← encodeDeltas profile second delta rest
    return writeVarint (rest.length + 2) ++
      (writeVarint (zigzagEncode first) ++ (writeVarint (zigzagEncode delta) ++ more))

/-- The values before the data ends; none if the process panics. -/
def nextVarint (data : Bytes) (next : ℕ → Bytes → Option (List ℤ)) : Option (List ℤ) :=
  match readVarint data with
  | .error .malformed => some []
  | .error .panic => none
  | .ok (raw, data) => next raw data

def decodeDeltas (profile : Profile) : ℕ → Bytes → ℤ → ℤ → Option (List ℤ)
  | 0, _, _, _ => some []
  | count + 1, data, prev, prevDelta => nextVarint data fun ddRaw data => do
    let delta ← profile.i64 (prevDelta + zigzagDecode ddRaw)
    let v ← profile.i64 (prev + delta)
    let more ← decodeDeltas profile count data v delta
    return v :: more

def deltaDeltaDecode (profile : Profile) (data : Bytes) : Option (List ℤ) :=
  nextVarint data fun count data =>
    if count = 0 then some []
    else nextVarint data fun firstRaw data =>
      let first := zigzagDecode firstRaw
      if count = 1 then some [first]
      else (nextVarint data fun d0 data => do
        let second ← profile.i64 (first + zigzagDecode d0)
        let more ← decodeDeltas profile (count - 2) data second (zigzagDecode d0)
        return second :: more).map (first :: ·)

theorem zigzagEncode_lt {v : ℤ} (h : InI64 v) : zigzagEncode v < 2 ^ 64 := by
  obtain ⟨hlow, hhigh⟩ := h
  norm_num at hlow hhigh
  unfold zigzagEncode
  split
  · omega
  · omega

theorem zigzagDecode_encode (v : ℤ) : zigzagDecode (zigzagEncode v) = v := by
  unfold zigzagDecode zigzagEncode
  split
  · rw [if_pos (by omega)]
    omega
  · rw [if_neg (by omega)]
    omega

theorem nextVarint_write (hn : n < 2 ^ 64) (rest : Bytes) (next : ℕ → Bytes → Option (List ℤ)) :
    nextVarint (writeVarint n ++ rest) next = next n rest := by
  rw [nextVarint, readVarint_write hn]

theorem nextVarint_zigzag (hv : InI64 v) (rest : Bytes) (next : ℕ → Bytes → Option (List ℤ)) :
    nextVarint (writeVarint (zigzagEncode v) ++ rest) next = next (zigzagEncode v) rest :=
  nextVarint_write (zigzagEncode_lt hv) rest next

theorem bmod_of_inI64 (h : InI64 n) : n.bmod (2 ^ 64) = n := by
  obtain ⟨hlow, hhigh⟩ := h
  norm_num at hlow hhigh
  exact Int.bmod_eq_of_le (by norm_num; omega) (by norm_num; omega)

theorem i64_release (n : ℤ) : Profile.release.i64 n = some (n.bmod (2 ^ 64)) := by
  unfold Profile.i64
  split
  · rename_i h
    rw [bmod_of_inI64 h]
  · rfl

theorem inI64_of_i64 {profile : Profile} (h : profile.i64 n = some d) : InI64 d := by
  unfold Profile.i64 at h
  split at h
  · rename_i hn
    cases h
    exact hn
  · cases profile with
    | dev => cases h
    | release =>
      cases h
      have hlow := Int.le_bmod (x := n) (show 0 < 2 ^ 64 by norm_num)
      have hhigh := Int.bmod_lt (x := n) (show 0 < 2 ^ 64 by norm_num)
      norm_num at hlow hhigh
      unfold InI64
      norm_num
      omega

/-- A difference that was taken, wrapped or not, leads back. -/
theorem i64_back {profile : Profile} (h : profile.i64 (a - b) = some d) (ha : InI64 a) :
    profile.i64 (b + d) = some a := by
  by_cases hfits : InI64 (a - b)
  · rw [Profile.i64_of_inI64 hfits] at h
    cases h
    rw [add_sub_cancel, Profile.i64_of_inI64 ha]
  · cases profile with
    | dev => simp [Profile.i64, hfits] at h
    | release =>
      rw [i64_release] at h ⊢
      cases h
      rw [Int.add_bmod_bmod, add_sub_cancel, bmod_of_inI64 ha]

theorem decodeDeltas_encode {profile : Profile} {values : List ℤ} (hvalues : ∀ v ∈ values, InI64 v)
    (h : encodeDeltas profile prev prevDelta values = some bytes) :
    decodeDeltas profile values.length bytes prev prevDelta = some values := by
  induction values generalizing prev prevDelta bytes with
  | nil => rfl
  | cons v rest ih =>
    obtain ⟨hv, hrest⟩ := List.forall_mem_cons.mp hvalues
    obtain ⟨delta, hdelta, h⟩ := Option.bind_eq_some_iff.mp h
    obtain ⟨dd, hdd, h⟩ := Option.bind_eq_some_iff.mp h
    obtain ⟨more, hmore, h⟩ := Option.bind_eq_some_iff.mp h
    cases h
    rw [List.length_cons, decodeDeltas, nextVarint_zigzag (inI64_of_i64 hdd), zigzagDecode_encode,
      i64_back hdd (inI64_of_i64 hdelta)]
    simp [i64_back hdelta hv, ih hrest hmore]

/-- A series that could be written is read as it was written. -/
theorem deltaDeltaDecode_encode {profile : Profile} {values : List ℤ}
    (hvalues : ∀ v ∈ values, InI64 v) (hcount : values.length < 2 ^ 64)
    (h : deltaDeltaEncode profile values = some bytes) :
    deltaDeltaDecode profile bytes = some values := by
  match values with
  | [] =>
    cases h
    rfl
  | [first] =>
    cases h
    have hfirst := nextVarint_zigzag (hvalues first List.mem_cons_self) []
    rw [List.append_nil] at hfirst
    rw [deltaDeltaDecode, nextVarint_write (by decide), if_neg (by decide), hfirst,
      zigzagDecode_encode]
    rfl
  | first :: second :: rest =>
    obtain ⟨hfirst, hmore⟩ := List.forall_mem_cons.mp hvalues
    obtain ⟨hsecond, hrest⟩ := List.forall_mem_cons.mp hmore
    obtain ⟨delta, hdelta, h⟩ := Option.bind_eq_some_iff.mp h
    obtain ⟨more, hdeltas, h⟩ := Option.bind_eq_some_iff.mp h
    cases h
    rw [List.length_cons, List.length_cons] at hcount
    rw [deltaDeltaDecode, nextVarint_write hcount, if_neg (by omega), nextVarint_zigzag hfirst]
    dsimp only
    rw [if_neg (by omega), nextVarint_zigzag (inI64_of_i64 hdelta), zigzagDecode_encode,
      zigzagDecode_encode, i64_back hdelta hsecond]
    simp [decodeDeltas_encode hrest hdeltas]

theorem encodeDeltas_cons {profile : Profile} (hdelta : profile.i64 (v - prev) = some delta)
    (hdd : profile.i64 (delta - prevDelta) = some dd)
    (hmore : encodeDeltas profile v delta rest = some more) :
    encodeDeltas profile prev prevDelta (v :: rest) =
      some (writeVarint (zigzagEncode dd) ++ more) := by
  simp [encodeDeltas, hdelta, hdd, hmore]

theorem deltaDeltaEncode_cons {profile : Profile}
    (hdelta : profile.i64 (second - first) = some delta)
    (hmore : encodeDeltas profile second delta rest = some more) :
    deltaDeltaEncode profile (first :: second :: rest) = some (writeVarint (rest.length + 2) ++
      (writeVarint (zigzagEncode first) ++ (writeVarint (zigzagEncode delta) ++ more))) := by
  simp [deltaDeltaEncode, hdelta, hmore]

theorem encodeDeltas_release (prev prevDelta : ℤ) (values : List ℤ) :
    ∃ bytes, encodeDeltas .release prev prevDelta values = some bytes := by
  induction values generalizing prev prevDelta with
  | nil => exact ⟨[], rfl⟩
  | cons v rest ih =>
    obtain ⟨more, hmore⟩ := ih v ((v - prev).bmod (2 ^ 64))
    exact ⟨_, encodeDeltas_cons (i64_release _) (i64_release _) hmore⟩

theorem deltaDeltaEncode_release (values : List ℤ) :
    ∃ bytes, deltaDeltaEncode .release values = some bytes := by
  match values with
  | [] => exact ⟨_, rfl⟩
  | [first] => exact ⟨_, rfl⟩
  | first :: second :: rest =>
    obtain ⟨more, hmore⟩ := encodeDeltas_release second ((second - first).bmod (2 ^ 64)) rest
    exact ⟨_, deltaDeltaEncode_cons (i64_release _) hmore⟩

/-- The differences of successive values. -/
def differences : List ℤ → List ℤ
  | a :: b :: rest => (b - a) :: differences (b :: rest)
  | _ => []

theorem encodeDeltas_of_fits (profile : Profile) {prev prevDelta : ℤ} {values : List ℤ}
    (hdeltas : ∀ d ∈ differences (prev :: values), InI64 d)
    (hdds : ∀ d ∈ differences (prevDelta :: differences (prev :: values)), InI64 d) :
    ∃ bytes, encodeDeltas profile prev prevDelta values = some bytes := by
  induction values generalizing prev prevDelta with
  | nil => exact ⟨[], rfl⟩
  | cons v rest ih =>
    obtain ⟨hdelta, hdeltas⟩ := List.forall_mem_cons.mp hdeltas
    obtain ⟨hdd, hdds⟩ := List.forall_mem_cons.mp hdds
    obtain ⟨more, hmore⟩ := ih hdeltas hdds
    exact ⟨_, encodeDeltas_cons (Profile.i64_of_inI64 hdelta) (Profile.i64_of_inI64 hdd) hmore⟩

theorem deltaDeltaEncode_of_fits (profile : Profile) {values : List ℤ}
    (hdeltas : ∀ d ∈ differences values, InI64 d)
    (hdds : ∀ d ∈ differences (differences values), InI64 d) :
    ∃ bytes, deltaDeltaEncode profile values = some bytes := by
  match values with
  | [] => exact ⟨_, rfl⟩
  | [first] => exact ⟨_, rfl⟩
  | first :: second :: rest =>
    obtain ⟨hdelta, hdeltas⟩ := List.forall_mem_cons.mp hdeltas
    obtain ⟨more, hmore⟩ := encodeDeltas_of_fits profile hdeltas hdds
    exact ⟨_, deltaDeltaEncode_cons (Profile.i64_of_inI64 hdelta) hmore⟩

/-- Floats come back exactly if there are fewer than 2^32 of them. Timestamps come back wherever an
overflow wraps, and everywhere if no difference overflows. -/
theorem compression_lossless (values : List ℕ) (hwords : ∀ bits ∈ values, bits < 2 ^ 64)
    (times : List ℤ) (htimes : ∀ t ∈ times, InI64 t) (hcount : times.length < 2 ^ 64) :
    (gorillaDecode (gorillaEncode values) = some values ↔ values.length < 2 ^ 32) ∧
      (∃ bytes, deltaDeltaEncode .release times = some bytes ∧
        deltaDeltaDecode .release bytes = some times) ∧
      ((∀ d ∈ differences times, InI64 d) → (∀ d ∈ differences (differences times), InI64 d) →
        ∀ profile, ∃ bytes, deltaDeltaEncode profile times = some bytes ∧
          deltaDeltaDecode profile bytes = some times) := by
  refine ⟨gorilla_lossless_iff hwords, ?_, fun hdeltas hdds profile => ?_⟩
  · obtain ⟨bytes, hbytes⟩ := deltaDeltaEncode_release times
    exact ⟨bytes, hbytes, deltaDeltaDecode_encode htimes hcount hbytes⟩
  · obtain ⟨bytes, hbytes⟩ := deltaDeltaEncode_of_fits profile hdeltas hdds
    exact ⟨bytes, hbytes, deltaDeltaDecode_encode htimes hcount hbytes⟩

/-- A value that changes and comes back, and timestamps at both ends of the range. -/
theorem compression_lossless_swinging :
    gorillaDecode (gorillaEncode [2 ^ 62, 2 ^ 62, 1, 2 ^ 63 + 1]) =
        some [2 ^ 62, 2 ^ 62, 1, 2 ^ 63 + 1] ∧
      ∃ bytes, deltaDeltaEncode .release [2 ^ 63 - 1, -2 ^ 63, 2 ^ 63 - 1] = some bytes ∧
        deltaDeltaDecode .release bytes = some [2 ^ 63 - 1, -2 ^ 63, 2 ^ 63 - 1] := by
  have h := compression_lossless [2 ^ 62, 2 ^ 62, 1, 2 ^ 63 + 1] (by decide)
    [2 ^ 63 - 1, -2 ^ 63, 2 ^ 63 - 1] (by decide) (by decide)
  exact ⟨h.1.mpr (by decide), h.2.1⟩

/-- The number of 2^32 zeros is written as zero. -/
theorem compression_loses_long :
    gorillaDecode (gorillaEncode (List.replicate (2 ^ 32) 0)) ≠
      some (List.replicate (2 ^ 32) 0) := by
  intro h
  have hwords : ∀ bits ∈ List.replicate (2 ^ 32) 0, bits < 2 ^ 64 := by
    intro bits hbits
    rw [List.eq_of_mem_replicate hbits]
    norm_num
  have hlength := (gorilla_lossless_iff hwords).mp h
  rw [List.length_replicate] at hlength
  exact absurd hlength (lt_irrefl _)

end StorageCompress
