import Mathlib.Data.List.Basic
import Mathlib.Tactic.Ring

/-! # Fixed-width integers and length-prefixed fields over byte lists

Readers take a buffer and return what they decoded with the bytes that follow. Each one is exact on
what its writer produced, and stable: a successful read does not look at the bytes it leaves behind.
Text is decoded as UTF-8 with ill-formed parts replaced. -/
namespace ByteCodecs

open List Option

/-- Big-endian, `width` bytes; larger numbers are cut to their low bytes. -/
def encodeBE : ℕ → ℕ → List UInt8
  | 0, _ => []
  | width + 1, n => UInt8.ofNat (n / 256 ^ width) :: encodeBE width n

def decodeBE (bytes : List UInt8) : ℕ := bytes.foldl (fun acc b => acc * 256 + b.toNat) 0

@[simp] theorem length_encodeBE (width n : ℕ) : (encodeBE width n).length = width := by
  induction width with
  | zero => rfl
  | succ width ih => simp [encodeBE, ih]

theorem foldl_encodeBE : (encodeBE width n).foldl (fun acc b => acc * 256 + b.toNat) acc =
      acc * 256 ^ width + n % 256 ^ width := by
  induction width generalizing acc with
  | zero => simp [encodeBE, Nat.mod_one]
  | succ width ih =>
    have hsplit : n % 256 ^ (width + 1) = 256 ^ width * (n / 256 ^ width % 256) +
      n % 256 ^ width := by
      rw [pow_succ, Nat.mod_mul, add_comm]
    simp only [encodeBE, foldl_cons, ih, UInt8.toNat_ofNat', hsplit]
    ring

variable {width n : ℕ}

theorem decodeBE_encodeBE (h : n < 256 ^ width) : decodeBE (encodeBE width n) = n := by
  rw [decodeBE, foldl_encodeBE, Nat.mod_eq_of_lt h]
  simp

theorem le_foldl_decode (bytes : List UInt8) (acc : ℕ) :
    acc ≤ bytes.foldl (fun acc b => acc * 256 + b.toNat) acc := by
  induction bytes generalizing acc with
  | nil => exact le_rfl
  | cons b bytes ih =>
    rw [foldl_cons]
    exact le_trans (by omega) (ih _)

variable {bytes : List UInt8}

theorem toNat_le_decodeBE (h : b ∈ bytes) : b.toNat ≤ decodeBE bytes := by
  obtain ⟨front, back, rfl⟩ := append_of_mem h
  rw [decodeBE, foldl_append, foldl_cons]
  exact le_trans (by omega) (le_foldl_decode back _)

theorem foldl_decode (bytes : List UInt8) (acc : ℕ) :
    bytes.foldl (fun acc b => acc * 256 + b.toNat) acc =
      acc * 256 ^ bytes.length + decodeBE bytes := by
  unfold decodeBE
  induction bytes generalizing acc with
  | nil => simp
  | cons b bytes ih =>
    rw [foldl_cons, foldl_cons, ih, ih (0 * 256 + b.toNat), length_cons, pow_succ]
    ring

theorem decodeBE_cons : decodeBE (b :: bytes) = b.toNat * 256 ^ bytes.length + decodeBE bytes := by
  rw [decodeBE, foldl_cons, foldl_decode]
  simp

theorem decodeBE_lt (bytes : List UInt8) : decodeBE bytes < 256 ^ bytes.length := by
  have hfold : ∀ acc, bytes.foldl (fun acc b => acc * 256 + b.toNat) acc <
    (acc + 1) * 256 ^ bytes.length := by
    induction bytes with
    | nil => simp
    | cons b bytes ih =>
      intro acc
      have hb : b.toNat < 256 := b.toNat_lt
      calc (b :: bytes).foldl (fun acc b => acc * 256 + b.toNat) acc
          < (acc * 256 + b.toNat + 1) * 256 ^ bytes.length := ih _
        _ ≤ ((acc + 1) * 256) * 256 ^ bytes.length := Nat.mul_le_mul_right _ (by omega)
        _ = (acc + 1) * 256 ^ (b :: bytes).length := by
          rw [length_cons, pow_succ]
          ring
  simpa [decodeBE] using hfold 0

def readBytes (n : ℕ) (buf : List UInt8) : Option (List UInt8 × List UInt8) :=
  if n ≤ buf.length then some (buf.take n, buf.drop n) else none

def readBE (width : ℕ) (buf : List UInt8) : Option (ℕ × List UInt8) :=
  (readBytes width buf).map fun (bytes, rest) => (decodeBE bytes, rest)

def readField (buf : List UInt8) : Option (List UInt8 × List UInt8) := do
  let (len, buf) ← readBE 4 buf
  readBytes len buf

def encodeField (bytes : List UInt8) : List UInt8 := encodeBE 4 bytes.length ++ bytes

@[simp] theorem length_encodeField : (encodeField bytes).length = 4 + bytes.length := by
  simp [encodeField]

theorem readBytes_append_self (bytes rest : List UInt8) :
    readBytes bytes.length (bytes ++ rest) = some (bytes, rest) := by
  simp [readBytes]

theorem readBE_encodeBE (h : n < 256 ^ width) (rest : List UInt8) :
    readBE width (encodeBE width n ++ rest) = some (n, rest) := by
  have := readBytes_append_self (encodeBE width n) rest
  rw [length_encodeBE] at this
  simp [readBE, this, decodeBE_encodeBE h]

theorem readField_encodeField (h : bytes.length < 256 ^ 4) :
    readField (encodeField bytes ++ rest) = some (bytes, rest) := by
  simp [readField, encodeField, readBE_encodeBE h, readBytes_append_self]

section Stability

variable {buf rest ext : List UInt8}

theorem readBytes_stable (h : readBytes n buf = some (bytes, rest)) :
    readBytes n (buf ++ ext) = some (bytes, rest ++ ext) := by
  unfold readBytes at h ⊢
  split_ifs at h with hle
  obtain ⟨rfl, rfl⟩ := h
  rw [if_pos (by simp; omega), take_append_of_le_length hle, drop_append_of_le_length hle]

theorem readBE_stable (h : readBE width buf = some (n, rest)) :
    readBE width (buf ++ ext) = some (n, rest ++ ext) := by
  simp only [readBE, map_eq_some_iff, Prod.exists] at h
  obtain ⟨bytes, _, h, rfl, rfl⟩ := h
  simp [readBE, readBytes_stable h]

theorem readField_stable (h : readField buf = some (bytes, rest)) :
    readField (buf ++ ext) = some (bytes, rest ++ ext) := by
  simp only [readField, bind_eq_bind, bind_eq_some_iff, Prod.exists] at h
  obtain ⟨len, mid, hlen, hbytes⟩ := h
  simp [readField, readBE_stable hlen, readBytes_stable hbytes]

end Stability

section Lengths

variable {buf rest : List UInt8}

variable {bytes : List UInt8}

theorem readBytes_length (h : readBytes n buf = some (bytes, rest)) :
    buf.length = n + rest.length := by
  unfold readBytes at h
  split_ifs at h with hle
  obtain ⟨_, rfl⟩ := Prod.mk.inj (Option.some.inj h)
  rw [length_drop]
  omega

theorem readBE_length (h : readBE width buf = some (n, rest)) :
    buf.length = width + rest.length := by
  simp only [readBE, map_eq_some_iff, Prod.exists] at h
  obtain ⟨bytes, _, h, _, rfl⟩ := h
  exact readBytes_length h

theorem readField_lt (h : readField buf = some (bytes, rest)) : bytes.length < 2 ^ 32 := by
  simp only [readField, readBE, bind_eq_bind, bind_eq_some_iff, map_eq_some_iff, Prod.exists] at h
  obtain ⟨len, mid, ⟨digits, tail, hdigits, rfl, rfl⟩, hbytes⟩ := h
  have hwidth : digits.length = 4 := by
    unfold readBytes at hdigits
    split_ifs at hdigits with hle
    obtain ⟨rfl, _⟩ := Prod.mk.inj (Option.some.inj hdigits)
    exact length_take_of_le hle
  have hlt := decodeBE_lt digits
  unfold readBytes at hbytes
  split_ifs at hbytes with hle
  obtain ⟨rfl, _⟩ := Prod.mk.inj (Option.some.inj hbytes)
  rw [length_take_of_le hle]
  rw [hwidth] at hlt
  exact hlt

theorem readField_length (h : readField buf = some (bytes, rest)) :
    buf.length = 4 + bytes.length + rest.length := by
  simp only [readField, bind_eq_bind, bind_eq_some_iff, Prod.exists] at h
  obtain ⟨len, mid, hlen, hbytes⟩ := h
  have hmid := readBytes_length hbytes
  have hfound : bytes.length = len := by
    unfold readBytes at hbytes
    split_ifs at hbytes with hle
    obtain ⟨rfl, _⟩ := Prod.mk.inj (Option.some.inj hbytes)
    exact length_take_of_le hle
  rw [readBE_length hlen, hmid, hfound]
  omega

end Lengths

def slice (buf : List UInt8) (start stop : ℕ) : List UInt8 := (buf.drop start).take (stop - start)

/-- From the position on, the buffer holds exactly `rest`. -/
def At (buf : List UInt8) (pos : ℕ) (rest : List UInt8) : Prop :=
  ∃ front, buf = front ++ rest ∧ front.length = pos

section Positions

variable {buf bytes rest : List UInt8} {pos : ℕ}

theorem At.length (front rest : List UInt8) : At (front ++ rest) front.length rest :=
  ⟨front, rfl, rfl⟩

theorem At.skip (h : At buf pos (bytes ++ rest)) : At buf (pos + bytes.length) rest := by
  obtain ⟨front, rfl, rfl⟩ := h
  exact ⟨front ++ bytes, by rw [append_assoc], length_append⟩

theorem At.skip_eq (h : At buf pos (bytes ++ rest)) (hn : bytes.length = n) :
    At buf (pos + n) rest := hn ▸ h.skip

theorem At.append (h : At buf pos rest) (ext : List UInt8) : At (buf ++ ext) pos (rest ++ ext) := by
  obtain ⟨front, rfl, rfl⟩ := h
  exact ⟨front, by rw [append_assoc], rfl⟩

theorem At.length_eq (h : At buf pos rest) : buf.length = pos + rest.length := by
  obtain ⟨front, rfl, rfl⟩ := h
  exact length_append

theorem At.drop_eq (h : At buf pos rest) : buf.drop pos = rest := by
  obtain ⟨front, rfl, rfl⟩ := h
  exact drop_left

theorem At.slice_eq (h : At buf pos (bytes ++ rest)) (hn : bytes.length = n) :
    slice buf pos (pos + n) = bytes := by
  subst hn
  rw [slice, h.drop_eq, Nat.add_sub_cancel_left, take_left]

theorem At.decodeBE_slice (h : At buf pos (encodeBE width n ++ rest))
    (hn : n < 256 ^ width) : decodeBE (slice buf pos (pos + width)) = n := by
  rw [h.slice_eq (length_encodeBE width n), decodeBE_encodeBE hn]

end Positions

def charWidth (lead : UInt8) : ℕ :=
  if lead < 0x80 then 1
  else if 0xC2 ≤ lead ∧ lead ≤ 0xDF then 2
  else if 0xE0 ≤ lead ∧ lead ≤ 0xEF then 3
  else if 0xF0 ≤ lead ∧ lead ≤ 0xF4 then 4
  else 0

/-- No overlong forms, no surrogates, nothing above the last code point. -/
def secondByteAllowed (lead second : UInt8) : Bool :=
  if lead = 0xE0 then 0xA0 ≤ second ∧ second ≤ 0xBF
  else if lead = 0xED then 0x80 ≤ second ∧ second ≤ 0x9F
  else if lead = 0xF0 then 0x90 ≤ second ∧ second ≤ 0xBF
  else if lead = 0xF4 then 0x80 ≤ second ∧ second ≤ 0x8F
  else 0x80 ≤ second ∧ second ≤ 0xBF

def scanTail : ℕ → ℕ → List UInt8 → Bool × ℕ
  | 0, consumed, _ => (true, consumed)
  | _ + 1, consumed, [] => (false, consumed)
  | n + 1, consumed, b :: rest =>
    if 0x80 ≤ b ∧ b ≤ 0xBF then scanTail n (consumed + 1) rest else (false, consumed)

/-- Whether the bytes start with a whole character, and its length; if they do not, the length
of the part that one replacement character stands for. -/
def scanChar : List UInt8 → Bool × ℕ
  | [] => (true, 0)
  | lead :: rest =>
    match charWidth lead, rest with
    | 0, _ => (false, 1)
    | 1, _ => (true, 1)
    | _ + 2, [] => (false, 1)
    | width + 2, second :: rest =>
      if secondByteAllowed lead second then scanTail width 2 rest else (false, 1)

def replaceInvalid : ℕ → List UInt8 → List UInt8
  | 0, _ => []
  | _ + 1, [] => []
  | fuel + 1, b :: buf =>
    let (valid, consumed) := scanChar (b :: buf)
    (if valid then (b :: buf).take consumed else [0xEF, 0xBF, 0xBD]) ++
      replaceInvalid fuel ((b :: buf).drop consumed)

def validUtf8 (bytes : List UInt8) : Bool := (ByteArray.mk bytes.toArray).validateUTF8

def fromUtf8Lossy (bytes : List UInt8) : List UInt8 :=
  if validUtf8 bytes then bytes else replaceInvalid bytes.length bytes

theorem validUtf8_append (ha : validUtf8 a = true) (hb : validUtf8 b = true) :
    validUtf8 (a ++ b) = true := by
  rw [validUtf8, ByteArray.validateUTF8_eq_true_iff] at *
  exact ha.append hb

theorem fromUtf8Lossy_valid (h : validUtf8 bytes = true) : fromUtf8Lossy bytes = bytes := if_pos h

theorem le_scanTail : consumed ≤ (scanTail n consumed buf).2 := by
  induction n generalizing consumed buf with
  | zero => exact le_refl _
  | succ n ih =>
    cases buf with
    | nil => exact le_refl _
    | cons b rest =>
      rw [scanTail]
      split_ifs
      · exact (Nat.le_succ consumed).trans (ih ..)
      · exact le_refl _

theorem scanChar_pos (b : UInt8) (buf : List UInt8) : 0 < (scanChar (b :: buf)).2 := by
  unfold scanChar
  dsimp only
  split
  · exact Nat.one_pos
  · exact Nat.one_pos
  · exact Nat.one_pos
  · split
    · exact Nat.lt_of_lt_of_le Nat.two_pos le_scanTail
    · exact Nat.one_pos

theorem length_replaceInvalid (fuel : ℕ) (buf : List UInt8) :
    (replaceInvalid fuel buf).length ≤ 3 * buf.length := by
  induction fuel generalizing buf with
  | zero => simp [replaceInvalid]
  | succ fuel ih =>
    cases buf with
    | nil => simp [replaceInvalid]
    | cons b buf =>
      have hpos := scanChar_pos b buf
      have hrest := ih ((b :: buf).drop (scanChar (b :: buf)).2)
      rw [length_drop, length_cons] at hrest
      simp only [replaceInvalid, length_append]
      split_ifs
      · rw [length_take, length_cons]
        omega
      · simp only [length_cons, length_nil]
        omega

theorem length_fromUtf8Lossy (bytes : List UInt8) :
    (fromUtf8Lossy bytes).length ≤ 3 * bytes.length := by
  unfold fromUtf8Lossy
  split
  · omega
  · exact length_replaceInvalid _ _

end ByteCodecs
