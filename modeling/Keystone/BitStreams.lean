import Mathlib.Data.List.Basic
import Mathlib.Tactic.Ring

/-! # Bits in bytes

A writer packs bits into bytes, the first bit highest, and pads the last byte with zeros; a reader
takes them off again. Both are described by the list of bits that they stand for. -/
namespace BitStreams

/-! ## Numbers -/

/-- The low bits of a number, the highest first. -/
def natBits : ℕ → ℕ → List Bool
  | 0, _ => []
  | count + 1, n => (n / 2 ^ count % 2 == 1) :: natBits count n

def ofBits (bits : List Bool) : ℕ := bits.foldl (fun acc b => 2 * acc + b.toNat) 0

@[simp] theorem length_natBits (count n : ℕ) : (natBits count n).length = count := by
  induction count with
  | zero => rfl
  | succ count ih => simp [natBits, ih]

theorem foldl_natBits (count n acc : ℕ) :
    (natBits count n).foldl (fun acc b => 2 * acc + b.toNat) acc =
      acc * 2 ^ count + n % 2 ^ count := by
  induction count generalizing acc with
  | zero => simp [natBits, Nat.mod_one]
  | succ count ih =>
    have hbit : (n / 2 ^ count % 2 == 1).toNat = n / 2 ^ count % 2 := by
      rcases Nat.mod_two_eq_zero_or_one (n / 2 ^ count) with h | h
      · simp [h]
      · simp [h]
    have hsplit : n % 2 ^ (count + 1) = 2 ^ count * (n / 2 ^ count % 2) + n % 2 ^ count := by
      rw [pow_succ, Nat.mod_mul, add_comm]
    rw [natBits, List.foldl_cons, ih, hbit, hsplit]
    ring

theorem ofBits_natBits {count n : ℕ} (h : n < 2 ^ count) : ofBits (natBits count n) = n := by
  rw [ofBits, foldl_natBits, Nat.mod_eq_of_lt h]
  simp

/-- Only the low bits of a number are written. -/
theorem natBits_mod (count n : ℕ) : natBits count (n % 2 ^ count) = natBits count n := by
  suffices h : ∀ k ≤ count, natBits k (n % 2 ^ count) = natBits k n from h count le_rfl
  intro k hk
  induction k with
  | zero => rfl
  | succ k ih =>
    have hbit : n % 2 ^ count / 2 ^ k % 2 = n / 2 ^ k % 2 := by
      rw [show count = k + (count - k) by omega, pow_add, Nat.mod_mul_right_div_self,
        show count - k = (count - k - 1) + 1 by omega, pow_succ', Nat.mod_mul_right_mod]
    rw [natBits, natBits, hbit, ih (by omega)]

/-- One more bit at the end. -/
theorem natBits_append (count n : ℕ) (b : Bool) :
    natBits (count + 1) (2 * n + b.toNat) = natBits count n ++ [b] := by
  induction count with
  | zero => cases b <;> simp [natBits, Nat.add_mod]
  | succ count ih =>
    have hhalf : (2 * n + b.toNat) / 2 ^ (count + 1) = n / 2 ^ count := by
      have hb : b.toNat < 2 := by cases b <;> decide
      rw [pow_succ', ← Nat.div_div_eq_div_mul]
      congr 1
      omega
    rw [natBits, ih, hhalf, natBits, List.cons_append]

/-- Zeros at the end are a shift. -/
theorem natBits_shift (count n k : ℕ) :
    natBits (count + k) (n * 2 ^ k) = natBits count n ++ List.replicate k false := by
  induction k with
  | zero => simp
  | succ k ih =>
    have hstep := natBits_append (count + k) (n * 2 ^ k) false
    rw [ih] at hstep
    rw [← add_assoc, pow_succ, List.replicate_succ', ← List.append_assoc, ← hstep]
    congr 1
    simp
    ring

def byteBits (b : UInt8) : List Bool := natBits 8 b.toNat

/-! ## Writing -/

/-- Whole bytes, and fewer than eight bits behind them. -/
structure Writer where
  buf : List UInt8
  cur : ℕ
  nbits : ℕ
  incomplete : nbits < 8 ∧ cur < 2 ^ nbits

namespace Writer

def new : Writer := ⟨[], 0, 0, by decide⟩

def bits (w : Writer) : List Bool := w.buf.flatMap byteBits ++ natBits w.nbits w.cur

theorem shifted_lt (w : Writer) (bit : Bool) : 2 * w.cur + bit.toNat < 2 ^ (w.nbits + 1) := by
  have hcur := w.incomplete.2
  have hbit : bit.toNat < 2 := by cases bit <;> decide
  rw [pow_succ']
  omega

def writeBit (w : Writer) (bit : Bool) : Writer :=
  if h : w.nbits + 1 = 8 then ⟨w.buf ++ [UInt8.ofNat (2 * w.cur + bit.toNat)], 0, 0, by decide⟩
  else ⟨w.buf, 2 * w.cur + bit.toNat, w.nbits + 1, by
    have := w.incomplete.1
    exact ⟨by omega, w.shifted_lt bit⟩⟩

/-- The low `count` bits of a value. -/
def writeBits (w : Writer) (value : ℕ) : ℕ → Writer
  | 0 => w
  | count + 1 => (w.writeBit (value / 2 ^ count % 2 == 1)).writeBits value count

/-- The bytes, the last one filled up with zeros, and how many bits of it count. -/
def finish (w : Writer) : List UInt8 × ℕ :=
  (if 0 < w.nbits then w.buf ++ [UInt8.ofNat (w.cur * 2 ^ (8 - w.nbits))] else w.buf, w.nbits)

@[simp] theorem bits_new : new.bits = [] := rfl

theorem byteBits_ofNat {n : ℕ} (h : n < 2 ^ 8) : byteBits (UInt8.ofNat n) = natBits 8 n := by
  rw [byteBits, UInt8.toNat_ofNat', Nat.mod_eq_of_lt h]

@[simp] theorem bits_writeBit (w : Writer) (bit : Bool) :
    (w.writeBit bit).bits = w.bits ++ [bit] := by
  unfold writeBit bits
  split
  · rename_i h
    have hlt := w.shifted_lt bit
    rw [h] at hlt
    have hseven : w.nbits = 7 := by omega
    rw [hseven, List.append_assoc, ← natBits_append 7 w.cur bit, List.flatMap_append,
      List.flatMap_singleton,
      byteBits_ofNat hlt]
    exact List.append_nil _
  · rw [natBits_append, List.append_assoc]

@[simp] theorem bits_writeBits (w : Writer) (value count : ℕ) :
    (w.writeBits value count).bits = w.bits ++ natBits count value := by
  induction count generalizing w with
  | zero => simp [writeBits, natBits]
  | succ count ih => simp [writeBits, natBits, ih]

/-- What was written, and zeros. -/
theorem bits_finish (w : Writer) : ∃ k, w.finish.1.flatMap byteBits =
    w.bits ++ List.replicate k false := by
  unfold finish bits
  obtain ⟨hnbits, hcur⟩ := w.incomplete
  split
  · have hlt : w.cur * 2 ^ (8 - w.nbits) < 2 ^ 8 := by
      calc w.cur * 2 ^ (8 - w.nbits) < 2 ^ w.nbits * 2 ^ (8 - w.nbits) :=
            Nat.mul_lt_mul_of_pos_right hcur (Nat.two_pow_pos _)
        _ = 2 ^ 8 := by rw [← pow_add]; congr 1; omega
    refine ⟨8 - w.nbits, ?_⟩
    have hshift := natBits_shift w.nbits w.cur (8 - w.nbits)
    rw [show w.nbits + (8 - w.nbits) = 8 by omega] at hshift
    simp only [List.flatMap_append, List.flatMap_singleton, byteBits_ofNat hlt, hshift,
      List.append_assoc]
  · refine ⟨0, ?_⟩
    simp [show w.nbits = 0 by omega, natBits]

end Writer

/-! ## Reading -/

/-- The bytes from the current one on, and how many of its bits are read. -/
structure Reader where
  buf : List UInt8
  bitPos : ℕ
  inside : bitPos < 8

namespace Reader

def new (buf : List UInt8) : Reader := ⟨buf, 0, by decide⟩

/-- The bits that are left. -/
def bits (r : Reader) : List Bool := (r.buf.flatMap byteBits).drop r.bitPos

def readBit (r : Reader) : Option (Bool × Reader) :=
  match r.buf with
  | [] => none
  | byte :: rest =>
    let bit := byte.toNat / 2 ^ (7 - r.bitPos) % 2 == 1
    if h : r.bitPos + 1 = 8 then some (bit, ⟨rest, 0, by decide⟩)
    else some (bit, ⟨r.buf, r.bitPos + 1, by have := r.inside; omega⟩)

def readBitsFrom (r : Reader) (value : ℕ) : ℕ → Option (ℕ × Reader)
  | 0 => some (value, r)
  | count + 1 => do
    let (bit, r) ← r.readBit
    r.readBitsFrom (2 * value + bit.toNat) count

def readBits (r : Reader) (count : ℕ) : Option (ℕ × Reader) := r.readBitsFrom 0 count

@[simp] theorem bits_new (buf : List UInt8) : (new buf).bits = buf.flatMap byteBits := rfl

theorem getElem?_natBits {count n i : ℕ} (h : i < count) :
    (natBits count n)[i]? = some (n / 2 ^ (count - 1 - i) % 2 == 1) := by
  induction count generalizing i with
  | zero => omega
  | succ count ih =>
    cases i with
    | zero => simp [natBits]
    | succ i =>
      rw [natBits, List.getElem?_cons_succ, ih (by omega), show count + 1 - 1 - (i + 1) =
        count - 1 - i by omega]

/-- A read takes the first bit that is left. -/
theorem readBit_of_bits {r : Reader} {bit : Bool} {rest : List Bool} (h : r.bits = bit :: rest) :
    ∃ r', r.readBit = some (bit, r') ∧ r'.bits = rest := by
  obtain ⟨buf, bitPos, inside⟩ := r
  cases buf with
  | nil => simp [bits] at h
  | cons byte tail =>
    have hlength : (byteBits byte).length = 8 := length_natBits 8 _
    have hfirst : (byteBits byte)[bitPos]? = some bit := by
      have := congrArg (·[0]?) h
      simpa [bits, List.getElem?_drop, List.getElem?_append_left (hlength ▸ inside)] using this
    have hbit : (byte.toNat / 2 ^ (7 - bitPos) % 2 == 1) = bit := by
      rw [byteBits, getElem?_natBits inside] at hfirst
      exact Option.some.inj hfirst
    have hrest : ((byte :: tail).flatMap byteBits).drop (bitPos + 1) = rest := by
      have := congrArg List.tail h
      simpa [bits, List.tail_drop] using this
    unfold readBit
    dsimp only
    rw [hbit]
    split
    · rename_i height
      refine ⟨_, rfl, ?_⟩
      rw [height] at hrest
      rw [← hrest, List.flatMap_cons, List.drop_left' hlength]
      rfl
    · exact ⟨_, rfl, hrest⟩

theorem readBitsFrom_of_bits {r : Reader} {front rest : List Bool} (h : r.bits = front ++ rest)
    (value : ℕ) :
    ∃ r', r.readBitsFrom value front.length =
      some (front.foldl (fun acc b => 2 * acc + b.toNat) value, r') ∧
      r'.bits = rest := by
  induction front generalizing r value with
  | nil => exact ⟨r, rfl, h⟩
  | cons bit front ih =>
    obtain ⟨r₁, hread, hbits⟩ := readBit_of_bits h
    obtain ⟨r₂, hmore, hrest⟩ := ih hbits (2 * value + bit.toNat)
    refine ⟨r₂, ?_, hrest⟩
    simp [readBitsFrom, hread, hmore]

/-- A number is read as it was written. -/
theorem readBits_of_natBits {r : Reader} {count n : ℕ} {rest : List Bool} (hn : n < 2 ^ count)
    (h : r.bits = natBits count n ++ rest) : ∃ r', r.readBits count = some (n, r') ∧
      r'.bits = rest := by
  obtain ⟨r', hread, hrest⟩ := readBitsFrom_of_bits h 0
  rw [length_natBits] at hread
  refine ⟨r', ?_, hrest⟩
  rw [readBits, hread]
  exact congrArg (fun v => some (v, r')) (ofBits_natBits hn)

end Reader

end BitStreams
