import Keystone.ByteCodecs

/-! # Reading a buffer with panics and reservations

A read takes bytes from the front, may reserve memory, and panics behind the end. What is reserved
is bounded in terms of what is taken; for reads that do not panic it is said where they go on. -/
namespace ByteReaders

open ByteCodecs List

structure Reader where
  data : List UInt8
  reserved : ℕ
  deriving DecidableEq

abbrev Decode := StateT Reader Option

variable {α β : Type}

def signed (bits n : ℕ) : ℤ := if n < 2 ^ (bits - 1) then n else n - 2 ^ bits

def asUsize (n : ℤ) : ℕ := (n % 2 ^ 64).toNat

variable {n : ℤ}

theorem asUsize_of_nonneg (h : 0 ≤ n) (hlt : n < 2 ^ 64) : asUsize n = n.toNat := by
  rw [asUsize, Int.emod_eq_of_lt h hlt]

theorem asUsize_of_neg (h : n < 0) (hle : -2 ^ 64 ≤ n) : asUsize n = (n + 2 ^ 64).toNat := by
  rw [asUsize, ← Int.add_emod_right, Int.emod_eq_of_lt (by omega) (by omega)]

def peekInt (width : ℕ) (data : List UInt8) : ℤ := signed (8 * width) (decodeBE (data.take width))

variable {width : ℕ}

theorem peekInt_range (hwidth : 0 < width) (h : width ≤ data.length) :
    -2 ^ (8 * width - 1) ≤ peekInt width data ∧ peekInt width data < 2 ^ (8 * width - 1) := by
  have hlt := decodeBE_lt (data.take width)
  rw [length_take_of_le h, show 256 = 2 ^ 8 from rfl, ← pow_mul] at hlt
  have hhalf : 2 ^ (8 * width) = 2 * 2 ^ (8 * width - 1) := by
    rw [← pow_succ']
    congr 1
    omega
  unfold peekInt signed
  rw [show 2 ^ (8 * width) = ((2 ^ (8 * width) : ℕ) : ℤ) by push_cast; rfl,
    show 2 ^ (8 * width - 1) = ((2 ^ (8 * width - 1) : ℕ) : ℤ) by push_cast; rfl, hhalf]
  split
  · omega
  · omega

def encodeInt (width : ℕ) (n : ℤ) : List UInt8 := encodeBE width (n % 2 ^ (8 * width)).toNat

def getInt (width : ℕ) : Decode ℤ := fun r =>
  if width ≤ r.data.length then some (peekInt width r.data, ⟨r.data.drop width, r.reserved⟩)
    else none

def getIntOr (width : ℕ) (default : ℤ) : Decode ℤ := fun r =>
  if width ≤ r.data.length then getInt width r else some (default, r)

def getByteOr (default : UInt8) : Decode UInt8 :=
  fun r => some (r.data.headD default, ⟨r.data.tail, r.reserved⟩)

def withCapacity (n size : ℕ) : Decode Unit := fun r =>
  if n * size < 2 ^ 63 then some ((), ⟨r.data, r.reserved + n * size⟩) else none

def takeUpTo (n : ℕ) : Decode (List UInt8) := fun r =>
  some (r.data.take n, ⟨r.data.drop n, r.reserved + (r.data.take n).length⟩)

def cstr (data : List UInt8) : List UInt8 := data.takeWhile (· ≠ 0)

def afterCstr (data : List UInt8) : List UInt8 := data.drop ((cstr data).length + 1)

/-- Up to a zero, or to the end if there is none. -/
def readCstr : Decode (List UInt8) := fun r =>
  some (fromUtf8Lossy (cstr r.data), ⟨afterCstr r.data,
    r.reserved + (fromUtf8Lossy (cstr r.data)).length⟩)

def repeatRead (item : Decode α) : ℕ → Decode (List α)
  | 0 => pure []
  | n + 1 => do
    let a ← item
    let as ← repeatRead item n
    pure (a :: as)

def readVec (n size : ℕ) (item : Decode α) : Decode (List α) := do
  withCapacity n size
  repeatRead item n

/-- As many items as a count in front of them says; without a count there are none. -/
def readCounted (size : ℕ) (item : Decode α) : Decode (List α) := do
  let n ← getIntOr 2 0
  readVec (asUsize n) size item

theorem pure_run (a : α) : (pure a : Decode α) r = some (a, r) := rfl

variable {f : Decode α} {g : α → Decode β} {a : α}

theorem bind_run (h : f r = some (a, r')) : (f >>= g) r = g a r' := by
  simp [bind, StateT.bind, h]

variable {r : Reader}

theorem bind_run_none (h : f r = none) : (f >>= g) r = none := by
  simp [bind, StateT.bind, h]

theorem bind_eq_some (h : (f >>= g) r = some (b, r'')) :
    ∃ a r', f r = some (a, r') ∧ g a r' = some (b, r'') := by
  simp only [bind, StateT.bind, Option.bind_eq_some_iff] at h
  obtain ⟨⟨a, r'⟩, hf, hg⟩ := h
  exact ⟨a, r', hf, hg⟩

def skipInt (width : ℕ) (data : List UInt8) : List UInt8 :=
  if width ≤ data.length then data.drop width else data

theorem getIntOr_run (width : ℕ) (default : ℤ) (r : Reader) :
    getIntOr width default r = some (if width ≤ r.data.length then peekInt width r.data
      else default,
      ⟨skipInt width r.data, r.reserved⟩) := by
  unfold getIntOr getInt skipInt
  split_ifs <;> rfl

def countAt (data : List UInt8) : ℤ := if 2 ≤ data.length then peekInt 2 data else 0

theorem countAt_range (data : List UInt8) : -2 ^ 15 ≤ countAt data ∧ countAt data < 2 ^ 15 := by
  unfold countAt
  split_ifs with h
  · exact peekInt_range (by omega) h
  · omega

/-- At most `rate` for each byte taken, and `fixed` besides. -/
def Bounded (rate fixed : ℕ) (f : Decode α) : Prop :=
  ∀ r a r', f r = some (a, r') →
    r'.reserved + rate * r'.data.length ≤ r.reserved + fixed + rate * r.data.length

section Bounds

variable {rate fixed fixed' : ℕ}

variable {f : Decode α}

theorem Bounded.mono (h : Bounded rate fixed f) (hle : fixed ≤ fixed' := by omega) :
    Bounded rate fixed' f := by
  intro r a r' hrun
  have := h r a r' hrun
  omega

theorem bounded_pure (a : α) : Bounded rate 0 (pure a : Decode α) := by
  intro r a' r' h
  cases h
  omega

theorem Bounded.bind (hf : Bounded rate fixed f) (hg : ∀ a, Bounded rate fixed' (g a)) :
    Bounded rate (fixed + fixed') (f >>= g) := by
  intro r b r'' h
  obtain ⟨a, r', hfirst, hthen⟩ := bind_eq_some h
  have hf' := hf r a r' hfirst
  have hg' := hg a r' b r'' hthen
  omega

theorem Bounded.map (h : Bounded rate fixed f) (g : α → β) : Bounded rate fixed (g <$> f) := by
  exact h.bind fun a => bounded_pure (g a)

theorem bounded_of_shrinks
    (h : ∀ r a r', f r = some (a, r') → r'.reserved = r.reserved ∧ r'.data.length ≤ r.data.length) :
    Bounded rate 0 f := by
  intro r a r' hrun
  obtain ⟨hreserved, hdata⟩ := h r a r' hrun
  have := Nat.mul_le_mul_left rate hdata
  omega

theorem bounded_get : Bounded rate 0 (get : Decode Reader) := by
  refine bounded_of_shrinks fun r a r' h => ?_
  cases h
  exact ⟨rfl, le_refl _⟩

theorem bounded_getInt (width : ℕ) : Bounded rate 0 (getInt width) := by
  refine bounded_of_shrinks fun r a r' h => ?_
  unfold getInt at h
  split_ifs at h
  cases h
  exact ⟨rfl, by simp⟩

theorem bounded_getIntOr (width : ℕ) (default : ℤ) : Bounded rate 0 (getIntOr width default) := by
  intro r a r' h
  unfold getIntOr at h
  split_ifs at h
  · exact bounded_getInt width r a r' h
  · cases h
    omega

theorem bounded_getByteOr (default : UInt8) : Bounded rate 0 (getByteOr default) := by
  refine bounded_of_shrinks fun r a r' h => ?_
  cases h
  exact ⟨rfl, by simp⟩

theorem bounded_takeUpTo (hrate : 0 < rate) (n : ℕ) : Bounded rate 0 (takeUpTo n) := by
  intro r a r' h
  cases h
  have hsplit : r.data.length = (r.data.take n).length + (r.data.drop n).length := by
    rw [← length_append, take_append_drop]
  have hle : (r.data.take n).length ≤ rate * (r.data.take n).length :=
    Nat.le_mul_of_pos_left _ hrate
  show r.reserved + (r.data.take n).length + rate * (r.data.drop n).length ≤ _
  rw [hsplit, mul_add]
  omega

theorem bounded_withCapacity (n size : ℕ) : Bounded rate (n * size) (withCapacity n size) := by
  intro r a r' h
  unfold withCapacity at h
  split_ifs at h
  cases h
  exact le_refl _

theorem length_cstr_add (data : List UInt8) :
    (cstr data).length + (afterCstr data).length ≤ data.length := by
  have h : (cstr data).length ≤ data.length := ( takeWhile_prefix _).length_le
  rw [afterCstr, length_drop]
  omega

theorem bounded_readCstr (hrate : 3 ≤ rate) : Bounded rate 0 readCstr := by
  intro r a r' h
  cases h
  have htext := length_fromUtf8Lossy (cstr r.data)
  have hsplit := Nat.mul_le_mul_left rate (length_cstr_add r.data)
  have hle : 3 * (cstr r.data).length ≤ rate * (cstr r.data).length := Nat.mul_le_mul_right _ hrate
  rw [mul_add] at hsplit
  show r.reserved + (fromUtf8Lossy (cstr r.data)).length + rate * (afterCstr r.data).length ≤ _
  omega

variable {item : Decode α}

theorem Bounded.repeatRead (h : Bounded rate 0 item) (n : ℕ) :
    Bounded rate 0 (repeatRead item n) := by
  induction n with
  | zero => exact bounded_pure []
  | succ n ih => exact h.bind fun a => ih.bind fun as => bounded_pure _

/-- A negative count does not get as far as to reserve. -/
theorem Bounded.readVec (h : Bounded rate 0 item) (hn : -2 ^ 15 ≤ n) (hlt : n < 2 ^ 15)
    (hsize : 0 < size) :
    Bounded rate (32767 * size) (readVec (asUsize n) size item) := by
  by_cases hneg : n < 0
  · intro r a r' hrun
    obtain ⟨u, mid, hcap, -⟩ := bind_eq_some hrun
    unfold withCapacity at hcap
    split_ifs at hcap with hfits
    have hle : asUsize n ≤ asUsize n * size := Nat.le_mul_of_pos_right _ hsize
    rw [asUsize_of_neg hneg (by omega)] at hle hfits
    omega
  · have hle : asUsize n * size ≤ 32767 * size := by
      rw [asUsize_of_nonneg (by omega) (by omega)]
      exact Nat.mul_le_mul_right _ (by omega)
    exact ((bounded_withCapacity _ size).mono hle).bind fun _ => h.repeatRead _

theorem Bounded.readCounted (h : Bounded rate 0 item) (hsize : 0 < size) :
    Bounded rate (32767 * size) (readCounted size item) := by
  intro r a r' hrun
  obtain ⟨n, mid, hcount, hvec⟩ := bind_eq_some hrun
  have hrange : -2 ^ 15 ≤ n ∧ n < 2 ^ 15 := by
    rw [getIntOr_run] at hcount
    obtain ⟨rfl, -⟩ := Prod.mk.inj (Option.some.inj hcount)
    exact countAt_range r.data
  have hskip := (bounded_getIntOr 2 0 : Bounded rate 0 _) r n mid hcount
  have hitems := h.readVec hrange.1 hrange.2 hsize mid a r' hvec
  omega

end Bounds

/-- It does not panic, and goes on at `next`. -/
def Moves (f : Decode α) (next : List UInt8 → List UInt8) : Prop :=
  ∀ r, ∃ a reserved, f r = some (a, ⟨next r.data, reserved⟩)

theorem moves_takeUpTo (n : ℕ) : Moves (takeUpTo n) (List.drop n) := fun _ => ⟨_, _, rfl⟩

theorem moves_getIntOr (width : ℕ) (default : ℤ) : Moves (getIntOr width default) (skipInt width) :=
  fun r => ⟨_, _, getIntOr_run width default r⟩

variable {next : List UInt8 → List UInt8}

theorem Moves.map (h : Moves f next) (g : α → β) : Moves (g <$> f) next := by
  intro r
  obtain ⟨a, reserved, hrun⟩ := h r
  exact ⟨g a, reserved, by simp [Functor.map, StateT.map, hrun]⟩

variable {item : Decode α}

theorem Moves.repeatRead (h : Moves item next) (n : ℕ) : Moves (repeatRead item n) next^[n] := by
  induction n with
  | zero => exact fun r => ⟨[], r.reserved, rfl⟩
  | succ n ih =>
    intro r
    obtain ⟨a, reserved, hfirst⟩ := h r
    obtain ⟨as, reserved', hrest⟩ := ih ⟨next r.data, reserved⟩
    refine ⟨a :: as, reserved', ?_⟩
    rw [ByteReaders.repeatRead, bind_run hfirst, bind_run hrest, Function.iterate_succ_apply]
    rfl

theorem readCounted_run :
    readCounted size item r = readVec (asUsize (countAt r.data)) size item ⟨skipInt 2 r.data,
      r.reserved⟩ :=
  bind_run (getIntOr_run 2 0 r)

variable {size : ℕ}

/-- With a count that is not negative a read panics only if an item does. -/
theorem readVec_run (hn : 0 ≤ n) (hlt : n < 2 ^ 15) (hsize : size < 2 ^ 31) :
    readVec (asUsize n) size item r = repeatRead item n.toNat ⟨r.data,
      r.reserved + n.toNat * size⟩ := by
  have hfits : n.toNat * size < 2 ^ 63 := by
    calc n.toNat * size ≤ n.toNat * 2 ^ 31 := Nat.mul_le_mul_left _ (by omega)
      _ < 2 ^ 63 := by omega
  rw [asUsize_of_nonneg hn (by omega)]
  exact bind_run (if_pos hfits)

theorem readCounted_of_neg (hsize : 0 < size) (h : countAt r.data < 0) :
    readCounted size item r = none := by
  have hbig : ¬ asUsize (countAt r.data) * size < 2 ^ 63 := by
    have hrange := countAt_range r.data
    have hle := Nat.le_mul_of_pos_right (asUsize (countAt r.data)) hsize
    rw [asUsize_of_neg h (by omega)] at hle ⊢
    omega
  have hcap : withCapacity (asUsize (countAt r.data)) size ⟨skipInt 2 r.data, r.reserved⟩ = none :=
    if_neg hbig
  rw [readCounted_run]
  simp [readVec, bind, StateT.bind, hcap]

theorem Moves.readCounted (hitem : Moves item next) (hsize : size < 2 ^ 31)
    (h : 0 ≤ countAt r.data) :
    ∃ as reserved, readCounted size item r =
      some (as, ⟨next^[(countAt r.data).toNat] (skipInt 2 r.data), reserved⟩) := by
  rw [readCounted_run, readVec_run h (countAt_range r.data).2 hsize]
  exact hitem.repeatRead _ _

theorem repeatRead_getInt_eq_none (n : ℕ) (r : Reader) :
    repeatRead (getInt width) n r = none ↔ r.data.length < width * n := by
  induction n generalizing r with
  | zero => simp [repeatRead, pure_run]
  | succ n ih =>
    by_cases h : width ≤ r.data.length
    · have hfirst : getInt width r = some (peekInt width r.data, ⟨r.data.drop width, r.reserved⟩) :=
        if_pos h
      have hrest := ih ⟨r.data.drop width, r.reserved⟩
      rw [length_drop] at hrest
      rw [repeatRead, bind_run hfirst, mul_add, mul_one]
      constructor
      · intro hnone
        have := hrest.1 (by
          cases hmore : repeatRead (getInt width) n ⟨r.data.drop width, r.reserved⟩ with
          | none => rfl
          | some p => simp [bind_run hmore, pure_run] at hnone)
        omega
      · intro hshort
        exact bind_run_none (hrest.2 (by omega))
    · have hfirst : getInt width r = none := if_neg h
      have hle : width ≤ width * (n + 1) := Nat.le_mul_of_pos_right _ (by omega)
      rw [repeatRead, bind_run_none hfirst]
      simp only [true_iff]
      omega

theorem readCounted_getInt_eq_none (hpos : 0 < size) (hsize : size < 2 ^ 31) :
    readCounted size (getInt width) r = none ↔
      countAt r.data < 0 ∨ (skipInt 2 r.data).length < width * (countAt r.data).toNat := by
  by_cases hneg : countAt r.data < 0
  · simp [readCounted_of_neg hpos hneg, hneg]
  · rw [readCounted_run, readVec_run (by omega) (countAt_range r.data).2 hsize,
      repeatRead_getInt_eq_none]
    simp [hneg]

def Reads (f : Decode α) (bytes : List UInt8) (a : α) : Prop :=
  ∀ rest reserved, ∃ reserved', f ⟨bytes ++ rest, reserved⟩ = some (a, ⟨rest, reserved'⟩)

@[simp] theorem length_encodeInt (width : ℕ) (n : ℤ) : (encodeInt width n).length = width :=
  length_encodeBE _ _

theorem decodeBE_encodeInt (width : ℕ) (n : ℤ) :
    (decodeBE (encodeInt width n) : ℤ) = n % 2 ^ (8 * width) := by
  have hpos : (0 : ℤ) < 2 ^ (8 * width) := Int.pow_pos (by omega)
  have hnonneg := Int.emod_nonneg n hpos.ne'
  rw [encodeInt, decodeBE_encodeBE, Int.toNat_of_nonneg hnonneg]
  have hcast : ((2 ^ (8 * width) : ℕ) : ℤ) = 2 ^ (8 * width) := by push_cast; rfl
  rw [show 256 = 2 ^ 8 from rfl, ← pow_mul]
  omega

theorem peekInt_encodeInt_append (n : ℤ) :
    peekInt width (encodeInt width n ++ rest) =
      signed (8 * width) (decodeBE (encodeInt width n)) := by
  rw [peekInt, take_left' (length_encodeInt width n)]

theorem peekInt_encodeInt (hwidth : 0 < width) (hle : -2 ^ (8 * width - 1) ≤ n)
    (hlt : n < 2 ^ (8 * width - 1)) (rest : List UInt8) :
    peekInt width (encodeInt width n ++ rest) = n := by
  have hhalf : (2 : ℤ) ^ (8 * width) = 2 * 2 ^ (8 * width - 1) := by
    rw [← pow_succ']
    congr 1
    omega
  have hvalue := decodeBE_encodeInt width n
  have hcast : ((2 ^ (8 * width - 1) : ℕ) : ℤ) = 2 ^ (8 * width - 1) := by push_cast; rfl
  rw [peekInt_encodeInt_append, signed]
  by_cases hneg : n < 0
  · rw [← Int.add_emod_right, Int.emod_eq_of_lt (by omega) (by omega)] at hvalue
    omega
  · rw [Int.emod_eq_of_lt (by omega) (by omega)] at hvalue
    rw [if_pos (by omega), hvalue]

theorem reads_pure (a : α) : Reads (pure a : Decode α) [] a := fun _ reserved => ⟨reserved, rfl⟩

theorem Reads.bind (hf : Reads f xs a) (hg : Reads (g a) ys b) : Reads (f >>= g) (xs ++ ys) b := by
  intro rest reserved
  obtain ⟨mid, hfirst⟩ := hf (ys ++ rest) reserved
  obtain ⟨reserved', hthen⟩ := hg rest mid
  exact ⟨reserved', by rw [append_assoc, bind_run hfirst, hthen]⟩

theorem Reads.map (h : Reads f xs a) (g : α → β) : Reads (g <$> f) xs (g a) := by
  intro rest reserved
  obtain ⟨reserved', hrun⟩ := h rest reserved
  exact ⟨reserved', by simp [Functor.map, StateT.map, hrun]⟩

theorem reads_getIntOr (hwidth : 0 < width) (hle : -2 ^ (8 * width - 1) ≤ n)
    (hlt : n < 2 ^ (8 * width - 1))
    (default : ℤ) : Reads (getIntOr width default) (encodeInt width n) n := by
  intro rest reserved
  refine ⟨reserved, ?_⟩
  rw [getIntOr_run, skipInt, if_pos (by simp), if_pos (by simp), peekInt_encodeInt hwidth hle hlt,
    drop_left' (length_encodeInt width n)]

theorem reads_takeUpTo (bytes : List UInt8) : Reads (takeUpTo bytes.length) bytes bytes := by
  intro rest reserved
  exact ⟨_, by rw [takeUpTo, take_left, drop_left]⟩

theorem cstr_append_zero (h : 0 ∉ text) : cstr (text ++ 0 :: rest) = text := by
  have hall : ∀ b ∈ text, decide (b ≠ 0) = true := by
    intro b hb
    have hne : b ≠ 0 := fun hzero => h (hzero ▸ hb)
    exact decide_eq_true hne
  rw [cstr, takeWhile_append_of_pos hall]
  simp

theorem reads_readCstr (hvalid : validUtf8 text = true) (hzero : 0 ∉ text) :
    Reads readCstr (text ++ [0]) text := by
  intro rest reserved
  rw [readCstr, afterCstr, append_assoc, singleton_append, cstr_append_zero hzero,
    fromUtf8Lossy_valid hvalid, drop_append]
  simp

theorem reads_repeatRead (h : ∀ a ∈ as, Reads item (encode a) a) :
    Reads (repeatRead item as.length) (as.flatMap encode) as := by
  induction as with
  | nil => exact reads_pure []
  | cons a as ih =>
    simp only [forall_mem_cons] at h
    exact h.1.bind ((ih h.2).map (a :: ·))

/-- The count of the items is a 16-bit number without a sign for who writes it, and with one
here. -/
theorem countAt_encodeInt {n : ℕ} (hn : n < 2 ^ 16) :
    countAt (encodeInt 2 n ++ rest) = if n < 2 ^ 15 then (n : ℤ) else n - 2 ^ 16 := by
  have hvalue := decodeBE_encodeInt 2 n
  rw [Int.emod_eq_of_lt (by omega) (by omega), Nat.cast_inj] at hvalue
  rw [countAt, if_pos (by simp), peekInt_encodeInt_append, hvalue]
  rfl

theorem reads_readCounted (h : ∀ a ∈ as, Reads item (encode a) a)
    (hcount : as.length < 2 ^ 15) (hsize : size < 2 ^ 31) :
    Reads (readCounted size item) (encodeInt 2 as.length ++ as.flatMap encode) as := by
  intro rest reserved
  have hn : countAt (encodeInt 2 as.length ++ (as.flatMap encode ++ rest)) = as.length := by
    rw [countAt_encodeInt (by omega), if_pos hcount]
  obtain ⟨reserved', hrun⟩ := reads_repeatRead h rest (reserved + as.length * size)
  refine ⟨reserved', ?_⟩
  rw [readCounted_run, append_assoc, hn, readVec_run (by omega) (by omega) hsize, skipInt,
    if_pos (by simp), drop_left' (length_encodeInt 2 _)]
  exact hrun

theorem readCounted_of_many {size n : ℕ} (hsize : 0 < size) (hmany : 2 ^ 15 ≤ n) (hn : n < 2 ^ 16) :
    readCounted size item ⟨encodeInt 2 n ++ rest, reserved⟩ = none := by
  refine readCounted_of_neg hsize ?_
  rw [countAt_encodeInt hn, if_neg (by omega)]
  omega

end ByteReaders
