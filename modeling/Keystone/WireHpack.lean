import Keystone.ByteCodecs
import Keystone.StorageInternalKey

/-! # The header table of a connection

One HPACK decoder serves all header blocks of a client. Its table keeps recent headers up to a size
that the client sets with an instruction of its own. The static table and the Huffman code are left
open. -/
namespace WireHpack

open ByteCodecs List StorageInternalKey

abbrev Header := Bytes × Bytes

inductive HpackError where
  | bail (text : String)
  | utf8
  deriving DecidableEq

/-- `dynamic` has the oldest header first: the back of the queue. -/
structure Decoder where
  dynamic : List Header
  dynamicSize : ℕ
  maxDynamicSize : ℕ
  deriving DecidableEq

def Decoder.new : Decoder := ⟨[], 0, 4096⟩

def entrySize (h : Header) : ℕ := h.1.length + h.2.length + 32

/-- The loop of `insert_dynamic` and of `set_max_size`: the oldest entries go until `need` more
fits. -/
def evict (max need : ℕ) : List Header → ℕ → List Header × ℕ
  | [], size => ([], size)
  | oldest :: newer, size =>
    if max < size + need then evict max need newer (size - entrySize oldest)
      else (oldest :: newer, size)

def Decoder.insertDynamic (d : Decoder) (h : Header) : Decoder :=
  let (dynamic, size) := evict d.maxDynamicSize (entrySize h) d.dynamic d.dynamicSize
  if entrySize h ≤ d.maxDynamicSize then
    { d with dynamic := dynamic ++ [h], dynamicSize := size + entrySize h }
  else { d with dynamic, dynamicSize := size }

def Decoder.setMaxSize (d : Decoder) (newMax : ℕ) : Decoder :=
  let (dynamic, size) := evict newMax 0 d.dynamic d.dynamicSize
  ⟨dynamic, size, newMax⟩

def continueInteger (value m : ℕ) : Bytes → Except HpackError (ℕ × Bytes)
  | [] => .error (.bail "hpack integer: truncated continuation")
  | b :: rest =>
    let sum := value + b.toNat % 128 * 2 ^ m
    if 63 ≤ m ∨ 2 ^ 64 ≤ sum then .error (.bail "hpack integer: overflow")
    else if b.toNat < 128 then .ok (sum, rest)
    else continueInteger sum (m + 7) rest

def decodeInteger (first : UInt8) (n : ℕ) (rest : Bytes) : Except HpackError (ℕ × Bytes) :=
  if first.toNat % 2 ^ n < 2 ^ n - 1 then .ok (first.toNat % 2 ^ n, rest)
  else continueInteger (2 ^ n - 1) 0 rest

inductive Instruction where
  | emit (h : Header)
  | insert (h : Header)
  | resize (newMax : ℕ)

def Instruction.header? : Instruction → Option Header
  | .emit h | .insert h => some h
  | .resize _ => none

def Decoder.perform (d : Decoder) : Instruction → Decoder
  | .emit _ => d
  | .insert h => d.insertDynamic h
  | .resize newMax => d.setMaxSize newMax

section Decoding

variable (staticTable : List Header) (huffmanDecode : Bytes → Except HpackError Bytes)

def resolveIndex (d : Decoder) (index : ℕ) : Except HpackError Header :=
  if index = 0 then .error (.bail "hpack: index 0 is not valid")
  else match (staticTable ++ d.dynamic.reverse)[index - 1]? with
    | some h => .ok h
    | none => .error (.bail s!"hpack: dynamic index {index} out of range")

def decodeString (first : UInt8) (rest : Bytes) : Except HpackError (Bytes × Bytes) := do
  let (len, rest) ← decodeInteger first 7 rest
  match readBytes len rest with
  | none => .error (.bail "hpack string: truncated literal")
  | some (raw, rest) => return (← if 128 ≤ first.toNat then huffmanDecode raw else .ok raw, rest)

def readString (truncated : String) : Bytes → Except HpackError (Bytes × Bytes)
  | [] => .error (.bail truncated)
  | first :: block => do
    let (s, block) ← decodeString huffmanDecode first block
    if validUtf8 s then .ok (s, block) else .error .utf8

def decodeLiteral (d : Decoder) (first : UInt8) (nameBits : ℕ) (block : Bytes) :
    Except HpackError (Header × Bytes) := do
  let (index, block) ← decodeInteger first nameBits block
  let (name, block) ←
    if index = 0 then readString huffmanDecode "hpack: truncated literal name" block
    else (fun h => (h.1, block)) <$> resolveIndex staticTable d index
  let (value, block) ← readString huffmanDecode "hpack: truncated literal value" block
  .ok ((name, value), block)

/-- One turn of the loop of `decode`. -/
def decodeInstruction (d : Decoder) (first : UInt8) (block : Bytes) :
    Except HpackError (Instruction × Bytes) :=
  if 128 ≤ first.toNat then do
    let (index, block) ← decodeInteger first 7 block
    return (.emit (← resolveIndex staticTable d index), block)
  else if 64 ≤ first.toNat then
    (fun r => (.insert r.1, r.2)) <$> decodeLiteral staticTable huffmanDecode d first 6 block
  else if 32 ≤ first.toNat then (fun r => (.resize r.1, r.2)) <$> decodeInteger first 5 block
  else (fun r => (.emit r.1, r.2)) <$> decodeLiteral staticTable huffmanDecode d first 4 block

/-- The headers of a block, and the decoder for the next one, which is also there after an error. -/
def decode : ℕ → Decoder → Bytes → Except HpackError (List Header) × Decoder
  | fuel + 1, d, first :: block =>
    match decodeInstruction staticTable huffmanDecode d first block with
    | .error e => (.error e, d)
    | .ok (i, block) =>
      let (headers, d) := decode fuel (d.perform i) block
      ((i.header?.toList ++ ·) <$> headers, d)
  | _, d, _ => (.ok [], d)

/-- The decoders of a connection after each instruction, if the size updates are `allowed`. -/
inductive Reached (allowed : ℕ → Prop) : Decoder → Prop where
  | new : Reached allowed .new
  | step {d : Decoder} {first : UInt8} {block rest : Bytes} {i : Instruction}
      (h : Reached allowed d)
      (hdecode : decodeInstruction staticTable huffmanDecode d first block = .ok (i, rest))
      (hsize : ∀ newMax, i = .resize newMax → allowed newMax) : Reached allowed (d.perform i)

variable {staticTable huffmanDecode} {d : Decoder} {allowed : ℕ → Prop}

theorem Reached.decode (h : Reached staticTable huffmanDecode allowed d)
    (hall : ∀ newMax, allowed newMax)
    (fuel : ℕ) (block : Bytes) :
    Reached staticTable huffmanDecode allowed
      (decode staticTable huffmanDecode fuel d block).2 := by
  induction fuel generalizing d block with
  | zero => exact h
  | succ fuel ih =>
    cases block with
    | nil => exact h
    | cons first block =>
      rw [WireHpack.decode]
      cases hdecode : decodeInstruction staticTable huffmanDecode d first block with
      | error e => exact h
      | ok r => exact ih (h.step hdecode fun newMax _ => hall newMax) r.2

end Decoding

def tableSize (entries : List Header) : ℕ := (entries.map entrySize).sum

/-- What is kept is as long as it can be. -/
structure Kept (max need : ℕ) (entries kept : List Header) : Prop where
  newest : kept <:+ entries
  fits : kept = [] ∨ tableSize kept + need ≤ max
  longest : ∀ longer, longer <:+ entries → kept.length < longer.length →
    max < tableSize longer + need

theorem evict_spec (max need : ℕ) (entries : List Header) : ∃ kept, Kept max need entries kept ∧
    evict max need entries (tableSize entries) = (kept, tableSize kept) := by
  induction entries with
  | nil => exact ⟨[], ⟨suffix_rfl, .inl rfl, by simp⟩, rfl⟩
  | cons oldest newer ih =>
    rw [evict]
    split_ifs with hmax
    · obtain ⟨kept, hkept, heq⟩ := ih
      have hnewer : tableSize (oldest :: newer) - entrySize oldest =
        tableSize newer := by simp [tableSize]
      refine ⟨kept, ⟨hkept.newest.trans (suffix_cons ..), hkept.fits, fun longer hlonger hlt => ?_⟩,
        ?_⟩
      · rcases suffix_cons_iff.mp hlonger with rfl | hsuffix
        · exact hmax
        · exact hkept.longest longer hsuffix hlt
      · rw [hnewer, heq]
    · exact ⟨_, ⟨suffix_rfl, .inr (not_lt.mp hmax),
        fun longer h hlt => absurd h.length_le (not_le.mpr hlt)⟩, rfl⟩

structure Exact (d : Decoder) : Prop where
  size : d.dynamicSize = tableSize d.dynamic
  fits : d.dynamicSize ≤ d.maxDynamicSize

variable {d : Decoder}

theorem Exact.insertDynamic (h : Exact d) (e : Header) : ∃ kept,
    Kept d.maxDynamicSize (entrySize e) d.dynamic kept ∧
      d.insertDynamic e = if entrySize e ≤ d.maxDynamicSize then
        { d with dynamic := kept ++ [e], dynamicSize := tableSize (kept ++ [e]) }
      else { d with dynamic := [], dynamicSize := 0 } := by
  obtain ⟨kept, hkept, heq⟩ := evict_spec d.maxDynamicSize (entrySize e) d.dynamic
  refine ⟨kept, hkept, ?_⟩
  simp only [Decoder.insertDynamic, h.size, heq]
  split_ifs with hfits
  · simp [tableSize]
  · obtain rfl | hle := hkept.fits
    · rfl
    · omega

theorem Exact.perform (h : Exact d) (i : Instruction) : Exact (d.perform i) := by
  cases i with
  | emit e => exact h
  | insert e =>
    obtain ⟨kept, hkept, heq⟩ := h.insertDynamic e
    rw [Decoder.perform, heq]
    split_ifs with hfits
    · refine ⟨rfl, ?_⟩
      obtain rfl | hle := hkept.fits
      · simpa [tableSize] using hfits
      · simpa [tableSize] using hle
    · exact ⟨rfl, Nat.zero_le _⟩
  | resize newMax =>
    obtain ⟨kept, hkept, heq⟩ := evict_spec newMax 0 d.dynamic
    rw [Decoder.perform, Decoder.setMaxSize, h.size, heq]
    obtain rfl | hle := hkept.fits
    · exact ⟨rfl, Nat.zero_le _⟩
    · exact ⟨rfl, hle⟩

variable {staticTable : List Header} {huffmanDecode : Bytes → Except HpackError Bytes}
  {allowed : ℕ → Prop}

theorem Reached.exact (h : Reached staticTable huffmanDecode allowed d) : Exact d := by
  induction h with
  | new => exact ⟨rfl, Nat.zero_le _⟩
  | step _ _ _ ih => exact ih.perform _

theorem Reached.max_le (h : Reached staticTable huffmanDecode allowed d)
    (hallowed : ∀ newMax, allowed newMax → newMax ≤ 4096) : d.maxDynamicSize ≤ 4096 := by
  induction h with
  | new => exact le_rfl
  | @step d _ _ _ i _ _ hsize ih =>
    cases i with
    | emit e => exact ih
    | insert e =>
      simp only [Decoder.perform, Decoder.insertDynamic]
      split_ifs <;> exact ih
    | resize newMax => exact hallowed _ (hsize newMax rfl)

/-- Whatever a client sends the recorded size is that of the entries and within the maximum, an
insertion removes as little as it can, and the maximum stays within the default as long as no update
exceeds it. -/
theorem header_table_exact (h : Reached staticTable huffmanDecode allowed d) :
    d.dynamicSize = tableSize d.dynamic ∧ d.dynamicSize ≤ d.maxDynamicSize ∧
      ((∀ newMax, allowed newMax → newMax ≤ 4096) → d.maxDynamicSize ≤ 4096) ∧
      (∀ e, ∃ kept, Kept d.maxDynamicSize (entrySize e) d.dynamic kept ∧
        d.insertDynamic e = if entrySize e ≤ d.maxDynamicSize then
          { d with dynamic := kept ++ [e], dynamicSize := tableSize (kept ++ [e]) }
        else { d with dynamic := [], dynamicSize := 0 }) ∧
      ((∀ newMax, allowed newMax) → ∀ fuel block,
        Reached staticTable huffmanDecode allowed
          (decode staticTable huffmanDecode fuel d block).2) :=
  ⟨h.exact.size, h.exact.fits, h.max_le, h.exact.insertDynamic, h.decode⟩

/-- A maximum of 80 has room for two headers of one byte each way; the third one drives out the
first. -/
theorem header_table_exact_evicting : ∃ d, Reached [] .ok (· ≤ 4096) d ∧
    d.dynamic = [([98], [50]), ([99], [51])] ∧ d.dynamicSize = tableSize d.dynamic ∧
      d.dynamicSize ≤ d.maxDynamicSize ∧ d.maxDynamicSize ≤ 4096 := by
  have hresize : decodeInstruction [] .ok .new 63 [49] = .ok (.resize 80, []) := rfl
  have hresized : Reached [] .ok (· ≤ 4096) _ := .step .new hresize (by rintro _ ⟨⟩; decide)
  have hinsert (d : Decoder) (b c : UInt8) (hb : validUtf8 [b] = true) (hc : validUtf8 [c] = true) :
      decodeInstruction [] .ok d 64 [1, b, 1, c] = .ok (.insert ([b], [c]), []) := by
    have hstring (s : UInt8) (rest : Bytes) (text : String) (hs : validUtf8 [s] = true) :
        readString .ok text (1 :: s :: rest) = .ok ([s], rest) := if_pos hs
    have hliteral : decodeLiteral [] .ok d 64 6 [1, b, 1, c] = .ok (([b], [c]), []) := by
      change (readString .ok _ _ >>= _) = _
      rw [hstring b _ _ hb]
      change (readString .ok _ _ >>= _) = _
      rw [hstring c _ _ hc]
      rfl
    exact congrArg (fun r => (fun r : Header × Bytes => (Instruction.insert r.1, r.2)) <$> r)
      hliteral
  have hfirst := hresized.step (hinsert _ 97 49 rfl rfl) nofun
  have hsecond := hfirst.step (hinsert _ 98 50 rfl rfl) nofun
  have hthird := hsecond.step (hinsert _ 99 51 rfl rfl) nofun
  obtain ⟨hsize, hfits, hmax, -⟩ := header_table_exact hthird
  exact ⟨_, hthird, rfl, hsize, hfits, hmax fun _ => id⟩

/-- A size update of 4097. -/
theorem header_table_grows : (decode [] .ok 3 .new [63, 226, 31]).2.maxDynamicSize = 4097 := rfl

end WireHpack
