import Keystone.ByteCodecs
import Keystone.OrderedMaps
import Keystone.StorageInternalKey
import Mathlib.Data.List.Infix

/-! # Binary JSON

Documents as tag, length and value. Integers take eight bytes if they fit a signed word; larger ones
become floats. Cells of rows are marked, and a reader takes every cell that starts with the mark for
a document. -/
namespace StorageJsonb

open ByteCodecs List OrderedMaps StorageInternalKey

/-- A parsed document. Floats are their 64 bits; the entries of an object are in key order. -/
inductive Json where
  | null
  | bool (b : Bool)
  | int (n : ℤ)
  | float (bits : ℕ)
  | string (s : Bytes)
  | array (items : List Json)
  | object (entries : List (Bytes × Json))
  deriving Repr

/-- Why a decoder does not return: the bytes are no document, or the process panics. -/
inductive Fault where
  | malformed | panic
  deriving DecidableEq

theorem ok_bind (a : α) : (Except.ok a >>= f) = f a := rfl

/-- `write_varint`: seven bits a byte, lowest first. -/
def writeVarintBytes : ℕ → ℕ → Bytes
  | 0, _ => []
  | fuel + 1, n =>
    if n < 128 then [UInt8.ofNat n]
    else UInt8.ofNat (n % 128 + 128) :: writeVarintBytes fuel (n / 128)

/-- Ten bytes hold 64 bits. -/
def writeVarint (n : ℕ) : Bytes := writeVarintBytes 10 n

/-- A shift by 64 or more panics; bits beyond the word are lost. -/
def readVarintFrom (shift result : ℕ) : Bytes → Except Fault (ℕ × Bytes)
  | [] => .error .malformed
  | b :: rest =>
    if 64 ≤ shift then .error .panic
    else
      let result := result + b.toNat % 128 * 2 ^ shift % 2 ^ 64
      if b.toNat < 128 then .ok (result, rest) else readVarintFrom (shift + 7) result rest

def readVarint (buf : Bytes) : Except Fault (ℕ × Bytes) := readVarintFrom 0 0 buf

theorem readVarintFrom_write (hfuel : n < 128 ^ fuel) (hpos : 0 < fuel) (hshift : shift < 64)
    (hn : n * 2 ^ shift < 2 ^ 64) (result : ℕ) :
    readVarintFrom shift result (writeVarintBytes fuel n ++ rest) =
      .ok (result + n * 2 ^ shift, rest) := by
  induction fuel generalizing n shift result with
  | zero => omega
  | succ fuel ih =>
    rw [writeVarintBytes]
    split
    case isTrue hlast =>
      have hbyte : (UInt8.ofNat n).toNat = n := by
        rw [UInt8.toNat_ofNat']
        omega
      simp only [cons_append, nil_append, readVarintFrom, hbyte, if_pos hlast,
        Nat.mod_eq_of_lt hlast, Nat.mod_eq_of_lt hn, if_neg (Nat.not_le.mpr hshift)]
    case isFalse hmore =>
      have hbyte : (UInt8.ofNat (n % 128 + 128)).toNat = n % 128 + 128 := by
        rw [UInt8.toNat_ofNat']
        omega
      have hpow : 2 ^ (shift + 7) = 128 * 2 ^ shift := by
        rw [pow_add]
        omega
      have hsplit : n * 2 ^ shift = n % 128 * 2 ^ shift + n / 128 * 2 ^ (shift + 7) := by
        rw [hpow, ← mul_assoc, ← add_mul, mul_comm (n / 128), Nat.mod_add_div]
      have hquot : 1 ≤ n / 128 := by omega
      have hshift' : shift + 7 < 64 := by
        have hle : 2 ^ (shift + 7) ≤ n / 128 * 2 ^ (shift + 7) := Nat.le_mul_of_pos_left _ hquot
        have hlt : 2 ^ (shift + 7) < 2 ^ 64 := by omega
        exact (Nat.pow_lt_pow_iff_right (by decide)).mp hlt
      have hlow : n % 128 * 2 ^ shift < 2 ^ 64 := by omega
      have hfuel' : n / 128 < 128 ^ fuel := by
        exact Nat.div_lt_of_lt_mul (by omega)
      have hfuelPos : 0 < fuel := by
        rcases Nat.eq_zero_or_pos fuel with rfl | h
        · omega
        · exact h
      have hnext := ih hfuel' hfuelPos hshift' (by omega) (result + n % 128 * 2 ^ shift)
      simp only [cons_append, readVarintFrom, hbyte, if_neg (Nat.not_le.mpr hshift),
        Nat.add_mod_right, Nat.mod_mod, Nat.mod_eq_of_lt hlow, hnext]
      rw [if_neg (by omega), hsplit, add_assoc]

theorem readVarint_write (hn : n < 2 ^ 64) : readVarint (writeVarint n ++ rest) =
    .ok (n, rest) := by
  have h : readVarintFrom 0 0 (writeVarintBytes 10 n ++ rest) = .ok (0 + n * 2 ^ 0, rest) :=
    readVarintFrom_write (by omega) (by decide) (by decide) (by simpa using hn) 0
  rwa [zero_add, pow_zero, mul_one] at h

def encodeI64 (n : ℤ) : Bytes := encodeBE 8 (n % 2 ^ 64).toNat

def decodeI64 (word : ℕ) : ℤ := if word < 2 ^ 63 then word else word - 2 ^ 64

/-- The float nearest to an integer from 2⁶³ on, ties to even, as its bits: 53 bits of the integer
are kept. -/
def floatOfU64 (n : ℕ) : ℕ :=
  let kept := n / 2 ^ 11
  let cut := n % 2 ^ 11
  let rounded := if 2 ^ 10 < cut ∨ (cut = 2 ^ 10 ∧ kept % 2 = 1) then kept + 1 else kept
  1086 * 2 ^ 52 + (rounded - 2 ^ 52)

def finite (bits : ℕ) : Bool := bits / 2 ^ 52 % 2 ^ 11 ≠ 2047

mutual

/-- `encode_into`. The entries of an object are written in key order, which is the order of the
map. -/
def encodeInto : Json → Bytes
  | .null => [0]
  | .bool false => [1]
  | .bool true => [2]
  | .int n => if n < 2 ^ 63 then 3 :: encodeI64 n else 4 :: encodeBE 8 (floatOfU64 n.toNat)
  | .float bits => 4 :: encodeBE 8 bits
  | .string s => 5 :: (writeVarint s.length ++ s)
  | .array items => 6 :: (writeVarint items.length ++ encodeItems items)
  | .object entries => 7 :: (writeVarint entries.length ++ encodeEntries entries)

def encodeItems : List Json → Bytes
  | [] => []
  | v :: items => encodeInto v ++ encodeItems items

def encodeEntries : List (Bytes × Json) → Bytes
  | [] => []
  | (k, v) :: entries => writeVarint k.length ++ k ++ encodeInto v ++ encodeEntries entries

end

/-- Reads `n` values one after the other. -/
def readMany {α : Type} (read : Bytes → Except Fault (α × Bytes)) :
    ℕ → Bytes → Except Fault (List α × Bytes)
  | 0, buf => .ok ([], buf)
  | n + 1, buf => do
    let (a, buf) ← read buf
    let (as, buf) ← readMany read n buf
    pure (a :: as, buf)

/-- `*pos + n` panics when it overflows; `size` is the length of the whole buffer. -/
def take (size n : ℕ) (buf : Bytes) : Except Fault (Bytes × Bytes) :=
  if 2 ^ 64 ≤ size - buf.length + n then .error .panic
  else match readBytes n buf with
    | some r => .ok r
    | none => .error .malformed

def readText (size : ℕ) (buf : Bytes) : Except Fault (Bytes × Bytes) := do
  let (len, buf) ← readVarint buf
  let (bytes, buf) ← take size len buf
  pure (fromUtf8Lossy bytes, buf)

def readEntry (size : ℕ) (read : Bytes → Except Fault (Json × Bytes)) (buf : Bytes) :
    Except Fault ((Bytes × Json) × Bytes) := do
  let (k, buf) ← readText size buf
  let (v, buf) ← read buf
  pure ((k, v), buf)

/-- `Vec::with_capacity` of more than `isize::MAX` bytes panics; a value takes 32. -/
def reserve (len : ℕ) : Except Fault Unit :=
  if 2 ^ 63 ≤ len * 32 then .error .panic else .ok ()

/-- A later entry replaces an earlier one with its key. -/
def objectOf (entries : List (Bytes × Json)) : List (Bytes × Json) :=
  entries.foldl (fun map e => upsertList e.1 (fun _ => e.2) map) []

/-- `decode_at`: the document at the front of the buffer and what follows. A document is nested
no deeper than it has bytes. -/
def decodeAt (size : ℕ) : ℕ → Bytes → Except Fault (Json × Bytes)
  | 0, _ => .error .malformed
  | _, [] => .error .malformed
  | fuel + 1, tag :: buf =>
    match tag with
    | 0 => .ok (.null, buf)
    | 1 => .ok (.bool false, buf)
    | 2 => .ok (.bool true, buf)
    | 3 => do
      let (word, buf) ← take size 8 buf
      pure (.int (decodeI64 (decodeBE word)), buf)
    | 4 => do
      let (word, buf) ← take size 8 buf
      let bits := decodeBE word
      pure (if finite bits then .float bits else .null, buf)
    | 5 => do
      let (s, buf) ← readText size buf
      pure (.string s, buf)
    | 6 => do
      let (len, buf) ← readVarint buf
      reserve len
      let (items, buf) ← readMany (decodeAt size fuel) len buf
      pure (.array items, buf)
    | 7 => do
      let (len, buf) ← readVarint buf
      let (entries, buf) ← readMany (readEntry size (decodeAt size fuel)) len buf
      pure (.object (objectOf entries), buf)
    | _ => .error .malformed

/-- What follows the document is ignored. -/
def decode (buf : Bytes) : Except Fault Json := (decodeAt buf.length buf.length buf).map Prod.fst

structure Text (s : Bytes) : Prop where
  utf8 : validUtf8 s = true
  length : s.length < 2 ^ 64

mutual

def Within (bound : ℤ) : Json → Prop
  | .null => True
  | .bool _ => True
  | .int n => -2 ^ 63 ≤ n ∧ n < bound
  | .float bits => bits < 2 ^ 64 ∧ finite bits
  | .string s => Text s
  | .array items => items.length * 32 < 2 ^ 63 ∧ ItemsWithin bound items
  | .object entries =>
    entries.length < 2 ^ 64 ∧ (entries.Pairwise fun a b => a.1 < b.1) ∧ EntriesWithin bound entries

def ItemsWithin (bound : ℤ) : List Json → Prop
  | [] => True
  | v :: items => Within bound v ∧ ItemsWithin bound items

def EntriesWithin (bound : ℤ) : List (Bytes × Json) → Prop
  | [] => True
  | (k, v) :: entries => Text k ∧ Within bound v ∧ EntriesWithin bound entries

end

theorem decodeI64_encodeI64 (hlow : -2 ^ 63 ≤ n) (hhigh : n < 2 ^ 63) :
    decodeI64 (decodeBE (encodeI64 n)) = n := by
  rw [encodeI64, decodeBE_encodeBE (by omega), decodeI64]
  split <;> omega

theorem objectOf_sorted (h : entries.Pairwise fun a b => a.1 < b.1) :
    objectOf entries = entries := by
  have append : ∀ front, ((front ++ entries).Pairwise fun a b => a.1 < b.1) →
      entries.foldl (fun map e => upsertList e.1 (fun _ => e.2) map) front = front ++ entries := by
    clear h
    induction entries with
    | nil => simp
    | cons e entries ih =>
      intro front hsorted
      have hfront : ∀ x ∈ front, x.1 < e.1 := fun x hx =>
        (pairwise_append.mp hsorted).2.2 x hx e mem_cons_self
      have hnew : upsertList e.1 (fun _ => e.2) front = front ++ [e] := by
        simpa [upsertList] using upsertList_append hfront []
      rw [foldl_cons, hnew, ih (front ++ [e]) (by simpa using hsorted)]
      simp
  simpa [objectOf] using append [] (by simpa using h)

theorem encodeInto_pos (v : Json) : 0 < (encodeInto v).length := by
  unfold encodeInto
  split <;> try simp
  split <;> simp

section RoundTrip

variable {size : ℕ} (hsize : size < 2 ^ 64)

include hsize

theorem take_append (h : word.length = n) (rest : Bytes) (hle : n + rest.length ≤ size) :
    take size n (word ++ rest) = .ok (word, rest) := by
  subst h
  rw [take, if_neg (by rw [length_append]; omega), readBytes_append_self]

theorem readText_write (h : Text s) (rest : Bytes) (hle : s.length + rest.length ≤ size) :
    readText size (writeVarint s.length ++ (s ++ rest)) = .ok (s, rest) := by
  simp only [readText, readVarint_write h.length, take_append hsize rfl rest hle, ok_bind,
    fromUtf8Lossy_valid h.utf8]
  rfl

mutual

theorem decodeAt_encodeInto (rest : Bytes) (v : Json) (h : Within (2 ^ 63) v)
    (hfuel : (encodeInto v).length ≤ fuel) (hle : (encodeInto v).length + rest.length ≤ size) :
    decodeAt size fuel (encodeInto v ++ rest) = .ok (v, rest) := by
  obtain ⟨fuel, rfl⟩ : ∃ n, fuel = n + 1 := ⟨fuel - 1, by have := encodeInto_pos v; omega⟩
  match v with
  | .null | .bool false | .bool true => rfl
  | .int n =>
    obtain ⟨hlow, hhigh⟩ := h
    have hlen : (encodeI64 n).length = 8 := length_encodeBE 8 _
    simp only [encodeInto, if_pos hhigh, length_cons] at hle
    simp only [encodeInto, if_pos hhigh, cons_append, decodeAt,
      take_append hsize hlen rest (by omega), ok_bind,
      decodeI64_encodeI64 hlow hhigh]
    rfl
  | .float bits =>
    obtain ⟨hbits, hfinite⟩ := h
    have hlen : (encodeBE 8 bits).length = 8 := length_encodeBE 8 _
    simp only [encodeInto, length_cons] at hle
    simp only [encodeInto, cons_append, decodeAt, take_append hsize hlen rest (by omega), ok_bind,
      decodeBE_encodeBE (show bits < 256 ^ 8 by omega), if_pos hfinite]
    rfl
  | .string s =>
    simp only [encodeInto, length_cons, length_append] at hle
    simp only [encodeInto, cons_append, append_assoc, decodeAt,
      readText_write hsize h rest (by omega)]
    rfl
  | .array items =>
    obtain ⟨hlength, hitems⟩ := h
    simp only [encodeInto, length_cons, length_append] at hfuel hle
    have hmany := readMany_encodeItems rest items hitems (show _ ≤ fuel by omega) (by omega)
    have hreserve : reserve items.length = .ok () := if_neg (by omega)
    simp only [encodeInto, cons_append, append_assoc, decodeAt,
      readVarint_write (show items.length < 2 ^ 64 by omega), ok_bind, hreserve, hmany]
    rfl
  | .object entries =>
    obtain ⟨hlength, hsorted, hentries⟩ := h
    simp only [encodeInto, length_cons, length_append] at hfuel hle
    have hmany := readMany_encodeEntries rest entries hentries (show _ ≤ fuel by omega) (by omega)
    simp only [encodeInto, cons_append, append_assoc, decodeAt, readVarint_write hlength,
      ok_bind, hmany, objectOf_sorted hsorted]
    rfl

theorem readMany_encodeItems (rest : Bytes) (items : List Json) (h : ItemsWithin (2 ^ 63) items)
    (hfuel : (encodeItems items).length ≤ fuel)
      (hle : (encodeItems items).length + rest.length ≤ size) :
    readMany (decodeAt size fuel) items.length (encodeItems items ++ rest) = .ok (items, rest) := by
  match items with
  | [] => rfl
  | v :: items =>
    obtain ⟨hv, hitems⟩ := h
    simp only [encodeItems, length_append] at hfuel hle
    have hfirst := decodeAt_encodeInto (encodeItems items ++ rest) v hv (show _ ≤ fuel by omega)
      (by rw [length_append]; omega)
    have hmore := readMany_encodeItems rest items hitems (show _ ≤ fuel by omega) (by omega)
    simp only [encodeItems, length_cons, readMany, append_assoc, hfirst, hmore, ok_bind]
    rfl

theorem readMany_encodeEntries (rest : Bytes) (entries : List (Bytes × Json))
    (h : EntriesWithin (2 ^ 63) entries) (hfuel : (encodeEntries entries).length ≤ fuel)
    (hle : (encodeEntries entries).length + rest.length ≤ size) :
    readMany (readEntry size (decodeAt size fuel)) entries.length (encodeEntries entries ++ rest) =
      .ok (entries, rest) := by
  match entries with
  | [] => rfl
  | (k, v) :: entries =>
    obtain ⟨hk, hv, hentries⟩ := h
    simp only [encodeEntries, length_append] at hfuel hle
    have hfirst := decodeAt_encodeInto (encodeEntries entries ++ rest) v hv (show _ ≤ fuel by omega)
      (by rw [length_append]; omega)
    have hmore := readMany_encodeEntries rest entries hentries (show _ ≤ fuel by omega) (by omega)
    have hkey :
      readText size
      (writeVarint k.length ++ (k ++ (encodeInto v ++ (encodeEntries entries ++ rest)))) =
        .ok (k, _) := readText_write hsize hk _ (by simp only [length_append]; omega)
    have hentry : readEntry size (decodeAt size fuel)
      (writeVarint k.length ++ (k ++ (encodeInto v ++
        (encodeEntries entries ++ rest)))) = .ok ((k, v), encodeEntries entries ++ rest) := by
      simp only [readEntry, hkey, hfirst, ok_bind]
      rfl
    simp only [encodeEntries, length_cons, readMany, append_assoc, hentry, hmore, ok_bind]
    rfl

end

end RoundTrip

theorem decodeAt_encodeInto_self (h : Within (2 ^ 63) v) (hsize : (encodeInto v).length < 2 ^ 64) :
    decodeAt (encodeInto v).length (encodeInto v).length (encodeInto v) = .ok (v, []) := by
  simpa using decodeAt_encodeInto hsize [] v h le_rfl (by simp)

theorem decode_encodeInto (h : Within (2 ^ 63) v) (hsize : (encodeInto v).length < 2 ^ 64) :
    decode (encodeInto v) = .ok v := by
  rw [decode, decodeAt_encodeInto_self h hsize]
  rfl

/-- Reading and writing JSON text, which the `serde_json` crate does. What it parses is a document
in memory, and what it prints of a parsed document parses to the same one. -/
structure JsonText where
  parse : Bytes → Option Json
  print : Json → Bytes
  parse_within : ∀ text v, parse text = some v → Within (2 ^ 64) v
  parse_print : ∀ text v, parse text = some v → parse (print v) = some v

def cellMarker : Bytes := [0, 1]

/-- Text that is not JSON stays as it is. -/
def encodeCell (json : JsonText) (text : Bytes) : Bytes :=
  match json.parse text with
  | some v => cellMarker ++ encodeInto v
  | none => text

def isBinaryCell (bytes : Bytes) : Bool := bytes.take 2 = cellMarker

def decodeCell (json : JsonText) (bytes : Bytes) : Except Fault (Option Bytes) :=
  if isBinaryCell bytes then
    match decode (bytes.drop 2) with
    | .ok v => .ok (some (json.print v))
    | .error .malformed => .ok none
    | .error .panic => .error .panic
  else .ok none

mutual

/-- What the encoding keeps of a document: integers from 2⁶³ on are floats. -/
def narrowed : Json → Json
  | .int n => if n < 2 ^ 63 then .int n else .float (floatOfU64 n.toNat)
  | .array items => .array (narrowedItems items)
  | .object entries => .object (narrowedEntries entries)
  | v => v

def narrowedItems : List Json → List Json
  | [] => []
  | v :: items => narrowed v :: narrowedItems items

def narrowedEntries : List (Bytes × Json) → List (Bytes × Json)
  | [] => []
  | (k, v) :: entries => (k, narrowed v) :: narrowedEntries entries

end

theorem length_narrowedItems (items : List Json) : (narrowedItems items).length = items.length := by
  induction items with
  | nil => rfl
  | cons v items ih => simp [narrowedItems, ih]

theorem narrowedEntries_keys (entries : List (Bytes × Json)) :
    (narrowedEntries entries).map Prod.fst = entries.map Prod.fst := by
  induction entries with
  | nil => rfl
  | cons e entries ih => simp [narrowedEntries, ih]

theorem length_narrowedEntries (entries : List (Bytes × Json)) :
    (narrowedEntries entries).length = entries.length := by
  simpa using congrArg length (narrowedEntries_keys entries)

mutual

theorem encodeInto_narrowed (v : Json) : encodeInto (narrowed v) = encodeInto v := by
  match v with
  | .null | .bool _ | .float _ | .string _ => simp only [narrowed]
  | .int n =>
    by_cases hn : n < 2 ^ 63
    · simp only [narrowed, if_pos hn]
    · simp only [narrowed, encodeInto, if_neg hn]
  | .array items =>
    simp only [narrowed, encodeInto, length_narrowedItems, encodeItems_narrowed items]
  | .object entries =>
    simp only [narrowed, encodeInto, length_narrowedEntries, encodeEntries_narrowed entries]

theorem encodeItems_narrowed (items : List Json) :
    encodeItems (narrowedItems items) = encodeItems items := by
  match items with
  | [] => rfl
  | v :: items =>
    simp only [narrowedItems, encodeItems, encodeInto_narrowed v, encodeItems_narrowed items]

theorem encodeEntries_narrowed (entries : List (Bytes × Json)) :
    encodeEntries (narrowedEntries entries) = encodeEntries entries := by
  match entries with
  | [] => rfl
  | (k, v) :: entries =>
    simp only [narrowedEntries, encodeEntries, encodeInto_narrowed v,
      encodeEntries_narrowed entries]

end

theorem floatOfU64_finite (hlow : 2 ^ 63 ≤ n) (hhigh : n < 2 ^ 64) :
    floatOfU64 n < 2 ^ 64 ∧ finite (floatOfU64 n) = true := by
  have hbound : 1086 * 2 ^ 52 ≤ floatOfU64 n ∧ floatOfU64 n ≤ 1087 * 2 ^ 52 := by
    unfold floatOfU64
    dsimp only
    split_ifs <;> omega
  refine ⟨by omega, ?_⟩
  simp only [finite, ne_eq, decide_not, Bool.not_eq_eq_eq_not, Bool.not_true,
    decide_eq_false_iff_not]
  omega

mutual

theorem narrowed_within (v : Json) (h : Within (2 ^ 64) v) : Within (2 ^ 63) (narrowed v) := by
  match v with
  | .null | .bool _ => trivial
  | .float _ | .string _ => exact h
  | .int n =>
    obtain ⟨hlow, hhigh⟩ := h
    by_cases hn : n < 2 ^ 63
    · simpa only [narrowed, if_pos hn] using ⟨hlow, hn⟩
    · rw [narrowed, if_neg hn]
      exact floatOfU64_finite (by omega) (by omega)
  | .array items =>
    obtain ⟨hlength, hitems⟩ := h
    exact ⟨by rw [length_narrowedItems]; exact hlength, narrowedItems_within items hitems⟩
  | .object entries =>
    obtain ⟨hlength, hsorted, hentries⟩ := h
    refine ⟨by rw [length_narrowedEntries]; exact hlength, ?_,
      narrowedEntries_within entries hentries⟩
    have hkeys := pairwise_map (f := Prod.fst).mpr hsorted
    rw [← narrowedEntries_keys] at hkeys
    exact pairwise_map.mp hkeys

theorem narrowedItems_within (items : List Json) (h : ItemsWithin (2 ^ 64) items) :
    ItemsWithin (2 ^ 63) (narrowedItems items) := by
  match items with
  | [] => trivial
  | v :: items => exact ⟨narrowed_within v h.1, narrowedItems_within items h.2⟩

theorem narrowedEntries_within (entries : List (Bytes × Json))
    (h : EntriesWithin (2 ^ 64) entries) :
    EntriesWithin (2 ^ 63) (narrowedEntries entries) := by
  match entries with
  | [] => trivial
  | (k, v) :: entries => exact ⟨h.1, narrowed_within v h.2.1, narrowedEntries_within entries h.2.2⟩

end

mutual

theorem narrowed_eq (v : Json) (h : Within (2 ^ 63) v) : narrowed v = v := by
  match v with
  | .null | .bool _ | .float _ | .string _ => simp only [narrowed]
  | .int n => simp only [narrowed, if_pos h.2]
  | .array items => simp only [narrowed, narrowedItems_eq items h.2]
  | .object entries => simp only [narrowed, narrowedEntries_eq entries h.2.2]

theorem narrowedItems_eq (items : List Json) (h : ItemsWithin (2 ^ 63) items) :
    narrowedItems items = items := by
  match items with
  | [] => rfl
  | v :: items => simp only [narrowedItems, narrowed_eq v h.1, narrowedItems_eq items h.2]

theorem narrowedEntries_eq (entries : List (Bytes × Json)) (h : EntriesWithin (2 ^ 63) entries) :
    narrowedEntries entries = entries := by
  match entries with
  | [] => rfl
  | (k, v) :: entries =>
    simp only [narrowedEntries, narrowed_eq v h.2.1, narrowedEntries_eq entries h.2.2]

end

section Narrowed

variable {v w : Json} (hv : Within (2 ^ 64) v) (hsize : (encodeInto v).length < 2 ^ 64)

include hv

theorem narrowed_eq_iff : narrowed v = v ↔ Within (2 ^ 63) v :=
  ⟨fun h => h ▸ narrowed_within v hv, narrowed_eq v⟩

include hsize

theorem decode_narrowed : decodeAt (encodeInto v).length (encodeInto v).length (encodeInto v) =
    .ok (narrowed v, []) ∧
    decode (encodeInto v) = .ok (narrowed v) := by
  have hwithin := narrowed_within v hv
  have hsize' : (encodeInto (narrowed v)).length < 2 ^ 64 := by rwa [encodeInto_narrowed]
  have hat := decodeAt_encodeInto_self hwithin hsize'
  have hdecode := decode_encodeInto hwithin hsize'
  rw [encodeInto_narrowed] at hat hdecode
  exact ⟨hat, hdecode⟩

theorem encodeInto_eq_iff (hw : Within (2 ^ 64) w) :
    encodeInto v = encodeInto w ↔ narrowed v = narrowed w := by
  constructor
  · intro heq
    have hdecode := (decode_narrowed hv hsize).2
    rw [heq, (decode_narrowed hw (heq ▸ hsize)).2] at hdecode
    exact (Except.ok.inj hdecode).symm
  · intro heq
    rw [← encodeInto_narrowed v, heq, encodeInto_narrowed w]

theorem decodeCell_encodeCell {json : JsonText} (hparse : json.parse text = some v) :
    decodeCell json (encodeCell json text) = .ok (some (json.print (narrowed v))) := by
  have hmarked : isBinaryCell (cellMarker ++ encodeInto v) =
    true := by simp [isBinaryCell, cellMarker]
  have hrest : (cellMarker ++ encodeInto v).drop 2 = encodeInto v := rfl
  simp [decodeCell, encodeCell, hparse, hmarked, hrest, (decode_narrowed hv hsize).2]

end Narrowed

end StorageJsonb
