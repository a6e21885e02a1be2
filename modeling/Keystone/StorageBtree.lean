import Keystone.ByteCodecs
import Keystone.GuardedRuns
import Keystone.OrderedMaps
import Keystone.SliceSearch
import Keystone.StorageInternalKey

/-! # The on-disk B-tree

A secondary index maps a column value to a primary key. Nodes live in one file behind an eight-byte
root pointer; a node is rewritten in place, and a new one goes where the stream position happens to
be. A leaf that splits hands its middle key to the parent, and an internal node keeps no values. -/
namespace StorageBtree

open ByteCodecs GuardedRuns Option OrderedMaps SliceSearch StorageInternalKey OrderedMap
open List (append_assoc length_append length_drop length_map mem_cons mem_cons_self mem_map
  mem_of_getElem? mem_of_mem_drop)

def order : ℕ := 64

inductive Node where
  | internal (keys : List Bytes) (children : List ℕ)
  | leaf (keys values : List Bytes)
  deriving DecidableEq

/-- `unexpectedEof` is the error of `read_exact`; the other two end the process. -/
inductive BtreeError where
  | unexpectedEof
  | indexOutOfBounds (index : ℕ)
  | stackOverflow
  deriving DecidableEq

structure File where
  bytes : Bytes
  pos : ℕ
  deriving DecidableEq

/-- Bytes are overwritten, and a gap before the position is filled with zeros. -/
def File.writeAll (f : File) (data : Bytes) : File where
  bytes := (f.bytes ++ List.replicate (f.pos - f.bytes.length) 0).take f.pos ++
    (data ++ f.bytes.drop (f.pos + data.length))
  pos := f.pos + data.length

def File.seek (f : File) (offset : ℕ) : File := { f with pos := offset }

def encodeNode : Node → Bytes
  | .leaf keys values =>
    0 :: (encodeBE 4 keys.length ++ ((keys.map encodeField).flatten ++
      (values.map encodeField).flatten))
  | .internal keys children =>
    1 :: (encodeBE 4 keys.length ++ ((keys.map encodeField).flatten ++
      (children.map (encodeBE 8)).flatten))

def readFields : ℕ → Bytes → Option (List Bytes × Bytes)
  | 0, buf => some ([], buf)
  | count + 1, buf => do
    let (field, buf) ← readField buf
    let (fields, buf) ← readFields count buf
    some (field :: fields, buf)

def readOffsets : ℕ → Bytes → Option (List ℕ × Bytes)
  | 0, buf => some ([], buf)
  | count + 1, buf => do
    let (offset, buf) ← readBE 8 buf
    let (offsets, buf) ← readOffsets count buf
    some (offset :: offsets, buf)

def parseNode (buf : Bytes) : Option (Node × Bytes) := do
  let (tag, buf) ← readBE 1 buf
  let (count, buf) ← readBE 4 buf
  let (keys, buf) ← readFields count buf
  if tag = 0 then
    let (values, buf) ← readFields count buf
    some (.leaf keys values, buf)
  else
    let (children, buf) ← readOffsets (count + 1) buf
    some (.internal keys children, buf)

def readNode (f : File) (offset : ℕ) : Except BtreeError (Node × File) :=
  match parseNode (f.bytes.drop offset) with
  | none => .error .unexpectedEof
  | some (node, rest) => .ok (node, f.seek (f.bytes.length - rest.length))

def writeNodeAt (f : File) (offset : ℕ) (node : Node) : File :=
  (f.seek offset).writeAll (encodeNode node)

def writeNode (f : File) (node : Node) : ℕ × File := (f.pos, writeNodeAt f f.pos node)

def writeRoot (f : File) (offset : ℕ) : File := (f.seek 0).writeAll (encodeBE 8 offset)

def findKey (keys : List Bytes) (key : Bytes) : Except ℕ ℕ :=
  binarySearchBy (fun k => compareOfLessAndEq k key) keys

def keyPos (keys : List Bytes) (key : Bytes) : ℕ :=
  match findKey keys key with
  | .ok p => p
  | .error p => p

def childPos (keys : List Bytes) (key : Bytes) : ℕ :=
  match findKey keys key with
  | .ok p => p + 1
  | .error p => p

def insertAt {α : Type*} (xs : List α) (pos : ℕ) (x : α) : List α := xs.take pos ++ x :: xs.drop pos

def leafInsert (keys values : List Bytes) (key value : Bytes) : List Bytes × List Bytes :=
  let pos := keyPos keys key
  if keys[pos]? = some key then (keys, values.set pos value)
  else (insertAt keys pos key, insertAt values pos value)

abbrev Split := Bytes × ℕ × ℕ

/-- The recursion follows child offsets. A path longer than the file comes back to an offset it
has been at and never ends, so the fuel of the callers below is no bound of the model. -/
def insertIntoNode : ℕ → File → ℕ → Bytes → Bytes → Except BtreeError (Option Split × File)
  | 0, _, _, _, _ => .error .stackOverflow
  | fuel + 1, f, offset, key, value => do
    let (node, f) ← readNode f offset
    match node with
    | .leaf keys values =>
      let (keys, values) := leafInsert keys values key value
      if order ≤ keys.length then
        -- the middle key and its value go into neither half
        let mid := keys.length / 2
        let promoted := keys.getD mid []
        let (right, f) := writeNode f (.leaf (keys.drop (mid + 1)) (values.drop (mid + 1)))
        let (left, f) := writeNode f (.leaf (keys.take mid) (values.take mid))
        .ok (some (promoted, left, right), f)
      else .ok (none, writeNodeAt f offset (.leaf keys values))
    | .internal keys children =>
      let pos := childPos keys key
      match children[pos]? with
      | none => .error (.indexOutOfBounds pos)
      | some child =>
        let (result, f) ← insertIntoNode fuel f child key value
        match result with
        | none => .ok (none, f)
        | some (promoted, left, right) =>
          let insertPos := keyPos keys promoted
          let keys := insertAt keys insertPos promoted
          let children := insertAt (children.set insertPos left) (insertPos + 1) right
          if order ≤ keys.length then
            let mid := keys.length / 2
            let promoted := keys.getD mid []
            let (right, f) :=
              writeNode f (.internal (keys.drop (mid + 1)) (children.drop (mid + 1)))
            .ok (some (promoted, offset, right),
              writeNodeAt f offset (.internal (keys.take mid) (children.take mid)))
          else .ok (none, writeNodeAt f offset (.internal keys children))

def searchInNode : ℕ → File → ℕ → Bytes → Except BtreeError (Option Bytes)
  | 0, _, _, _ => .error .stackOverflow
  | fuel + 1, f, offset, key => do
    let (node, f) ← readNode f offset
    match node with
    | .leaf keys values =>
      match findKey keys key with
      | .ok p => .ok (some (values.getD p []))
      | .error _ => .ok none
    | .internal keys children =>
      let pos := childPos keys key
      match children[pos]? with
      | none => .error (.indexOutOfBounds pos)
      | some child => searchInNode fuel f child key

def scanNode : ℕ → File → ℕ → Except BtreeError (List (Bytes × Bytes))
  | 0, _, _ => .error .stackOverflow
  | fuel + 1, f, offset => do
    let (node, f) ← readNode f offset
    match node with
    | .leaf keys values => .ok (keys.zip values)
    | .internal _ children => do
      let results ← children.mapM (scanNode fuel f)
      .ok results.flatten

structure BTree where
  root : Option ℕ
  bytes : Bytes
  deriving DecidableEq

namespace BTree

/-- A file with less than eight bytes, or a zero root pointer, is an empty tree. -/
def «open» (bytes : Bytes) : BTree where
  root := match readBE 8 bytes with
    | some (offset, _) => if 0 < offset then some offset else none
    | none => none
  bytes := bytes

def insert (t : BTree) (key value : Bytes) : Except BtreeError BTree :=
  let f : File := ⟨t.bytes, 0⟩
  match t.root with
  | none =>
    let f := (f.seek 0).writeAll (encodeBE 8 0)
    let (offset, f) := writeNode f (.leaf [key] [value])
    .ok ⟨some offset, (writeRoot f offset).bytes⟩
  | some root => do
    let (result, f) ← insertIntoNode (t.bytes.length + 1) f root key value
    match result with
    | none => .ok { t with bytes := f.bytes }
    | some (promoted, left, right) =>
      let (offset, f) := writeNode f (.internal [promoted] [left, right])
      .ok ⟨some offset, (writeRoot f offset).bytes⟩

def search (t : BTree) (key : Bytes) : Except BtreeError (Option Bytes) :=
  match t.root with
  | none => .ok none
  | some root => searchInNode (t.bytes.length + 1) ⟨t.bytes, 0⟩ root key

def scan (t : BTree) : Except BtreeError (List (Bytes × Bytes)) :=
  match t.root with
  | none => .ok []
  | some root => scanNode (t.bytes.length + 1) ⟨t.bytes, 0⟩ root

end BTree

inductive Op where
  | insert (key value : Bytes)
  | reopen
  deriving DecidableEq

/-- An insert that fails has written nothing: it only fails on the way down. -/
def step (t : BTree) : Op → BTree
  | .insert key value => match t.insert key value with
    | .ok t' => t'
    | .error _ => t
  | .reopen => .open t.bytes

def record (m : OrderedMap Bytes Bytes) : Op → OrderedMap Bytes Bytes
  | .insert key value => m.insert key value
  | .reopen => m

/-- Searches and the scan answer as the map does: the last value of each key, in key order. -/
structure IsMap (t : BTree) (m : OrderedMap Bytes Bytes) : Prop where
  search : ∀ k, t.search k = .ok (m.get? k)
  scan : t.scan = .ok m.entries

variable {fields : List Bytes}

theorem readFields_encode (h : ∀ x ∈ fields, x.length < 2 ^ 32) (rest : Bytes) :
    readFields fields.length ((fields.map encodeField).flatten ++ rest) = some (fields, rest) := by
  induction fields with
  | nil => rfl
  | cons x fields ih =>
    have hx : x.length < 256 ^ 4 := h x mem_cons_self
    simp [readFields, readField_encodeField hx, ih fun y hy => h y (.tail _ hy)]

theorem readOffsets_encode (h : ∀ x ∈ offsets, x < 2 ^ 64) (rest : Bytes) :
    readOffsets offsets.length ((offsets.map (encodeBE 8)).flatten ++ rest) =
      some (offsets, rest) := by
  induction offsets with
  | nil => rfl
  | cons x offsets ih =>
    have hx : x < 256 ^ 8 := h x mem_cons_self
    simp [readOffsets, readBE_encodeBE hx, ih fun y hy => h y (.tail _ hy)]

theorem readBE_one_cons : readBE 1 (b :: rest) = some (b.toNat, rest) := by
  simp [readBE, readBytes, decodeBE]

variable {keys : List Bytes}

theorem parseNode_leaf (hlen : keys.length = values.length) (hcount : keys.length < 2 ^ 32)
    (hkeys : ∀ x ∈ keys, x.length < 2 ^ 32) (hvalues : ∀ x ∈ values, x.length < 2 ^ 32) :
    parseNode (encodeNode (.leaf keys values) ++ rest) = some (.leaf keys values, rest) := by
  have hcount' : keys.length < 256 ^ 4 := hcount
  have hreadValues := readFields_encode hvalues rest
  rw [← hlen] at hreadValues
  simp [parseNode, encodeNode, readBE_one_cons, readBE_encodeBE hcount', readFields_encode hkeys,
    hreadValues]

theorem parseNode_internal (hlen : children.length = keys.length + 1)
    (hcount : keys.length < 2 ^ 32)
    (hkeys : ∀ x ∈ keys, x.length < 2 ^ 32) (hchildren : ∀ x ∈ children, x < 2 ^ 64) :
    parseNode (encodeNode (.internal keys children) ++ rest) =
      some (.internal keys children, rest) := by
  have hcount' : keys.length < 256 ^ 4 := hcount
  have hreadChildren := readOffsets_encode hchildren rest
  rw [hlen] at hreadChildren
  have htag : (1 : UInt8).toNat ≠ 0 := by decide
  simp [parseNode, encodeNode, readBE_one_cons, readBE_encodeBE hcount', readFields_encode hkeys,
    hreadChildren]

variable {offset : ℕ} {f : File}

theorem readNode_at (h : At f.bytes offset (encodeNode node ++ rest))
    (hparse : parseNode (encodeNode node ++ rest) = some (node, rest)) :
    readNode f offset = .ok (node, f.seek (offset + (encodeNode node).length)) := by
  have hlen := h.length_eq
  rw [length_append] at hlen
  have hpos : f.bytes.length - rest.length = offset + (encodeNode node).length := by omega
  simp [readNode, h.drop_eq, hparse, hpos]

theorem writeAll_front (front rest data : Bytes) :
    (⟨front ++ rest, front.length⟩ : File).writeAll data =
      ⟨front ++ data ++ rest.drop data.length, (front ++ data).length⟩ := by
  have hgap : front.length - (front ++ rest).length = 0 := by
    rw [length_append]
    omega
  have hdrop : (front ++ rest).drop (front.length + data.length) = rest.drop data.length := by
    rw [← List.drop_drop, List.drop_left]
  simp only [File.writeAll, hgap, List.replicate_zero, List.append_nil]
  rw [List.take_left, hdrop, append_assoc, length_append]

theorem writeNode_front (front rest : Bytes) (node : Node) :
    writeNode ⟨front ++ rest, front.length⟩ node = (front.length,
      ⟨front ++ encodeNode node ++ rest.drop (encodeNode node).length,
        (front ++ encodeNode node).length⟩) := by
  simp [writeNode, writeNodeAt, File.seek, writeAll_front]

theorem writeNodeAt_front (front rest : Bytes) (pos : ℕ) (node : Node) :
    writeNodeAt ⟨front ++ rest, pos⟩ front.length node =
      ⟨front ++ encodeNode node ++ rest.drop (encodeNode node).length,
        (front ++ encodeNode node).length⟩ := by
  simp [writeNodeAt, File.seek, writeAll_front]

theorem writeRoot_header (hlen : header.length = 8) :
    (writeRoot ⟨header ++ rest, pos⟩ offset).bytes = encodeBE 8 offset ++ rest := by
  have h := writeAll_front [] (header ++ rest) (encodeBE 8 offset)
  have hdrop : (header ++ rest).drop 8 = rest := by
    rw [← hlen]
    exact List.drop_left
  rw [List.nil_append, List.length_nil, List.nil_append, length_encodeBE, hdrop] at h
  simp [writeRoot, File.seek, h]

section OneNode

variable {f f' : File} {offset : ℕ} {keys vals : List Bytes}
  (h : readNode f offset = .ok (.leaf keys vals, f'))

include h

theorem searchInNode_leaf : searchInNode (fuel + 1) f offset key = .ok (match findKey keys key with
      | .ok p => some (vals.getD p [])
      | .error _ => none) := by
  simp only [searchInNode, h, bind, Except.bind]
  cases findKey keys key <;> rfl

variable {key : Bytes}

omit h in
theorem searchInNode_internal (h : readNode f offset = .ok (.internal keys children, f'))
    (hchild : children[childPos keys key]? = some child) :
    searchInNode (fuel + 1) f offset key = searchInNode fuel f' child key := by
  simp only [searchInNode, h, bind, Except.bind, hchild]

theorem scanNode_leaf : scanNode (fuel + 1) f offset = .ok (keys.zip vals) := by
  simp only [scanNode, h, bind, Except.bind]

theorem insertIntoNode_leaf (hinsert : leafInsert keys vals key value = (keys', vals'))
    (hcount : keys'.length < order) (fuel : ℕ) :
    insertIntoNode (fuel + 1) f offset key value =
      .ok (none, writeNodeAt f' offset (.leaf keys' vals')) := by
  simp only [insertIntoNode, h, bind, Except.bind, hinsert, if_neg (not_le.mpr hcount)]

theorem insertIntoNode_split (hinsert : leafInsert keys vals key value = (keys', vals'))
    (hcount : order ≤ keys'.length) (fuel : ℕ) :
    insertIntoNode (fuel + 1) f offset key value = (let mid := keys'.length / 2
       let right := writeNode f' (.leaf (keys'.drop (mid + 1)) (vals'.drop (mid + 1)))
       let left := writeNode right.2 (.leaf (keys'.take mid) (vals'.take mid))
       .ok (some (keys'.getD mid [], left.1, right.1), left.2)) := by
  simp only [insertIntoNode, h, bind, Except.bind, hinsert, if_pos hcount]

end OneNode

section Leaf

variable {keys : List Bytes} {key : Bytes} {p : ℕ}

theorem findKey_ok (h : findKey keys key = .ok p) : keys[p]? = some key := by
  obtain ⟨x, hx, heq⟩ := binarySearchBy_ok h
  rw [hx, (compareOfLessAndEq_eq_eq le_refl not_le).mp heq]

theorem compareOfLessAndEq_ordered (hs : keys.Pairwise (· < ·)) :
    Ordered (fun k => compareOfLessAndEq k key) keys := by
  refine hs.imp fun {a b} hab => ⟨fun ha => ?_, fun hb => ?_⟩
  · rw [compareOfLessAndEq_eq_gt le_antisymm le_total not_le] at ha ⊢
    exact lt_trans ha hab
  · rw [compareOfLessAndEq_eq_lt] at hb ⊢
    exact lt_trans hab hb

theorem findKey_error (hs : keys.Pairwise (· < ·)) (h : findKey keys key = .error p) :
    p ≤ keys.length ∧ (∀ x ∈ keys.take p, x < key) ∧ ∀ x ∈ keys.drop p, key < x := by
  obtain ⟨hp, hbefore, hafter⟩ := binarySearchBy_error_split (compareOfLessAndEq_ordered hs) h
  refine ⟨hp, fun x hx => ?_, fun x hx => ?_⟩
  · exact compareOfLessAndEq_eq_lt.mp (hbefore x hx)
  · exact (compareOfLessAndEq_eq_gt le_antisymm le_total not_le x key).mp (hafter x hx)

end Leaf

def values (m : OrderedMap Bytes Bytes) : List Bytes := m.entries.map Prod.snd

theorem keys_sorted (m : OrderedMap Bytes Bytes) : m.keys.Pairwise (· < ·) :=
  List.pairwise_map.mpr m.sorted

variable {m : OrderedMap Bytes Bytes} {p : ℕ} {k : Bytes}

theorem findKey_keys_ok (h : findKey m.keys k = .ok p) : ∃ w, m.entries[p]? = some (k, w) := by
  have hkey := findKey_ok h
  rw [keys, List.getElem?_map, map_eq_some_iff] at hkey
  obtain ⟨⟨_, w⟩, he, rfl⟩ := hkey
  exact ⟨w, he⟩

theorem findKey_get? : (match findKey m.keys k with
      | .ok p => some ((values m).getD p [])
      | .error _ => none) = m.get? k := by
  cases h : findKey m.keys k with
  | ok p =>
    obtain ⟨w, he⟩ := findKey_keys_ok h
    rw [get?_eq_some.mpr (mem_of_getElem? he)]
    simp [values, he]
  | error p =>
    obtain ⟨_, hbefore, hafter⟩ := findKey_error (keys_sorted m) h
    symm
    rw [get?_eq_none]
    rintro e he rfl
    have hmem : e.1 ∈ m.keys.take p ++ m.keys.drop p := by
      rw [List.take_append_drop]
      exact List.mem_map_of_mem he
    rcases List.mem_append.mp hmem with hmem | hmem
    · exact lt_irrefl _ (hbefore _ hmem)
    · exact lt_irrefl _ (hafter _ hmem)

theorem insert_entries_of_found (he : m.entries[p]? = some (k, w)) :
    (m.insert k v).entries = m.entries.set p (k, v) := by
  obtain ⟨hp, heq⟩ := List.getElem?_eq_some_iff.mp he
  have hsplit : m.entries = m.entries.take p ++ (k, w) :: m.entries.drop (p + 1) := by
    rw [← heq, ← List.drop_eq_getElem_cons hp, List.take_append_drop]
  have hsorted := m.sorted
  rw [hsplit] at hsorted
  have hfront : ∀ e ∈ m.entries.take p, e.1 < k := fun e hmem =>
    (List.pairwise_append.mp hsorted).2.2 e hmem (k, w) mem_cons_self
  rw [List.set_eq_take_append_cons_drop, if_pos hp, entries_insert]
  conv_lhs => rw [hsplit]
  rw [upsertList_append hfront]
  simp [upsertList]

theorem insert_entries_of_missing (h : findKey m.keys k = .error p) :
    (m.insert k v).entries = insertAt m.entries p (k, v) := by
  obtain ⟨_, hbefore, hafter⟩ := findKey_error (keys_sorted m) h
  have hfront : ∀ e ∈ m.entries.take p, e.1 < k := fun e he => by
    refine hbefore e.1 ?_
    rw [keys, ← List.map_take]
    exact List.mem_map_of_mem he
  have hback : ∀ e ∈ m.entries.drop p, k < e.1 := fun e he => by
    refine hafter e.1 ?_
    rw [keys, ← List.map_drop]
    exact List.mem_map_of_mem he
  rw [entries_insert]
  conv_lhs => rw [← List.take_append_drop p m.entries]
  rw [upsertList_append hfront, upsertList_of_lt hback, insertAt]

theorem map_insertAt (f : α → β) (p : ℕ) (x : α) :
    (insertAt xs p x).map f = insertAt (xs.map f) p (f x) := by
  simp [insertAt]

theorem leafInsert_eq : leafInsert m.keys (values m) k v =
    ((m.insert k v).keys, values (m.insert k v)) := by
  unfold leafInsert
  cases h : findKey m.keys k with
  | ok p =>
    have hpos : keyPos m.keys k = p := by simp [keyPos, h]
    have hkey := findKey_ok h
    obtain ⟨w, he⟩ := findKey_keys_ok h
    have hkeys : (m.insert k v).keys = m.keys := by
      obtain ⟨hp, heq⟩ := List.getElem?_eq_some_iff.mp hkey
      rw [keys, insert_entries_of_found he, List.map_set]
      change m.keys.set p k = m.keys
      rw [← heq, List.set_getElem_self]
    rw [hpos, if_pos hkey, hkeys, values, values, insert_entries_of_found he, List.map_set]
  | error p =>
    have hpos : keyPos m.keys k = p := by simp [keyPos, h]
    have hmiss : m.keys[p]? ≠ some k := by
      intro hk
      obtain ⟨_, _, hafter⟩ := findKey_error (keys_sorted m) h
      refine lt_irrefl k (hafter k ?_)
      rw [List.mem_iff_getElem?]
      exact ⟨0, by simpa using hk⟩
    rw [hpos, if_neg hmiss, keys, keys, values, values,
      insert_entries_of_missing h, map_insertAt, map_insertAt]

def Short (e : Bytes × Bytes) : Prop := e.1.length < 2 ^ 32 ∧ e.2.length < 2 ^ 32

def leafOf (m : OrderedMap Bytes Bytes) : Node := .leaf m.keys (values m)

theorem mem_keys_short (h : ∀ e ∈ n.entries, Short e) :
    (∀ x ∈ n.keys, x.length < 2 ^ 32) ∧ ∀ x ∈ values n, x.length < 2 ^ 32 := by
  constructor
  · intro x hx
    obtain ⟨e, he, rfl⟩ := mem_map.mp hx
    exact (h e he).1
  · intro x hx
    obtain ⟨e, he, rfl⟩ := mem_map.mp hx
    exact (h e he).2

/-- Nothing inserted yet, or all of it in the leaf behind the root pointer. What follows the
leaf in the file is left over from longer versions of it. -/
inductive OneLeaf : BTree → OrderedMap Bytes Bytes → Prop where
  | empty : OneLeaf ⟨none, []⟩ .empty
  | leaf {m : OrderedMap Bytes Bytes} (rest : Bytes) (hshort : ∀ e ∈ m.entries, Short e)
      (hcount : m.entries.length < order) :
      OneLeaf ⟨some 8, encodeBE 8 8 ++ (encodeNode (leafOf m) ++ rest)⟩ m

section Leaf

variable {m : OrderedMap Bytes Bytes}

theorem parseNode_leafOf (hshort : ∀ e ∈ m.entries, Short e) (hcount : m.entries.length < order) :
    parseNode (encodeNode (leafOf m) ++ rest) = some (leafOf m, rest) := by
  obtain ⟨hkeys, hvals⟩ := mem_keys_short hshort
  have hlen : m.keys.length = m.entries.length := length_map _
  have hsixtyFour : order = 64 := rfl
  exact parseNode_leaf (by simp [keys, values]) (by omega) hkeys hvals

theorem readNode_leaf (hshort : ∀ e ∈ m.entries, Short e) (hcount : m.entries.length < order)
    (rest : Bytes) (pos : ℕ) :
    readNode ⟨encodeBE 8 8 ++ (encodeNode (leafOf m) ++ rest), pos⟩ 8 =
      .ok (.leaf m.keys (values m), ⟨encodeBE 8 8 ++ (encodeNode (leafOf m) ++ rest),
        8 + (encodeNode (leafOf m)).length⟩) :=
  readNode_at (At.length (encodeBE 8 8) _) (parseNode_leafOf hshort hcount)

theorem OneLeaf.isMap (h : OneLeaf t m) : IsMap t m := by
  cases h with
  | empty => exact ⟨fun k => rfl, rfl⟩
  | leaf rest hshort hcount =>
    have hread := readNode_leaf hshort hcount rest 0
    refine ⟨fun k => ?_, ?_⟩
    · simp only [BTree.search, searchInNode_leaf hread, findKey_get?]
    · have hzip : m.keys.zip (values m) = m.entries := by
        rw [keys, values, List.zip_map']
        exact List.map_id _
      simp [BTree.scan, scanNode_leaf hread, hzip]

theorem OneLeaf.reopen (h : OneLeaf t m) : OneLeaf (.open t.bytes) m := by
  cases h with
  | empty => exact .empty
  | leaf rest hshort hcount =>
    have hwidth : 8 < 256 ^ 8 := by decide
    simp only [BTree.open, readBE_encodeBE hwidth]
    exact .leaf rest hshort hcount

end Leaf

variable {k v : Bytes}

theorem short_insert (hshort : ∀ e ∈ m.entries, Short e) (hkv : Short (k, v)) :
    ∀ e ∈ (m.insert k v).entries, Short e := by
  intro e he
  rcases mem_insert.mp he with rfl | ⟨_, he⟩
  · exact hkv
  · exact hshort e he

variable {t : BTree}

theorem OneLeaf.insert (h : OneLeaf t m) (hkv : Short (k, v))
    (hcount : (m.insert k v).entries.length < order) :
    ∃ t', t.insert k v = .ok t' ∧ OneLeaf t' (m.insert k v) := by
  cases h with
  | empty =>
    have hheader : ((⟨[], 0⟩ : File).seek 0).writeAll (encodeBE 8 0) = ⟨encodeBE 8 0 ++ [], 8⟩ :=
      rfl
    have hnode := writeNode_front (encodeBE 8 0) [] (.leaf [k] [v])
    rw [length_encodeBE, append_assoc] at hnode
    refine ⟨⟨some 8, encodeBE 8 8 ++ (encodeNode (leafOf (OrderedMap.empty.insert k v)) ++
      [].drop (encodeNode (leafOf (OrderedMap.empty.insert k v))).length)⟩, ?_, ?_⟩
    · simp only [BTree.insert]
      rfl
    · exact .leaf _ (short_insert (by simp) hkv) hcount
  | leaf rest hshort hcount' =>
    have hread := readNode_leaf hshort hcount' rest 0
    have hlen : (m.insert k v).keys.length < order := by
      rw [OrderedMap.keys, length_map]
      exact hcount
    have hwrite := writeNodeAt_front (encodeBE 8 8) (encodeNode (leafOf m) ++ rest)
      (8 + (encodeNode (leafOf m)).length) (leafOf (m.insert k v))
    rw [length_encodeBE, append_assoc] at hwrite
    refine ⟨⟨some 8, encodeBE 8 8 ++ (encodeNode (leafOf (m.insert k v)) ++
      (encodeNode (leafOf m) ++
      rest).drop (encodeNode (leafOf (m.insert k v))).length)⟩, ?_, ?_⟩
    · have hnode := insertIntoNode_leaf hread leafInsert_eq hlen
      rw [← leafOf, hwrite] at hnode
      simp only [BTree.insert, hnode, bind, Except.bind]
    · exact .leaf _ (short_insert hshort hkv) hcount

theorem readFields_short (h : readFields count buf = some (fields, rest)) :
    ∀ x ∈ fields, x.length < 2 ^ 32 := by
  induction count generalizing buf fields with
  | zero =>
    obtain ⟨rfl, _⟩ := Prod.mk.inj (some.inj h)
    simp
  | succ count ih =>
    simp only [readFields, bind_eq_bind, bind_eq_some_iff, Prod.exists] at h
    obtain ⟨x, mid, hx, xs, tail, hxs, rfl, rfl⟩ := h
    intro y hy
    rcases mem_cons.mp hy with rfl | hy
    · exact readField_lt hx
    · exact ih hxs y hy

variable {keys vals : List Bytes}

theorem readNode_leaf_short (h : readNode f offset = .ok (.leaf keys vals, f')) :
    (∀ x ∈ keys, x.length < 2 ^ 32) ∧ ∀ x ∈ vals, x.length < 2 ^ 32 := by
  unfold readNode at h
  cases hparse : parseNode (f.bytes.drop offset) with
  | none => simp [hparse] at h
  | some node =>
    simp only [hparse, Except.ok.injEq, Prod.mk.injEq] at h
    simp only [parseNode, bind_eq_bind, bind_eq_some_iff, Prod.exists] at hparse
    obtain ⟨tag, _, _, count, _, _, ks, rest, hkeys, hrest⟩ := hparse
    split_ifs at hrest with htag
    · simp only [bind_eq_some_iff, Prod.exists] at hrest
      obtain ⟨vs, _, hvals, hnode⟩ := hrest
      rw [← some.inj hnode] at h
      obtain ⟨rfl, rfl⟩ := Node.leaf.inj h.1
      exact ⟨readFields_short hkeys, readFields_short hvals⟩
    · simp only [bind_eq_some_iff, Prod.exists] at hrest
      obtain ⟨_, _, _, hnode⟩ := hrest
      rw [← some.inj hnode] at h
      cases h.1

theorem searchInNode_short (h : searchInNode fuel f offset key = .ok (some value)) :
    Short (key, value) := by
  induction fuel generalizing f offset with
  | zero => cases h
  | succ fuel ih =>
    cases hread : readNode f offset with
    | error e => simp [searchInNode, hread, bind, Except.bind] at h
    | ok read =>
      obtain ⟨node, f'⟩ := read
      cases node with
      | leaf keys vals =>
        obtain ⟨hkeys, hvals⟩ := readNode_leaf_short hread
        rw [searchInNode_leaf hread] at h
        cases hfind : findKey keys key with
        | error p => simp [hfind] at h
        | ok p =>
          simp only [hfind, Except.ok.injEq, some.injEq] at h
          refine ⟨hkeys key (mem_of_getElem? (findKey_ok hfind)), ?_⟩
          rw [List.getD_eq_getElem?_getD] at h
          cases hp : vals[p]? with
          | none =>
            rw [hp] at h
            subst h
            exact Nat.two_pow_pos 32
          | some v =>
            rw [hp] at h
            subst h
            exact hvals v (mem_of_getElem? hp)
      | internal keys children =>
        cases hchild : children[childPos keys key]? with
        | none => simp [searchInNode, hread, bind, Except.bind, hchild] at h
        | some child =>
          rw [searchInNode_internal hread hchild] at h
          exact ih h

theorem search_short (h : t.search key = .ok (some value)) : Short (key, value) := by
  unfold BTree.search at h
  cases hroot : t.root with
  | none => simp [hroot] at h
  | some root =>
    rw [hroot] at h
    exact searchInNode_short h

theorem length_fields_le (h : ∀ x ∈ fields, x.length < 2 ^ 32) :
    (fields.map encodeField).flatten.length ≤ fields.length * (2 ^ 32 + 4) := by
  induction fields with
  | nil => simp
  | cons x fields ih =>
    have hx := h x mem_cons_self
    have hrest := ih fun y hy => h y (.tail _ hy)
    rw [List.map_cons, List.flatten_cons, length_append, length_encodeField, List.length_cons,
      Nat.succ_mul]
    omega

theorem length_encodeNode_leaf (hkeys : ∀ x ∈ keys, x.length < 2 ^ 32)
    (hvals : ∀ x ∈ vals, x.length < 2 ^ 32)
    (hk : keys.length ≤ order) (hv : vals.length ≤ order) :
    (encodeNode (.leaf keys vals)).length < 2 ^ 60 := by
  have hkeyBytes := (length_fields_le hkeys).trans (Nat.mul_le_mul_right _ hk)
  have hvalBytes := (length_fields_le hvals).trans (Nat.mul_le_mul_right _ hv)
  simp only [order] at hkeyBytes hvalBytes
  simp only [encodeNode, List.length_cons, length_append, length_encodeBE]
  omega

/-- After a split the right half, the left half and the new root follow each other. -/
def splitBytes (front : Bytes) (right left : Node) (promoted tail : Bytes) : Bytes :=
  front ++ encodeNode right ++ encodeNode left ++ encodeNode (.internal [promoted]
    [(front ++ encodeNode right).length, front.length]) ++ tail

def splitRoot (front : Bytes) (right left : Node) : ℕ :=
  (front ++ encodeNode right ++ encodeNode left).length

theorem findKey_self : findKey [key] key = .ok 0 := by
  have heq : compareOfLessAndEq key key = .eq := (compareOfLessAndEq_eq_eq le_refl not_le).mpr rfl
  simp [findKey, binarySearchBy, narrow, compareAt, heq]

/-- A search for the promoted key goes to the right half, which does not have it. -/
theorem search_promoted (hlen : keys.length = vals.length) (hcount : keys.length < 2 ^ 32)
    (hkeys : ∀ x ∈ keys, x.length < 2 ^ 32) (hvals : ∀ x ∈ vals, x.length < 2 ^ 32)
    (hpromoted : promoted.length < 2 ^ 32) (hmissing : promoted ∉ keys)
    (hroom : (front ++ encodeNode (.leaf keys vals)).length < 2 ^ 64) :
    (⟨some (splitRoot front (.leaf keys vals) left),
      splitBytes front (.leaf keys vals) left promoted tail⟩ : BTree).search promoted =
        .ok none := by
  have hfront : front.length < 2 ^ 64 := by
    rw [length_append] at hroom
    omega
  set bytes := splitBytes front (.leaf keys vals) left promoted tail with hbytes
  let children := [(front ++ encodeNode (.leaf keys vals)).length, front.length]
  have hrootAt : At bytes (splitRoot front (.leaf keys vals) left)
      (encodeNode (.internal [promoted] children) ++ tail) := by
    rw [hbytes, splitBytes, append_assoc]
    exact At.length _ _
  have hrightAt : At bytes front.length (encodeNode (.leaf keys vals) ++
      (encodeNode left ++ (encodeNode (.internal [promoted] children) ++ tail))) := by
    simp only [hbytes, splitBytes, append_assoc]
    exact At.length _ _
  have hchildren : ∀ x ∈ children, x < 2 ^ 64 :=
    List.forall_mem_cons.mpr ⟨hroom, List.forall_mem_singleton.mpr hfront⟩
  have hroot := readNode_at (f := ⟨bytes, 0⟩) hrootAt
    (parseNode_internal rfl (by simp) (List.forall_mem_singleton.mpr hpromoted) hchildren)
  have hchild : children[childPos [promoted] promoted]? = some front.length := by
    simp [children, childPos, findKey_self]
  have hfind : ∃ p, findKey keys promoted = .error p := by
    cases hfind : findKey keys promoted with
    | ok p => exact absurd (mem_of_getElem? (findKey_ok hfind)) hmissing
    | error p => exact ⟨p, rfl⟩
  obtain ⟨p, hfind⟩ := hfind
  obtain ⟨fuel, hfuel⟩ : ∃ fuel, bytes.length = fuel + 1 := by
    rw [hrightAt.length_eq]
    simp [encodeNode]
  have hright pos := readNode_at (f := ⟨bytes, pos⟩) hrightAt
    (parseNode_leaf hlen hcount hkeys hvals)
  simp only [BTree.search, hfuel]
  rw [searchInNode_internal hroot hchild, File.seek, searchInNode_leaf (hright _), hfind]

theorem splitBytes_header (hlen : header.length = header'.length) (body : Bytes) (right left : Node)
    (promoted tail : Bytes) :
    ∃ rest, splitBytes (header ++ body) right left promoted tail = header ++ rest ∧
      splitBytes (header' ++ body) right left promoted tail = header' ++ rest := by
  simp only [splitBytes, append_assoc, length_append, hlen]
  exact ⟨_, rfl, rfl⟩

/-- The insert that fills the leaf writes both halves and a new root behind it. -/
theorem insert_split (hshort : ∀ e ∈ m.entries, Short e) (hcount : m.entries.length < order)
    (hinsert : leafInsert m.keys (values m) k v = (keys, vals)) (hfull : order ≤ keys.length) :
    ∃ header tail, header.length = 8 ∧
      (⟨some 8, encodeBE 8 8 ++ (encodeNode (leafOf m) ++ rest)⟩ : BTree).insert k v =
        (let mid := keys.length / 2
         let right := Node.leaf (keys.drop (mid + 1)) (vals.drop (mid + 1))
         let left := Node.leaf (keys.take mid) (vals.take mid)
         let front := header ++ encodeNode (leafOf m)
         .ok ⟨some (splitRoot front right left),
          splitBytes front right left (keys.getD mid []) tail⟩) := by
  have hread := readNode_leaf hshort hcount rest 0
  rw [← append_assoc] at hread
  have hpos : 8 + (encodeNode (leafOf m)).length =
    (encodeBE 8 8 ++ encodeNode (leafOf m)).length := by
    rw [length_append, length_encodeBE]
  rw [hpos] at hread
  have hnode := insertIntoNode_split hread hinsert hfull
  simp only [writeNode_front] at hnode ⊢
  generalize Node.leaf (keys.drop (keys.length / 2 + 1)) (vals.drop (keys.length / 2 + 1)) = right
    at hnode ⊢
  generalize Node.leaf (keys.take (keys.length / 2)) (vals.take (keys.length / 2)) = left at hnode ⊢
  generalize keys.getD (keys.length / 2) [] = promoted at hnode ⊢
  let front := encodeBE 8 8 ++ encodeNode (leafOf m)
  let root := Node.internal [promoted] [(front ++ encodeNode right).length, front.length]
  let tail := ((rest.drop (encodeNode right).length).drop (encodeNode left).length).drop
    (encodeNode root).length
  have hroot := writeNode_front (front ++ encodeNode right ++ encodeNode left)
  generalize hat : splitRoot front right left = offset
  obtain ⟨body, hold, hnew⟩ := splitBytes_header
    ((length_encodeBE 8 8).trans (length_encodeBE 8 offset).symm)
      (encodeNode (leafOf m)) right left promoted tail
  refine ⟨encodeBE 8 offset, tail, length_encodeBE 8 _, ?_⟩
  have hoffset : splitRoot (encodeBE 8 offset ++ encodeNode (leafOf m)) right left = offset := by
    simp [← hat, splitRoot, front]
  simp only [hnew, hoffset]
  rw [← append_assoc]
  simp only [BTree.insert, hnode, bind, Except.bind, Except.ok.injEq]
  rw [hroot]
  change (⟨some (splitRoot front right left), (writeRoot ⟨splitBytes front right left promoted tail,
    _⟩ (splitRoot front right left)).bytes⟩ : BTree) = _
  rw [hat, hold, writeRoot_header (length_encodeBE 8 8)]

theorem getD_not_mem_drop (hs : keys.Pairwise (· < ·)) (hmid : mid < keys.length) :
    keys.getD mid [] ∉ keys.drop (mid + 1) := by
  have hget : keys.getD mid [] = keys[mid] := by simp [hmid]
  have hdrop : (keys.drop mid).Pairwise (· < ·) := hs.sublist (List.drop_sublist mid keys)
  rw [List.drop_eq_getElem_cons hmid] at hdrop
  rw [hget]
  exact fun hmem => lt_irrefl _ ((List.pairwise_cons.mp hdrop).1 _ hmem)

def middleKey (m : OrderedMap Bytes Bytes) : Bytes := m.keys.getD (m.keys.length / 2) []

theorem middleKey_mem (h : 0 < m.entries.length) : middleKey m ∈ m.keys := by
  have hlen : m.keys.length = m.entries.length := length_map _
  have hmid : m.keys.length / 2 < m.keys.length := by omega
  rw [middleKey, List.getD_eq_getElem?_getD, List.getElem?_eq_getElem hmid]
  exact List.getElem_mem hmid

/-- The key in the middle of a leaf that becomes full can no longer be found. -/
theorem OneLeaf.insert_full (h : OneLeaf t m) (hkv : Short (k, v))
    (hfull : order ≤ (m.insert k v).entries.length) :
    ∃ t', t.insert k v = .ok t' ∧ t'.search (middleKey (m.insert k v)) = .ok none := by
  cases h with
  | empty =>
    have hone : (OrderedMap.empty.insert k v).entries.length = 1 := rfl
    rw [hone] at hfull
    exact absurd hfull (by decide)
  | leaf rest hshort hcount =>
    have hsixtyFour : order = 64 := rfl
    have hgrow := (length_upsertList (k := k) (f := fun _ => v) m.entries).2
    rw [← entries_insert] at hgrow
    have hkeysLen : (m.insert k v).keys.length = (m.insert k v).entries.length := length_map _
    have hvaluesLen : (values (m.insert k v)).length = (m.insert k v).entries.length :=
      length_map _
    obtain ⟨hkeys, hvals⟩ := mem_keys_short (short_insert hshort hkv)
    obtain ⟨hmkeys, hmvals⟩ := mem_keys_short hshort
    have hmid : (m.insert k v).keys.length / 2 < (m.insert k v).keys.length := by omega
    have hmiddle : middleKey (m.insert k v) ∈ (m.insert k v).keys := middleKey_mem (by omega)
    obtain ⟨header, tail, hheader, hinsert⟩ :=
      insert_split hshort hcount leafInsert_eq (hkeysLen ▸ hfull)
    refine ⟨_, hinsert, ?_⟩
    refine search_promoted ?_ ?_ (fun x hx => hkeys x (mem_of_mem_drop hx))
      (fun x hx => hvals x (mem_of_mem_drop hx)) (hkeys _ hmiddle)
      (getD_not_mem_drop (keys_sorted _) hmid) ?_
    · rw [length_drop, length_drop, hkeysLen, hvaluesLen]
    · rw [length_drop]
      omega
    · have hleaf : (encodeNode (leafOf m)).length < 2 ^ 60 := by
        refine length_encodeNode_leaf hmkeys hmvals ?_ ?_
        · rw [OrderedMap.keys, length_map]
          exact hcount.le
        · rw [values, length_map]
          exact hcount.le
      have hright :
        (encodeNode (.leaf ((m.insert k v).keys.drop ((m.insert k v).keys.length / 2 + 1))
          ((values (m.insert k v)).drop ((m.insert k v).keys.length / 2 + 1)))).length <
            2 ^ 60 := by
        refine length_encodeNode_leaf (fun x hx => hkeys x (mem_of_mem_drop hx))
          (fun x hx => hvals x (mem_of_mem_drop hx)) ?_ ?_
        · rw [length_drop]
          omega
        · rw [length_drop]
          omega
      rw [length_append, length_append, hheader]
      omega

def stepBoth (s : BTree × OrderedMap Bytes Bytes) (op : Op) : BTree × OrderedMap Bytes Bytes :=
  (step s.1 op, record s.2 op)

theorem run_stepBoth : run stepBoth s ops = (run step s.1 ops, run record s.2 ops) := by
  induction ops generalizing s with
  | nil => rfl
  | cons op ops ih => rw [run_cons, ih, run_cons, run_cons, stepBoth]

def Room (s : BTree × OrderedMap Bytes Bytes) : Op → Prop
  | .insert k v => Short (k, v) ∧ (s.2.insert k v).entries.length < order
  | .reopen => True

theorem oneLeaf_step (h : OneLeaf s.1 s.2) (hroom : Room s op) :
    OneLeaf (stepBoth s op).1 (stepBoth s op).2 := by
  cases op with
  | insert k v =>
    obtain ⟨t', hinsert, hleaf⟩ := h.insert hroom.1 hroom.2
    simp only [stepBoth, step, hinsert]
    exact hleaf
  | reopen => exact h.reopen

/-- A step without room loses a key: the one it inserts, or the one in the middle. -/
theorem not_isMap_step (h : OneLeaf s.1 s.2) (hroom : ¬ Room s op) :
    ¬ IsMap (stepBoth s op).1 (stepBoth s op).2 := by
  intro hmap
  cases op with
  | reopen => exact hroom trivial
  | insert k v =>
    by_cases hshort : Short (k, v)
    · have hfull : order ≤ (s.2.insert k v).entries.length :=
        not_lt.mp fun hlt => hroom ⟨hshort, hlt⟩
      have hpos : 0 < (s.2.insert k v).entries.length := lt_of_lt_of_le (by decide) hfull
      obtain ⟨t', hinsert, hlost⟩ := h.insert_full hshort hfull
      obtain ⟨w, hw⟩ := mem_keys.mp (middleKey_mem hpos)
      have hsearch := hmap.search (middleKey (s.2.insert k v))
      simp only [stepBoth, step, record, hinsert, hlost, hw] at hsearch
      cases hsearch
    · refine hshort (search_short (t := (stepBoth s (.insert k v)).1) ?_)
      rw [hmap.search k, stepBoth, record, get?_insert, if_pos rfl]

theorem length_run_record (m : OrderedMap Bytes Bytes) (ops : List Op) :
    m.entries.length ≤ (run record m ops).entries.length := by
  induction ops generalizing m with
  | nil => exact le_rfl
  | cons op ops ih =>
    refine le_trans ?_ (ih (record m op))
    cases op with
    | insert k v => exact (length_upsertList m.entries).1
    | reopen => exact le_rfl

/-- Room in every step, as a condition on the keys and values of the run. -/
theorem along_room_iff (s : BTree × OrderedMap Bytes Bytes) (hs : s.2.entries.length < order) :
    Along stepBoth Room s ops ↔ (run record s.2 ops).entries.length < order ∧
      ∀ k v, Op.insert k v ∈ ops → Short (k, v) := by
  induction ops generalizing s with
  | nil => simpa [Along] using hs
  | cons op ops ih =>
    have hgrow := length_run_record (record s.2 op) ops
    cases op with
    | reopen =>
      have hrest := ih (stepBoth s .reopen) hs
      simp only [Along, Room, true_and, mem_cons, reduceCtorEq, false_or]
      exact hrest
    | insert k v =>
      simp only [mem_cons, Op.insert.injEq]
      constructor
      · rintro ⟨⟨hshort, hroom⟩, hrest⟩
        obtain ⟨hlen, hall⟩ := (ih (stepBoth s (.insert k v)) hroom).mp hrest
        refine ⟨hlen, ?_⟩
        rintro a b (⟨rfl, rfl⟩ | hmem)
        · exact hshort
        · exact hall a b hmem
      · rintro ⟨hlen, hall⟩
        have hroom : (s.2.insert k v).entries.length < order := lt_of_le_of_lt hgrow hlen
        refine ⟨⟨hall k v (.inl ⟨rfl, rfl⟩), hroom⟩, ?_⟩
        exact (ih (stepBoth s (.insert k v)) hroom).mpr ⟨hlen, fun a b h => hall a b (.inr h)⟩

theorem oneLeaf_run (hlen : (run record .empty ops).entries.length < order)
    (hall : ∀ k v, Op.insert k v ∈ ops → Short (k, v)) :
    OneLeaf (run step (.open []) ops) (run record .empty ops) := by
  have halong : Along stepBoth Room (BTree.open [], .empty) ops :=
    (along_room_iff _ (by decide)).mpr ⟨hlen, hall⟩
  have hstart : OneLeaf (BTree.open []) .empty := .empty
  have hend := halong.invariant (I := fun s => OneLeaf s.1 s.2) (fun _ _ h => oneLeaf_step h) hstart
  simpa only [run_stepBoth] using hend

/-- From an empty file the tree is a map after every call of a run exactly if fewer than 64
different keys are inserted, with every key and value shorter than four gigabytes. -/
theorem btree_isMap_iff (ops : List Op) :
    (∀ n, IsMap (run step (.open []) (ops.take n)) (run record .empty (ops.take n))) ↔
      (run record .empty ops).entries.length < order ∧
        ∀ k v, Op.insert k v ∈ ops → Short (k, v) := by
  have hstart : OneLeaf (BTree.open []) .empty := .empty
  have hiff : (∀ n, IsMap (run stepBoth (BTree.open [], .empty) (ops.take n)).1
        (run stepBoth (BTree.open [], .empty) (ops.take n)).2) ↔
      Along stepBoth Room (BTree.open [], .empty) ops :=
    always_iff_along (S := BTree × OrderedMap Bytes Bytes) (I := fun s => OneLeaf s.1 s.2)
      (fun _ h => h.isMap) (fun _ _ h => oneLeaf_step h)
      (fun _ _ h => not_isMap_step h) hstart ops
  simp only [run_stepBoth] at hiff
  rw [hiff]
  exact along_room_iff _ (by decide)

def smallKeys (count : ℕ) : List Op :=
  (List.range count).map fun i => .insert [UInt8.ofNat i] [UInt8.ofNat i]

theorem smallKeys_short : ∀ k v, Op.insert k v ∈ smallKeys count → Short (k, v) := by
  intro k v h
  obtain ⟨i, _, heq⟩ := mem_map.mp h
  obtain ⟨rfl, rfl⟩ := Op.insert.inj heq
  exact ⟨by simp, by simp⟩

/-- Of sixty-four different keys the middle one is gone. -/
theorem full_leaf_loses_middle : (run step (.open []) (smallKeys 64)).search [32] = .ok none ∧
      (run record .empty (smallKeys 64)).get? [32] = some [32] := by
  have hleaf : OneLeaf (run step (.open []) (smallKeys 63)) (run record .empty (smallKeys 63)) :=
    oneLeaf_run (by decide +kernel) smallKeys_short
  obtain ⟨t', hinsert, hlost⟩ := hleaf.insert_full (k := [63]) (v := [63]) ⟨by simp, by simp⟩
    (by decide +kernel)
  have hmiddle : middleKey ((run record .empty (smallKeys 63)).insert [63] [63]) = [32] := by
    decide +kernel
  have hsplit : smallKeys 64 = smallKeys 63 ++ [.insert [63] [63]] := by decide +kernel
  constructor
  · rw [hsplit, run_append, run_cons, run_nil, step, hinsert, ← hmiddle]
    exact hlost
  · decide +kernel

end StorageBtree
