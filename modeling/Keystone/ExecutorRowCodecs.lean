import Keystone.ExecutorSelect
import Keystone.StorageJsonb

/-! # The readers of a row

Rows are written by `build_row_value` and read in four places: by queries, by the indexes, by the
rewriting of a table and by Synapse. All but the last take a cell with the mark of binary JSON for
a document, whatever its column is. -/
namespace ExecutorRowCodecs

open ExecutorEval ExecutorValue List SqlAst StorageInternalKey StorageJsonb
open ExecutorSelect hiding encodeCell

variable {F : Type}

/-- `Database::decode_row_cells`, the loop of `parse_rows` once more. -/
def decodeRowCells (F : Type) [Scalars F] (value : Bytes) : Row :=
  parseCells (Scalars.jsonbDecode F) value.length value

/-- `Database::encode_row_cells` and Synapse's `encode_cells` know no binary JSON. -/
def encodeRowCells (cells : Row) : Bytes := cells.flatMap ExecutorSelect.encodeCell

/-- Synapse's `decode_cell`: the bytes as they are stored. -/
def synapseDecodeCell (value : Bytes) (idx : ℕ) : Cell :=
  decodeCells (fun _ => none) value.length value idx

structure Native (F : Type) [Scalars F] (json : JsonText) : Prop where
  encode : ∀ data, Scalars.jsonbEncode F data = encodeCell json data
  decode : ∀ bytes found, decodeCell json bytes = .ok found → Scalars.jsonbDecode F bytes = found

def binaryColumn (binaryJson : Bool) (column : Option ColumnDef) : Bool :=
  binaryJson && column.any (·.colType = .json)

def SameContents (json : JsonText) (binary : Bool) (data out : Bytes) : Prop :=
  out = data ∨ binary ∧ ∃ v, json.parse data = some v ∧ json.parse out = some v

/-- Bytes that are not taken for a document, or for one that is printed as they are. -/
def Verbatim (json : JsonText) (bytes : Bytes) : Prop :=
  decodeCell json bytes = .ok none ∨ decodeCell json bytes = .ok (some bytes)

/-- A document without an integer from 2⁶³ on, or bytes that are not taken for a document. -/
def Readable (json : JsonText) (binary : Bool) (data : Bytes) : Prop :=
  match binary, json.parse data with
  | true, some v => Within (2 ^ 63) v
  | _, _ => Verbatim json data

section Agreement

variable [Scalars F] {json : JsonText} (native : Native F json) {binaryJson : Bool}
  {schema : TableSchema} {cells : Row}

include native

theorem storedCell_native (column : Option ColumnDef) (data : Bytes) :
    storedCell F binaryJson column data =
      if binaryColumn binaryJson column then encodeCell json data else data := by
  rw [storedCell, native.encode]
  rfl

/-- What is read of a stored cell, if reading it does not end the process. -/
theorem verbatim_iff (hpanic : decodeCell json bytes ≠ .error .panic) :
    Verbatim json bytes ↔ (Scalars.jsonbDecode F bytes).getD bytes = bytes := by
  unfold Verbatim
  rcases hfound : decodeCell json bytes with (_ | _) | (_ | out)
  · -- what is malformed is no document
    unfold decodeCell at hfound
    split_ifs at hfound
    split at hfound <;> simp at hfound
  · exact absurd hfound hpanic
  · simp [native.decode bytes none hfound]
  · simp [native.decode bytes (some out) hfound]

/-- A cell comes back as it was exactly when it is readable. -/
theorem readable_iff (small : ∀ v w, Within (2 ^ 63) v → json.parse (json.print v) = some w →
    Within (2 ^ 63) w)
    (hfits : (storedCell F binaryJson column data).length < 2 ^ 31) :
    (decodeCell json (storedCell F binaryJson column data) ≠ .error .panic ∧
      SameContents json (binaryColumn binaryJson column) data
        ((Scalars.jsonbDecode F (storedCell F binaryJson column data)).getD
          (storedCell F binaryJson column data))) ↔
      Readable json (binaryColumn binaryJson column) data := by
  rw [storedCell_native native] at hfits ⊢
  have hverbatim : (decodeCell json data ≠ .error .panic ∧
    (Scalars.jsonbDecode F data).getD data = data) ↔
      Verbatim json data := by
    constructor
    · exact fun h => (verbatim_iff native h.1).mpr h.2
    · intro h
      have hpanic : decodeCell json data ≠ .error .panic := by rcases h with h | h <;> simp [h]
      exact ⟨hpanic, (verbatim_iff native hpanic).mp h⟩
  cases hbinary : binaryColumn binaryJson column with
  | false => simpa [SameContents, Readable] using hverbatim
  | true =>
    rw [hbinary, if_pos rfl] at hfits
    rw [if_pos rfl]
    cases hparse : json.parse data with
    | none =>
      have hplain : encodeCell json data = data := by simp [encodeCell, hparse]
      rw [hplain]
      simpa [SameContents, Readable, hparse] using hverbatim
    | some v =>
      have hwithin := json.parse_within data v hparse
      have hsize : (encodeInto v).length < 2 ^ 64 := by
        simp only [encodeCell, hparse, length_append] at hfits
        omega
      have hcell := decodeCell_encodeCell hwithin hsize hparse
      rw [native.decode _ _ hcell, hcell]
      simp only [SameContents, Readable, hparse, Option.getD_some, ne_eq, reduceCtorEq,
        not_false_eq_true, true_and]
      constructor
      · -- the printed document parses to this one, by its bytes or by what it says
        intro hsame
        have hback : json.parse (json.print (narrowed v)) = some v := by
          rcases hsame with hsame | ⟨w, hw, hback⟩
          · rw [hsame, hparse]
          · rw [hback, ← hw]
        exact small (narrowed v) v (narrowed_within v hwithin) hback
      · intro h
        refine .inr ⟨v, rfl, ?_⟩
        rw [narrowed_eq v h]
        exact json.parse_print data v hparse

end Agreement

def spaced : Bytes := DecimalText.utf8 "\x7b \"a\" : 1 \x7d"

def compact : Bytes := DecimalText.utf8 "\x7b\"a\":1\x7d"

def largest : Bytes := DecimalText.utf8 "18446744073709551615"

def rounded : Bytes := DecimalText.utf8 "1.8446744073709552e19"

def samples : List (Bytes × Json) :=
  [(DecimalText.utf8 "null", .null), (spaced, .object [([97], .int 1)]),
    (compact, .object [([97], .int 1)]), (largest, .int (2 ^ 64 - 1)),
    (rounded, .float (floatOfU64 (2 ^ 64 - 1)))]

def parseSample (text : Bytes) : Option Json := (samples.find? (·.1 = text)).map Prod.snd

def printSample : Json → Bytes
  | .object _ => compact
  | .int n => if 2 ^ 63 ≤ n then largest else DecimalText.utf8 "null"
  | .float _ => rounded
  | _ => DecimalText.utf8 "null"

theorem samples_sound : ∀ sample ∈ samples,
    Within (2 ^ 64) sample.2 ∧ parseSample (printSample sample.2) = some sample.2 := by
  have hobject : Within (2 ^ 64) (.object [([97], .int 1)]) :=
    ⟨by decide, by simp, ⟨⟨by decide, by decide⟩, ⟨by decide, by decide⟩, trivial⟩⟩
  simp only [samples, forall_mem_cons]
  refine ⟨⟨trivial, rfl⟩, ⟨hobject, rfl⟩, ⟨hobject, rfl⟩, ⟨?_, rfl⟩, ⟨?_, rfl⟩, by simp⟩
  · exact ⟨by decide, by decide⟩
  · exact ⟨by decide, by decide⟩

theorem sample_of_parse (h : parseSample text = some v) : ∃ sample ∈ samples, sample.2 = v := by
  obtain ⟨sample, hfind, rfl⟩ := Option.map_eq_some_iff.mp h
  exact ⟨sample, mem_of_find?_eq_some hfind, rfl⟩

def sampleJson : JsonText where
  parse := parseSample
  print := printSample
  parse_within text v h := by
    obtain ⟨sample, hmem, rfl⟩ := sample_of_parse h
    exact (samples_sound sample hmem).1
  parse_print text v h := by
    obtain ⟨sample, hmem, rfl⟩ := sample_of_parse h
    exact (samples_sound sample hmem).2

def Sample : Type := Unit

/-- The scalars of `Unit` with binary JSON. -/
instance : Scalars Sample :=
  { (inferInstance : Scalars Unit) with
    jsonbDecode := fun bytes => (decodeCell sampleJson bytes).toOption.join
    jsonbEncode := encodeCell sampleJson }

theorem native_sample : Native Sample sampleJson where
  encode _ := rfl
  decode bytes found h := by
    change (decodeCell sampleJson bytes).toOption.join = found
    rw [h]
    rfl

/-- `CREATE TABLE docs (name TEXT, doc JSON)` -/
def docs : TableSchema :=
  ⟨"docs", [⟨"name", .text, true, none, false⟩, ⟨"doc", .json, true, none, false⟩], [], [], [], []⟩

def storedDocs (cells : Row) : Bytes := buildRowValue Sample true docs cells

theorem sample_small (v w : Json) (hv : Within (2 ^ 63) v)
    (h : sampleJson.parse (sampleJson.print v) = some w) :
    Within (2 ^ 63) w := by
  have hnull : parseSample (DecimalText.utf8 "null") = some .null := rfl
  have hobject : parseSample compact = some (.object [([97], .int 1)]) := rfl
  have hfloat : parseSample rounded = some (.float (floatOfU64 (2 ^ 64 - 1))) := rfl
  change parseSample (printSample v) = some w at h
  match v with
  | .object _ =>
    cases hobject.symm.trans h
    exact ⟨by decide, by simp, ⟨⟨by decide, by decide⟩, ⟨by decide, by decide⟩, trivial⟩⟩
  | .int n =>
    rw [printSample, if_neg (not_le.mpr hv.2)] at h
    cases hnull.symm.trans h
    trivial
  | .float _ =>
    cases hfloat.symm.trans h
    exact ⟨by decide, by decide⟩
  | .null | .bool _ | .string _ | .array _ =>
    cases hnull.symm.trans h
    trivial

end ExecutorRowCodecs
