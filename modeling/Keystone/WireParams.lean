import Keystone.WireExtended

/-! # Parameters from the client to the portal

A client writes its values in the formats it announces. The handler takes the format of each
parameter by its position, and a text for the number or the boolean that it looks like. -/
namespace WireParams

open ByteCodecs ByteReaders DecimalText ExecutorValue List SqlAst StorageInternalKey WireCodec
  WireExtended WireSessionRbac
open DatabaseSequences (Profile)

variable {F ρ δ : Type}

inductive IntType where
  | int2 | int4 | int8
  deriving DecidableEq

def IntType.width : IntType → ℕ
  | .int2 => 2
  | .int4 => 4
  | .int8 => 8

def IntType.oid : IntType → ℤ
  | .int2 => 21
  | .int4 => 23
  | .int8 => 20

/-- Integers are in the range of their type, and texts are UTF-8. -/
inductive Sent where
  | null
  | bool (b : Bool)
  | int (type : IntType) (n : ℤ) (range : InRange (8 * type.width) n)
  | text (s : Bytes) (valid : validUtf8 s = true)

def Sent.value : Sent → Value F
  | .null => .null
  | .bool b => .bool b
  | .int _ n _ => .int n
  | .text s _ => .text s

def Sent.NamedBy : Sent → ℤ → Prop
  | .null, _ => True
  | .bool _, oid => oid = 16
  | .int type _ _, oid => oid = type.oid
  | .text _ _, oid => oid = 25

inductive Format where
  | text | binary
  deriving DecidableEq

def Format.code : Format → ℤ
  | .text => 0
  | .binary => 1

def boolText (b : Bool) : Bytes := utf8 (if b then "t" else "f")

def Sent.encode : Sent → Format → Option Bytes
  | .null, _ => none
  | .bool b, .text => some (boolText b)
  | .bool b, .binary => some [if b then 1 else 0]
  | .int _ n _, .text => some (printInt n)
  | .int type n _, .binary => some (encodeInt type.width n)
  | .text s _, _ => some s

def applied (formats : List Format) (i : ℕ) : Format :=
  match formats with
  | [] => .text
  | [f] => f
  | fs => fs.getD i .text

def encodeParams (values : List Sent) (formats : List Format) : List (Option Bytes) :=
  values.mapIdx fun i v => v.encode (applied formats i)

def encodeParam : Option Bytes → Bytes
  | none => encodeInt 4 (-1)
  | some bytes => encodeInt 4 bytes.length ++ bytes

def encodeFormats (formats : List Format) : Bytes :=
  encodeInt 2 formats.length ++ formats.flatMap fun f => encodeInt 2 f.code

def encodeBody (portal stmt : Bytes) (values : List Sent) (formats results : List Format) : Bytes :=
  let params := encodeParams values formats
  (portal ++ [0]) ++ ((stmt ++ [0]) ++ (encodeFormats formats ++
    ((encodeInt 2 params.length ++ params.flatMap encodeParam) ++ encodeFormats results)))

/-- A Bind message: names without a zero, one format for all or one for each, and counts and lengths
that the fields of the message can hold. -/
structure Binding where
  portal : Bytes
  stmt : Bytes
  values : List Sent
  formats : List Format
  results : List Format
  portal_text : validUtf8 portal = true ∧ 0 ∉ portal
  stmt_text : validUtf8 stmt = true ∧ 0 ∉ stmt
  allowed : formats.length ≤ 1 ∨ formats.length = values.length
  few_values : values.length < 2 ^ 16
  few_results : results.length < 2 ^ 15
  short : (encodeBody portal stmt values formats results).length + 4 < 2 ^ 31

namespace Binding

def body (b : Binding) : Bytes := encodeBody b.portal b.stmt b.values b.formats b.results

def bytes (b : Binding) : Bytes := 66 :: (encodeInt 4 (b.body.length + 4 : ℕ) ++ b.body)

def params (b : Binding) : List (Option Bytes) := encodeParams b.values b.formats

def message (b : Binding) : FrontendMessage :=
  .bind b.portal b.stmt b.params (b.formats.map Format.code) (b.results.map Format.code)

end Binding

theorem readMessage_frame (h : body.length + 4 < 2 ^ 31) :
    readMessage profile closed (tag :: (encodeInt 4 (body.length + 4 : ℕ) ++ body) ++ rest) =
      readFrame tag body rest := by
  set frame := tag :: (encodeInt 4 (body.length + 4 : ℕ) ++ body) ++ rest with hframe
  have hlength : frame.length = 1 + (body.length + 4) + rest.length := by
    simp [hframe]
    omega
  have hdeclared : frameLength frame = body.length + 4 := by
    have hpeek : peekInt 4 (frame.drop 1) = (body.length + 4 : ℕ) := by
      exact peekInt_encodeInt (by decide) (by omega) (by omega) _
    rw [frameLength, hpeek, asUsize_of_nonneg (by omega) (by omega), Int.toNat_natCast]
  have htotal : usize profile (1 + (body.length + 4)) = some (1 + (body.length + 4)) :=
    if_pos (by omega)
  have hdrop : frame.drop (1 + (body.length + 4)) = rest := by
    exact drop_left' (by simp; omega)
  have hbody : (frame.take (1 + (body.length + 4))).drop 5 = body := by
    rw [hframe, take_left' (by simp; omega), ← cons_append]
    exact drop_left' (by simp)
  rw [readMessage, fill, if_pos (by omega)]
  rw [hdeclared, if_neg (by omega), htotal]
  dsimp only
  rw [fill, if_pos (by omega), if_neg (by omega), hbody, hdrop]
  rfl

theorem reads_formats (h : formats.length < 2 ^ 15) :
    Reads readFormats (encodeFormats formats) (formats.map Format.code) := by
  have hitems : ∀ code ∈ formats.map Format.code, Reads (getIntOr 2 0) (encodeInt 2 code) code := by
    intro code hcode
    obtain ⟨f, -, rfl⟩ := mem_map.1 hcode
    cases f with
    | text | binary => exact reads_getIntOr (by decide) (by decide) (by decide) 0
  have hread := reads_readCounted hitems (by simpa using h) (show 2 < 2 ^ 31 by decide)
  rwa [length_map, flatMap_map] at hread

theorem reads_param (h : ∀ bytes ∈ param, bytes.length < 2 ^ 31) :
    Reads readParam (encodeParam param) param := by
  cases param with
  | none =>
    have hlen : Reads (getIntOr 4 (-1)) (encodeInt 4 (-1)) (-1) :=
      reads_getIntOr (by decide) (by decide) (by decide) _
    have hread := hlen.bind (g := fun len : ℤ =>
      if len < 0 then pure none else some <$> takeUpTo len.toNat) (reads_pure none)
    rwa [append_nil] at hread
  | some bytes =>
    have hshort := h bytes rfl
    have hlen : Reads (getIntOr 4 (-1)) (encodeInt 4 bytes.length) bytes.length :=
      reads_getIntOr (by decide) (by omega) (by omega) _
    refine hlen.bind ?_
    exact (reads_takeUpTo bytes).map some

theorem length_le_flatMap_encodeParam {params : List (Option Bytes)} (h : some bytes ∈ params) :
    bytes.length ≤ (params.flatMap encodeParam).length := by
  obtain ⟨before, after, rfl⟩ := append_of_mem h
  simp [encodeParam]
  omega

namespace Binding

variable (b : Binding)

theorem reads_body (h : b.values.length < 2 ^ 15) : Reads readBind b.body b.message := by
  have hformats : b.formats.length < 2 ^ 15 := by
    have := b.allowed
    omega
  have hcount : b.params.length = b.values.length := by simp [params, encodeParams]
  have hshort : ∀ param ∈ b.params, ∀ bytes ∈ param, bytes.length < 2 ^ 31 := by
    rintro param hparam bytes rfl
    have hle := length_le_flatMap_encodeParam hparam
    have hbody := b.short
    simp only [encodeBody, length_append] at hbody
    have hsame : encodeParams b.values b.formats = b.params := rfl
    rw [hsame] at hbody
    omega
  have hparams := reads_readCounted (fun param hparam => reads_param (hshort param hparam))
    (by rw [hcount]; exact h) (show 24 < 2 ^ 31 by decide)
  exact (reads_readCstr b.portal_text.1 b.portal_text.2).bind
    ((reads_readCstr b.stmt_text.1 b.stmt_text.2).bind
      ((reads_formats hformats).bind (hparams.bind ((reads_formats b.few_results).map _))))

/-- With more, one of the counts looks negative. -/
theorem readBind_eq_none (h : 2 ^ 15 ≤ b.values.length) (reserved : ℕ) :
    readBind ⟨b.body, reserved⟩ = none := by
  have hcount : (encodeParams b.values b.formats).length = b.values.length := by simp [encodeParams]
  obtain ⟨r₁, hportal⟩ := reads_readCstr b.portal_text.1 b.portal_text.2 _ reserved
  obtain ⟨r₂, hstmt⟩ := reads_readCstr b.stmt_text.1 b.stmt_text.2 _ r₁
  rw [readBind, body, encodeBody, bind_run hportal, bind_run hstmt]
  rcases b.allowed with hfew | heach
  · have hone : b.formats.length < 2 ^ 15 := by omega
    obtain ⟨r₃, hformats⟩ := reads_formats hone _ r₂
    rw [bind_run hformats]
    refine bind_run_none ?_
    rw [hcount, append_assoc]
    exact readCounted_of_many (by decide) h b.few_values
  · refine bind_run_none ?_
    rw [encodeFormats, heach, append_assoc]
    exact readCounted_of_many (by decide) h b.few_values

theorem readMessage_bytes (profile : Profile) (closed : Bool) (rest : Bytes) :
    (b.values.length < 2 ^ 15 →
      ∃ reserved, readMessage profile closed (b.bytes ++ rest) = .read b.message rest reserved) ∧
    (2 ^ 15 ≤ b.values.length → readMessage profile closed (b.bytes ++ rest) = .panicked) := by
  have hframe : readMessage profile closed (b.bytes ++ rest) = readFrame 66 b.body rest :=
    readMessage_frame b.short
  have htag : decodeBody 66 = readBind := rfl
  rw [hframe, readFrame, htag]
  constructor
  · intro h
    obtain ⟨reserved, hread⟩ := b.reads_body h [] 0
    rw [append_nil] at hread
    exact ⟨reserved, by rw [hread]⟩
  · intro h
    rw [b.readBind_eq_none h]

end Binding

def used (formats : List Format) (i : ℕ) : Format := formats.getD i .text

/-- Not a number, and not the letter of a boolean. -/
def LooksLikeText (F : Type) [Scalars F] (s : Bytes) : Prop :=
  parseBits 64 s = none ∧ Scalars.parse (F := F) s = none ∧ s ≠ utf8 "t" ∧ s ≠ utf8 "f"

/-- Integers and booleans are read in the format they were written in; `t` and `f` are no floats. A
text is binary, or looks like one. -/
def Kept (F : Type) [Scalars F] (v : Sent) (written read : Format) : Prop :=
  match v with
  | .null => True
  | .bool b => written = read ∧ (read = .text → Scalars.parse (F := F) (boolText b) = none)
  | .int _ _ _ => written = read
  | .text s _ => read = .binary ∨ LooksLikeText F s

theorem used_cases (formats : List Format) (i : ℕ) :
    used formats i = applied formats i ∨ used formats i = .text ∧ applied formats i = .binary := by
  rcases formats with _ | ⟨f, _ | ⟨g, fs⟩⟩
  · exact .inl rfl
  · cases i with
    | zero => exact .inl rfl
    | succ i =>
      cases f with
      | text => exact .inl rfl
      | binary => exact .inr ⟨rfl, rfl⟩
  · exact .inl rfl

section Values

variable [Scalars F]

variable {s : Bytes}

theorem fromBytes_eq_text_iff (hs : validUtf8 s = true) :
    (Value.fromBytes (some s) : Value F) = .text s ↔ LooksLikeText F s := by
  simp only [Value.fromBytes, hs, if_true, LooksLikeText]
  cases parseBits 64 s with
  | some n => simp
  | none =>
    cases Scalars.parse (F := F) s with
    | some f => simp
    | none =>
      split_ifs with ht hf
      · simp [ht]
      · simp [hf]
      · simp [ht, hf]

theorem validUtf8_of_ascii (h : ∀ b ∈ s, b < 128) : validUtf8 s = true := by
  have hbyte : ∀ n : Fin 256, UInt8.ofFin n < 128 →
    validUtf8 [UInt8.ofFin n] = true := by decide +kernel
  induction s with
  | nil => rfl
  | cons b s ih =>
    simp only [forall_mem_cons] at h
    exact validUtf8_append (hbyte b.toFin h.1) (ih h.2)

variable {n : ℤ}

theorem fromBytes_printInt (h : InRange 64 n) :
    (Value.fromBytes (some (printInt n)) : Value F) = .int n := by
  simp [Value.fromBytes, validUtf8_of_ascii fun b hb => (printInt_le n b hb).trans_lt (by decide),
    parseBits, parseInt_printInt, h,
    Option.filter_some]

theorem parseInt_of_fromBytes (h : (Value.fromBytes (some s) : Value F) = .int n) :
    parseInt s = some n := by
  unfold Value.fromBytes at h
  dsimp only at h
  split at h
  · split at h
    · rename_i m hm
      cases h
      exact (Option.filter_eq_some_iff.1 hm).1
    · split at h
      · cases h
      · split_ifs at h
  · cases h

/-- The bytes of an integer are never its digits. -/
theorem fromBytes_encodeInt_ne (type : IntType) :
    (Value.fromBytes (some (encodeInt type.width n)) : Value F) ≠ .int n := by
  intro h
  have hparse := parseInt_of_fromBytes h
  have hvalue := decodeBE_encodeInt type.width n
  have hlength := length_encodeInt type.width n
  cases hbytes : encodeInt type.width n with
  | nil =>
    rw [hbytes] at hlength
    cases type <;> cases hlength
  | cons b rest =>
    rw [hbytes] at hparse hvalue hlength
    obtain ⟨hlow, hhigh, hsmall⟩ := parseInt_cons_bounds hparse
    have hrest := decodeBE_lt rest
    rw [decodeBE_cons] at hvalue
    rw [length_cons] at hlength
    rw [show rest.length = type.width - 1 by omega] at hvalue hrest hsmall
    cases type with
    | int2 | int4 | int8 =>
      simp only [IntType.width] at hvalue hrest hsmall
      omega

theorem fromBytes_boolText :
    (Value.fromBytes (some (boolText b)) : Value F) = .bool b ↔
      Scalars.parse (F := F) (boolText b) = none := by
  have hvalid : validUtf8 (boolText b) = true := by cases b <;> decide +kernel
  have hint : parseBits 64 (boolText b) = none := by cases b <;> decide +kernel
  simp only [Value.fromBytes, hvalid, hint]
  cases Scalars.parse (F := F) (boolText b) with
  | some f => simp
  | none =>
    have hletters : utf8 "f" ≠ utf8 "t" := by decide +kernel
    cases b with
    | true => simp [boolText]
    | false => simp [boolText, hletters]

theorem fromBytes_byte_ne (b c : Bool) : (Value.fromBytes (some [if b then 1 else 0]) : Value F) ≠
    .bool c := by
  have hvalid : validUtf8 [if b then 1 else 0] = true := by cases b <;> decide +kernel
  have hint : parseBits 64 [if b then 1 else 0] = none := by cases b <;> decide +kernel
  simp only [Value.fromBytes, hvalid, hint]
  cases Scalars.parse (F := F) [if b then 1 else 0] with
  | some f => simp
  | none =>
    have hletters : ∀ b : Bool, [if b then 1 else 0] ≠ utf8 "t" ∧
      [if b then 1 else 0] ≠ utf8 "f" := by
      decide +kernel
    simp [hletters b]

theorem decodeParam_encodeInt (bits : FloatBits F) (type : IntType)
    (h : InRange (8 * type.width) n) :
    decodeParam bits (some (encodeInt type.width n)) Format.binary.code type.oid = .int n := by
  have hvalue := peekInt_encodeInt (by cases type <;> decide) h.1 h.2 []
  cases type <;> simp_all [decodeParam, Format.code, IntType.oid, IntType.width]

theorem decodeParam_eq_iff (bits : FloatBits F) (hoid : v.NamedBy oid) {written read : Format}
    (h : read = written ∨ read = .text ∧ written = .binary) :
    decodeParam bits (v.encode written) read.code oid = v.value ↔ Kept F v written read := by
  cases v with
  | null => exact iff_of_true rfl trivial
  | bool b =>
    obtain rfl : oid = 16 := hoid
    rcases h with rfl | ⟨rfl, rfl⟩
    · cases read with
      | text => exact fromBytes_boolText.trans (by simp [Kept])
      | binary => exact iff_of_true (by cases b <;> rfl) ⟨rfl, by simp⟩
    · exact iff_of_false (fromBytes_byte_ne b b) (by simp [Kept])
  | int type n range =>
    obtain rfl : oid = type.oid := hoid
    rcases h with rfl | ⟨rfl, rfl⟩
    · refine iff_of_true ?_ rfl
      cases read with
      | text =>
        refine fromBytes_printInt ?_
        unfold InRange at range ⊢
        cases type <;> simp only [IntType.width] at range <;> omega
      | binary => exact decodeParam_encodeInt bits type range
    · exact iff_of_false (fromBytes_encodeInt_ne type) (by simp [Kept])
  | text s valid =>
    obtain rfl : oid = 25 := hoid
    cases read with
    | text => exact (fromBytes_eq_text_iff valid).trans (by simp [Kept])
    | binary =>
      refine iff_of_true ?_ (.inl rfl)
      simp [Sent.encode, decodeParam, Format.code, valid, Sent.value]

theorem decodeParams_eq_iff (bits : FloatBits F) (b : Binding)
    (htypes : ∀ (i : ℕ) (v : Sent), b.values[i]? = some v → v.NamedBy (types.getD i 0)) :
    decodeParams bits b.params (b.formats.map Format.code) types = b.values.map Sent.value ↔
      ∀ (i : ℕ) (v : Sent), b.values[i]? = some v →
        Kept F v (applied b.formats i) (used b.formats i) := by
  have hcode i : (b.formats.map Format.code).getD i 0 = (used b.formats i).code := by
    rw [used, getD_eq_getElem?_getD, getD_eq_getElem?_getD, List.getElem?_map]
    cases b.formats[i]? <;> rfl
  have hvalue i v hv :=
    decodeParam_eq_iff bits (htypes i v hv) (used_cases b.formats i)
  rw [List.ext_getElem?_iff]
  simp only [decodeParams, Binding.params, encodeParams, List.getElem?_mapIdx,
    List.getElem?_map, hcode]
  refine forall_congr' fun i => ?_
  cases hv : b.values[i]? with
  | none => simp
  | some v => simpa using hvalue i v hv

end Values

/-- The portal has the values that were sent if and only if there are fewer than 2^15 and each is
kept: integers and booleans are read in the format they were written in, and a text in text format
does not look like anything else. -/
theorem bound_iff_kept [Scalars F] (srv : Server F ρ δ) (s : Session F ρ δ)
    (hmode : s.mode = .ready)
    (b : Binding) (p : PreparedStmt F δ) (hprepared : s.prepared b.stmt = some p)
    (htypes : ∀ (i : ℕ) (v : Sent), b.values[i]? = some v → v.NamedBy (p.paramTypes.getD i 0))
    (profile : Profile) (closed : Bool) (rest : Bytes) :
    (∃ m reserved, readMessage profile closed (b.bytes ++ rest) = .read m rest reserved ∧
      (next srv s (.message m)).portals b.portal =
        some ⟨p.stmt, b.values.map Sent.value, b.results.map Format.code⟩) ↔
    b.values.length < 2 ^ 15 ∧
      ∀ (i : ℕ) (v : Sent), b.values[i]? = some v →
        Kept F v (applied b.formats i) (used b.formats i) := by
  have hread := b.readMessage_bytes profile closed rest
  have hbound : (next srv s (.message b.message)).portals b.portal =
      some ⟨p.stmt, decodeParams srv.bits b.params (b.formats.map Format.code) p.paramTypes,
        b.results.map Format.code⟩ := by
    simp [WireExtended.next, respondTo_ready srv hmode, Binding.message, serveMessage, hprepared]
  rw [← decodeParams_eq_iff srv.bits b htypes]
  constructor
  · rintro ⟨m, reserved, hm, hportal⟩
    by_cases hfew : b.values.length < 2 ^ 15
    · obtain ⟨reserved', hsame⟩ := hread.1 hfew
      rw [hsame] at hm
      cases hm
      rw [hbound] at hportal
      injection hportal with hportal
      injection hportal with _ hvalues _
      exact ⟨hfew, hvalues⟩
    · rw [hread.2 (by omega)] at hm
      cases hm
  · rintro ⟨hfew, hvalues⟩
    obtain ⟨reserved, hm⟩ := hread.1 hfew
    exact ⟨b.message, reserved, hm, by rw [hbound, hvalues]⟩

def prepared (types : List ℤ) : Session Unit Unit TableSchema :=
  { starting (granted []) with prepared := fun _ => some ⟨deleteAll, types⟩ }

def seven : Sent := .int .int4 7 (by decide)

def unnamed (values : List Sent) (formats : List Format)
    (allowed : formats.length ≤ 1 ∨ formats.length = values.length)
    (few : values.length < 2 ^ 15) (short : (encodeBody [] [] values formats []).length +
      4 < 2 ^ 31) :
    Binding where
  portal := []
  stmt := []
  values := values
  formats := formats
  results := []
  portal_text := by decide +kernel
  stmt_text := by decide +kernel
  allowed := allowed
  few_values := by omega
  few_results := by decide
  short := short

def oneOfEach : Binding :=
  unnamed [.null, .bool true, seven, .text (utf8 "abc") (by decide +kernel), .bool false, seven,
      .text (utf8 "12") (by decide +kernel)]
    [.text, .text, .text, .text, .binary, .binary, .binary] (.inr rfl) (by decide)
      (by decide +kernel)

theorem bound_iff_kept_oneOfEach :
    ∃ m reserved, readMessage .dev false (oneOfEach.bytes ++ []) = .read m [] reserved ∧
      (next deleting (prepared [0, 16, 23, 25, 16, 23, 25]) (.message m)).portals [] =
        some ⟨deleteAll, [.null, .bool true, .int 7, .text (utf8 "abc"), .bool false, .int 7,
          .text (utf8 "12")], []⟩ := by
  refine (bound_iff_kept deleting (prepared [0, 16, 23, 25, 16, 23, 25]) rfl oneOfEach _ rfl ?_ .dev
    false []).2
    ⟨by decide, ?_⟩
  · rintro (_ | _ | _ | _ | _ | _ | _ | i) v hv
    all_goals cases hv
    · trivial
    all_goals rfl
  · rintro (_ | _ | _ | _ | _ | _ | _ | i) v hv
    all_goals cases hv
    · trivial
    · exact ⟨rfl, fun _ => rfl⟩
    · rfl
    · exact .inr ⟨by decide +kernel, rfl, by decide +kernel, by decide +kernel⟩
    · exact ⟨rfl, fun _ => rfl⟩
    · rfl
    · exact .inl rfl

def twoSevens : Binding := unnamed [seven, seven] [.binary] (.inl (by decide)) (by decide)
    (by decide +kernel)

def twelve : Binding :=
  unnamed [.text (utf8 "12") (by decide +kernel)]
    [] (.inl (by decide)) (by decide) (by decide +kernel)

def boundBy (b : Binding) (types : List ℤ) : Option (List (Value Unit)) :=
  match readMessage .dev false b.bytes with
  | .read m _ _ => ((next deleting (prepared types) (.message m)).portals []).map Portal.params
  | _ => none

/-- One binary format for two integers makes the second one a text of four bytes; and the text `12`
in text format is a number. -/
theorem bound_otherwise :
    boundBy twoSevens [23, 23] = some [.int 7, .text [0, 0, 0, 7]] ∧ boundBy twelve [25] = some
      [.int 12] := by
  constructor
  · decide +kernel
  · decide +kernel

end WireParams
