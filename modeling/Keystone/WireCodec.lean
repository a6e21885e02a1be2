import Keystone.ByteReaders
import Keystone.DatabaseSequences

/-! # Frontend messages

The bytes of a client are cut into messages by their declared lengths, and the body of each is read
field by field. A read on a buffer that is too short waits, or fails if the client has gone. -/
namespace WireCodec

open ByteCodecs ByteReaders DatabaseSequences List Option StorageInternalKey

inductive FrontendMessage where
  | query (query : Bytes)
  | parse (name query : Bytes) (paramTypes : List ℤ)
  | bind (portal stmt : Bytes) (params : List (Option Bytes)) (paramFormats resultFormats : List ℤ)
  | describe (kind : UInt8) (name : Bytes)
  | execute (portal : Bytes) (maxRows : ℤ)
  | close (kind : UInt8) (name : Bytes)
  | sync
  | flush
  | terminate
  | copyData (data : Bytes)
  | copyDone
  | copyFail (reason : Bytes)
  | passwordData (data : Bytes)
  deriving DecidableEq

def readFormats : Decode (List ℤ) := readCounted 2 (getIntOr 2 0)

/-- A negative length is NULL; a value is cut at the end of the body. -/
def readParam : Decode (Option Bytes) := do
  let len ← getIntOr 4 (-1)
  if len < 0 then pure none else some <$> takeUpTo len.toNat

/-- The types are read without a look at what is left; an `i32` has four bytes. -/
def readParse : Decode FrontendMessage := do
  let name ← readCstr
  let query ← readCstr
  .parse name query <$> readCounted 4 (getInt 4)

/-- An `Option<Vec<u8>>` has 24 bytes. -/
def readBind : Decode FrontendMessage := do
  let portal ← readCstr
  let stmt ← readCstr
  let paramFormats ← readFormats
  let params ← readCounted 24 readParam
  .bind portal stmt params paramFormats <$> readFormats

def decodeBody (tag : UInt8) : Decode FrontendMessage :=
  match tag with
  | 81 => .query <$> readCstr
  | 80 => readParse
  | 66 => readBind
  | 68 => do
    let kind ← getByteOr 83
    .describe kind <$> readCstr
  | 69 => do
    let portal ← readCstr
    .execute portal <$> getIntOr 4 0
  | 67 => do
    let kind ← getByteOr 83
    .close kind <$> readCstr
  | 83 => pure .sync
  | 72 => pure .flush
  | 88 => pure .terminate
  | 100 => do
    let r ← get
    .copyData <$> takeUpTo r.data.length
  | 99 => pure .copyDone
  | 102 => .copyFail <$> readCstr
  | 112 => do
    let r ← get
    .passwordData <$> takeUpTo r.data.length
  | _ => pure .sync

inductive CodecError where
  | connectionClosed
  | startupLength (len : ℕ)
  | messageLength (len : ℕ) (tag : UInt8)
  | cancelRequest
  deriving DecidableEq

inductive Outcome (α : Type) where
  | waiting
  | failed (e : CodecError)
  | panicked
  | read (value : α) (rest : Bytes) (reserved : ℕ)
  deriving DecidableEq

def fill {α : Type} (closed : Bool) (buf : Bytes) (n : ℕ) (read : Outcome α) : Outcome α :=
  if n ≤ buf.length then read
  else if closed then .failed .connectionClosed
  else .waiting

/-- A sum of `usize`, none if it panics. -/
def usize (profile : Profile) (n : ℕ) : Option ℕ :=
  if n < 2 ^ 64 then some n
  else match profile with
    | .dev => none
    | .release => some (n % 2 ^ 64)

def frameLength (buf : Bytes) : ℕ := asUsize (peekInt 4 (buf.drop 1))

def readFrame (tag : UInt8) (body rest : Bytes) : Outcome FrontendMessage :=
  match decodeBody tag ⟨body, 0⟩ with
  | none => .panicked
  | some (message, r) => .read message rest r.reserved

/-- Without five bytes to skip, `advance` panics. -/
def readMessage (profile : Profile) (closed : Bool) (buf : Bytes) : Outcome FrontendMessage :=
  fill closed buf 5 <|
    let tag := buf.headD 0
    let len := frameLength buf
    if len < 4 then .failed (.messageLength len tag)
    else match usize profile (1 + len) with
      | none => .panicked
      | some total => fill closed buf total <|
        if total < 5 then .panicked
        else readFrame tag ((buf.take total).drop 5) (buf.drop total)

structure StartupParams where
  protocolVersion : ℤ
  params : List (Bytes × Bytes)
  deriving DecidableEq

def reserve (n : ℕ) : Decode Unit := fun r => some ((), ⟨r.data, r.reserved + n⟩)

/-- Keys and values up to an empty key; each pair takes 48 bytes in the vector. -/
def readParams : ℕ → Decode (List (Bytes × Bytes))
  | 0 => pure []
  | fuel + 1 => do
    let r ← get
    if r.data = [] then pure []
    else
      let key ← readCstr
      if key = [] then pure []
      else
        let value ← readCstr
        reserve 48
        let params ← readParams fuel
        pure ((key, value) :: params)

/-- A request for SSL is declined and read over. -/
def readStartup (closed : Bool) : ℕ → Bytes → Outcome StartupParams
  | 0, _ => .waiting
  | fuel + 1, buf =>
    fill closed buf 4 <|
      let total := asUsize (peekInt 4 buf)
      if total < 8 ∨ 65535 < total then .failed (.startupLength total)
      else fill closed buf total <|
        match getInt 4 ⟨(buf.take total).drop 4, 0⟩ with
        | none => .panicked
        | some (protocolVersion, r) =>
          if protocolVersion = 80877103 then readStartup closed fuel (buf.drop total)
          else if protocolVersion = 80877102 then .failed .cancelRequest
          else match readParams r.data.length r with
            | none => .panicked
            | some (params, r) => .read ⟨protocolVersion, params⟩ (buf.drop total) r.reserved

theorem bounded_readParam : Bounded 64 0 readParam := by
  have hvalue (len : ℤ) : Bounded 64 0 (if len < 0 then pure none
    else some <$> takeUpTo len.toNat) := by
    split
    · exact bounded_pure none
    · exact (bounded_takeUpTo (by omega) _).map some
  exact (bounded_getIntOr 4 (-1)).bind hvalue

theorem bounded_readFormats : Bounded 64 (32767 * 2) readFormats :=
  (bounded_getIntOr 2 0).readCounted (by omega)

theorem bounded_decodeBody : Bounded 64 (2 ^ 20) (decodeBody tag) := by
  have hcstr : Bounded 64 0 readCstr := bounded_readCstr (by omega)
  unfold decodeBody
  split
  · exact (hcstr.map _).mono
  · have htypes : Bounded 64 (32767 * 4) (readCounted 4 (getInt 4)) :=
      (bounded_getInt 4).readCounted (by omega)
    exact (hcstr.bind fun _ => hcstr.bind fun _ => htypes.map _).mono
  · have hparams : Bounded 64 (32767 * 24) (readCounted 24 readParam) :=
      bounded_readParam.readCounted (by omega)
    exact (hcstr.bind fun _ => hcstr.bind fun _ => bounded_readFormats.bind fun _ =>
      hparams.bind fun _ => bounded_readFormats.map _).mono
  · exact ((bounded_getByteOr 83).bind fun _ => hcstr.map _).mono
  · exact (hcstr.bind fun _ => (bounded_getIntOr 4 0).map _).mono
  · exact ((bounded_getByteOr 83).bind fun _ => hcstr.map _).mono
  · exact (bounded_pure _).mono
  · exact (bounded_pure _).mono
  · exact (bounded_pure _).mono
  · exact (bounded_get.bind fun r => (bounded_takeUpTo (by omega) _).map _).mono
  · exact (bounded_pure _).mono
  · exact (hcstr.map _).mono
  · exact (bounded_get.bind fun r => (bounded_takeUpTo (by omega) _).map _).mono
  · exact (bounded_pure _).mono

theorem readParams_spec (fuel : ℕ) (r : Reader) :
    ∃ params r', readParams fuel r = some (params, r') ∧
      r'.reserved + 64 * r'.data.length ≤ r.reserved + 64 * r.data.length := by
  induction fuel generalizing r with
  | zero => exact ⟨[], r, rfl, le_refl _⟩
  | succ fuel ih =>
    have hget : (get : Decode Reader) r = some (r, r) := rfl
    rw [readParams, bind_run hget]
    by_cases hdone : r.data = []
    · rw [if_pos hdone]
      exact ⟨[], r, rfl, le_refl _⟩
    · rw [if_neg hdone]
      set key := fromUtf8Lossy (cstr r.data) with hkey
      set afterKey : Reader := ⟨afterCstr r.data, r.reserved + key.length⟩ with hafterKey
      have hreadKey : readCstr r = some (key, afterKey) := rfl
      have hsplit := length_cstr_add r.data
      have htext : key.length ≤ 3 * (cstr r.data).length := length_fromUtf8Lossy (cstr r.data)
      rw [bind_run hreadKey]
      by_cases hempty : key = []
      · rw [if_pos hempty]
        refine ⟨[], afterKey, rfl, ?_⟩
        simp only [hafterKey]
        omega
      · rw [if_neg hempty]
        -- a key that is not empty pays for the pair
        have hpos : 0 < (cstr r.data).length := by
          by_contra hzero
          have hnil : cstr r.data = [] := eq_nil_of_length_eq_zero (by omega)
          exact hempty (by rw [hkey, hnil]; rfl)
        have hvalue := bounded_readCstr (by omega : 3 ≤ 64) afterKey _ _ rfl
        set afterValue : Reader := ⟨afterCstr afterKey.data,
          afterKey.reserved + (fromUtf8Lossy (cstr afterKey.data)).length⟩ with hafterValue
        obtain ⟨params, r', hrest, hbound⟩ := ih ⟨afterValue.data, afterValue.reserved + 48⟩
        refine ⟨(key, fromUtf8Lossy (cstr afterKey.data)) :: params, r', ?_, ?_⟩
        · have hreadValue : readCstr afterKey = some (fromUtf8Lossy (cstr afterKey.data),
            afterValue) := rfl
          have hreserve : reserve 48 afterValue =
            some ((), ⟨afterValue.data, afterValue.reserved + 48⟩) := rfl
          rw [bind_run hreadValue, bind_run hreserve, bind_run hrest]
          rfl
        · simp only [hafterKey] at hvalue hbound
          omega

def skipParam (data : Bytes) : Bytes :=
  if 4 ≤ data.length then (data.drop 4).drop (peekInt 4 data).toNat else data

def HostileParse (data : Bytes) : Prop :=
  let data := afterCstr (afterCstr data)
  countAt data < 0 ∨ (skipInt 2 data).length < 4 * (countAt data).toNat

def HostileBind (data : Bytes) : Prop :=
  let data := afterCstr (afterCstr data)
  countAt data < 0 ∨
  let data := (skipInt 2)^[(countAt data).toNat] (skipInt 2 data)
  countAt data < 0 ∨ countAt (skipParam^[(countAt data).toNat] (skipInt 2 data)) < 0

def HostileBody (tag : UInt8) (data : Bytes) : Prop :=
  tag = 80 ∧ HostileParse data ∨ tag = 66 ∧ HostileBind data

def Hostile (buf : Bytes) : Prop :=
  5 ≤ buf.length ∧ (frameLength buf = 2 ^ 64 - 1 ∨ 4 ≤ frameLength buf ∧
    1 + frameLength buf ≤ buf.length ∧
    HostileBody (buf.headD 0) ((buf.take (1 + frameLength buf)).drop 5))

theorem moves_readParam : Moves readParam skipParam := by
  intro r
  unfold readParam skipParam
  rw [bind_run (getIntOr_run 4 (-1) r)]
  by_cases hlen : 4 ≤ r.data.length
  · simp only [hlen, if_true, skipInt]
    by_cases hnull : peekInt 4 r.data < 0
    · rw [if_pos hnull, Int.toNat_of_nonpos (by omega), drop_zero]
      exact ⟨none, r.reserved, rfl⟩
    · rw [if_neg hnull]
      exact (moves_takeUpTo _).map some _
  · simp only [hlen, skipInt]
    exact ⟨none, r.reserved, rfl⟩

theorem map_eq_none {f : Decode α} : (g <$> f) r = none ↔ f r = none := by
  cases h : f r with
  | none | some p => simp [Functor.map, StateT.map, h]

theorem readParse_eq_none (r : Reader) : readParse r = none ↔ HostileParse r.data := by
  have hname : readCstr r = some (_, ⟨afterCstr r.data, _⟩) := rfl
  unfold readParse
  rw [bind_run hname, bind_run rfl, map_eq_none, readCounted_getInt_eq_none (by omega) (by omega)]
  rfl

theorem readBind_eq_none (r : Reader) : readBind r = none ↔ HostileBind r.data := by
  have hname : readCstr r = some (_, ⟨afterCstr r.data, _⟩) := rfl
  unfold readBind HostileBind
  rw [bind_run hname, bind_run rfl]
  set mid : Reader := ⟨afterCstr (afterCstr r.data), _⟩ with hmid
  rw [show afterCstr (afterCstr r.data) = mid.data from rfl]
  by_cases hfirst : countAt mid.data < 0
  · simp only [hfirst, true_or, iff_true]
    exact bind_run_none (readCounted_of_neg (by omega) hfirst)
  · obtain ⟨paramFormats, reserved, hformats⟩ :=
      (moves_getIntOr 2 0).readCounted (by omega : 2 < 2 ^ 31) (not_lt.1 hfirst)
    simp only [hfirst, false_or]
    rw [readFormats, bind_run hformats]
    set mid' : Reader := ⟨(skipInt 2)^[(countAt mid.data).toNat] (skipInt 2 mid.data),
      reserved⟩ with hmid'
    rw [show (skipInt 2)^[(countAt mid.data).toNat] (skipInt 2 mid.data) = mid'.data from rfl]
    by_cases hsecond : countAt mid'.data < 0
    · simp only [hsecond, true_or, iff_true]
      exact bind_run_none (readCounted_of_neg (by omega) hsecond)
    · obtain ⟨params, reserved', hparams⟩ :=
        moves_readParam.readCounted (by omega : 24 < 2 ^ 31) (not_lt.1 hsecond)
      simp only [hsecond, false_or]
      rw [bind_run hparams, map_eq_none]
      set last : Reader := ⟨skipParam^[(countAt mid'.data).toNat] (skipInt 2 mid'.data),
        reserved'⟩ with hlast
      rw [show skipParam^[(countAt mid'.data).toNat] (skipInt 2 mid'.data) = last.data from rfl]
      by_cases hthird : countAt last.data < 0
      · simp only [hthird, iff_true]
        exact readCounted_of_neg (by omega) hthird
      · obtain ⟨resultFormats, reserved'', hresult⟩ :=
          (moves_getIntOr 2 0).readCounted (by omega : 2 < 2 ^ 31) (not_lt.1 hthird)
        simp [hresult, hthird]

theorem decodeBody_eq_none (r : Reader) : decodeBody tag r = none ↔ HostileBody tag r.data := by
  by_cases hparse : tag = 80
  · subst hparse
    exact (readParse_eq_none r).trans (by simp [HostileBody])
  by_cases hbind : tag = 66
  · subst hbind
    exact (readBind_eq_none r).trans (by simp [HostileBody])
  have hsome : decodeBody tag r ≠ none := by
    unfold decodeBody
    split
    · exact some_ne_none _
    · exact absurd rfl hparse
    · exact absurd rfl hbind
    · exact some_ne_none _
    · have hportal : readCstr r = some (_, ⟨afterCstr r.data, _⟩) := rfl
      rw [bind_run hportal, ne_eq, map_eq_none, getIntOr_run]
      exact some_ne_none _
    all_goals exact some_ne_none _
  simp [HostileBody, hparse, hbind, hsome]

variable {n : ℕ}

variable {closed : Bool} {buf : Bytes}

theorem fill_of_le (h : n ≤ buf.length) (read : Outcome α) :
    fill closed buf n read = read := if_pos h

theorem fill_of_not_le (h : ¬ n ≤ buf.length) (read : Outcome α) :
    fill closed buf n read = if closed then .failed .connectionClosed else .waiting := if_neg h

theorem readMessage_cases (profile : Profile) (closed : Bool) (buf : Bytes) :
    (¬ Hostile buf ∧ ((∃ e, readMessage profile closed buf = .failed e) ∨
      readMessage profile closed buf = .waiting)) ∨
    (Hostile buf ∧ frameLength buf = 2 ^ 64 - 1 ∧ readMessage profile closed buf = .panicked) ∨
    (4 ≤ frameLength buf ∧ 1 + frameLength buf ≤ buf.length ∧
      (Hostile buf ↔ HostileBody (buf.headD 0) ((buf.take (1 + frameLength buf)).drop 5)) ∧
      readMessage profile closed buf = readFrame (buf.headD 0)
        ((buf.take (1 + frameLength buf)).drop 5)
        (buf.drop (1 + frameLength buf))) := by
  have hlt : frameLength buf < 2 ^ 64 := by
    unfold frameLength asUsize
    omega
  by_cases h5 : 5 ≤ buf.length
  · by_cases hmax : frameLength buf = 2 ^ 64 - 1
    · -- the sum does not fit, or is zero
      refine .inr (.inl ⟨⟨h5, .inl hmax⟩, hmax, ?_⟩)
      unfold readMessage
      simp only [fill_of_le h5, hmax]
      cases profile <;> rfl
    · by_cases hlen : frameLength buf < 4
      · refine .inl ⟨fun h => ?_, .inl ⟨.messageLength (frameLength buf) (buf.headD 0), ?_⟩⟩
        · obtain ⟨-, hminus | ⟨hfour, -⟩⟩ := h <;> omega
        · unfold readMessage
          simp [fill_of_le h5, if_pos hlen]
      · have husize : usize profile (1 + frameLength buf) = some (1 + frameLength buf) :=
          if_pos (by omega)
        by_cases hall : 1 + frameLength buf ≤ buf.length
        · refine .inr (.inr ⟨not_lt.1 hlen, hall, ?_, ?_⟩)
          · unfold Hostile
            simp only [h5, hmax, not_lt.1 hlen, hall, true_and, false_or]
          · unfold readMessage
            simp [fill_of_le h5, if_neg hlen, husize, fill_of_le hall,
              if_neg (show ¬ 1 + frameLength buf < 5 by omega)]
        · refine .inl ⟨fun h => ?_, ?_⟩
          · obtain ⟨-, hminus | ⟨-, hwhole, -⟩⟩ := h
            · exact hmax hminus
            · exact hall hwhole
          · unfold readMessage
            simp only [fill_of_le h5, if_neg hlen, husize, fill_of_not_le hall]
            cases closed with
            | false => exact .inr rfl
            | true => exact .inl ⟨.connectionClosed, rfl⟩
  · refine .inl ⟨fun h => h5 h.1, ?_⟩
    unfold readMessage
    rw [fill_of_not_le h5]
    cases closed with
    | false => exact .inr rfl
    | true => exact .inl ⟨.connectionClosed, rfl⟩

theorem readMessage_eq_panicked : readMessage profile closed buf = .panicked ↔ Hostile buf := by
  rcases readMessage_cases profile closed buf with ⟨hkind, ⟨e, hrun⟩ | hrun⟩ | ⟨hhostile, -, hrun⟩ |
    ⟨-, -, hhostile, hrun⟩
  · simp [hrun, hkind]
  · simp [hrun, hkind]
  · simp [hrun, hhostile]
  · rw [hrun, readFrame, hhostile, ← decodeBody_eq_none
      ⟨(buf.take (1 + frameLength buf)).drop 5, 0⟩]
    cases decodeBody (buf.headD 0) ⟨(buf.take (1 + frameLength buf)).drop 5, 0⟩ with
    | none | some p => simp

theorem readMessage_bounded (h : readMessage profile closed buf = .read message rest reserved) :
    rest.length < buf.length ∧ reserved ≤ 2 ^ 20 + 64 * (buf.length - rest.length) := by
  rcases readMessage_cases profile closed buf with ⟨-, ⟨e, hrun⟩ | hrun⟩ | ⟨-, -, hrun⟩ |
    ⟨hlen, hall, -, hrun⟩
  · cases hrun.symm.trans h
  · cases hrun.symm.trans h
  · cases hrun.symm.trans h
  · rw [h, readFrame] at hrun
    split at hrun
    · cases hrun
    · rename_i message' r hbody
      obtain ⟨rfl, rfl, rfl⟩ := Outcome.read.inj hrun
      have hbound := bounded_decodeBody _ _ _ hbody
      simp only [length_drop, length_take] at hbound ⊢
      omega

theorem readStartup_spec (buf : Bytes) : readStartup closed fuel buf ≠ .panicked ∧
    ∀ params rest reserved,
      readStartup closed fuel buf = .read params rest reserved →
        rest.length < buf.length ∧ reserved ≤ 64 * (buf.length - rest.length) := by
  induction fuel generalizing buf with
  | zero => simp [readStartup]
  | succ fuel ih =>
    unfold readStartup
    by_cases h4 : 4 ≤ buf.length
    · rw [fill_of_le h4]
      set total := asUsize (peekInt 4 buf) with htotal
      by_cases hinvalid : total < 8 ∨ 65535 < total
      · simp [hinvalid]
      · by_cases hall : total ≤ buf.length
        · have hversion : getInt 4 ⟨(buf.take total).drop 4, 0⟩ =
              some (peekInt 4 ((buf.take total).drop 4),
                ⟨((buf.take total).drop 4).drop 4, 0⟩) := by
            refine if_pos ?_
            simp only [length_drop, length_take]
            omega
          simp only [fill_of_le hall, hversion]
          split_ifs
          · obtain ⟨hno, hread⟩ := ih (buf.drop total)
            refine ⟨hno, fun params rest reserved h => ?_⟩
            have := hread params rest reserved h
            rw [length_drop] at this
            omega
          · simp
          · obtain ⟨params, r', hparams, hbound⟩ := readParams_spec
              (((buf.take total).drop 4).drop 4).length ⟨((buf.take total).drop 4).drop 4, 0⟩
            simp only [hparams]
            refine ⟨by simp, fun params' rest reserved h => ?_⟩
            obtain ⟨-, rfl, rfl⟩ := Outcome.read.inj h
            simp only [length_drop, length_take] at hbound ⊢
            omega
        · simp only [if_neg hinvalid, fill_of_not_le hall]
          cases closed <;> simp
    · rw [fill_of_not_le h4]
      cases closed <;> simp

/-- Whatever arrives, the startup message is read without a panic, a later message panics if and
only if it is hostile, and the memory that is reserved is bounded by the bytes that are used up. -/
theorem decoding_panics_iff (profile : Profile) (closed : Bool) (buf : Bytes) :
    readStartup closed (buf.length + 1) buf ≠ .panicked ∧
    (readMessage profile closed buf = .panicked ↔ Hostile buf) ∧
    (∀ params rest reserved, readStartup closed (buf.length + 1) buf = .read params rest reserved →
      reserved ≤ 64 * (buf.length - rest.length)) ∧
    ∀ message rest reserved, readMessage profile closed buf = .read message rest reserved →
      reserved ≤ 2 ^ 20 + 64 * (buf.length - rest.length) := by
  obtain ⟨hstartup, hmemory⟩ := readStartup_spec buf
  exact ⟨hstartup, readMessage_eq_panicked,
    fun params rest reserved h => (hmemory params rest reserved h).2,
    fun message rest reserved h => (readMessage_bounded h).2⟩

/-- A Parse that announces a type it does not send, a Bind with -1 formats, and a length of -1. -/
theorem decoding_panics :
    let startup : Bytes := [0, 0, 0, 9, 0, 3, 0, 0, 0]
    let types : Bytes := [80, 0, 0, 0, 8, 0, 0, 0, 1]
    let formats : Bytes := [66, 0, 0, 0, 8, 0, 0, 255, 255]
    let length : Bytes := [81, 255, 255, 255, 255]
    ∀ message ∈ [types, formats, length],
      readStartup false 20 (startup ++ message) = .read ⟨196608, []⟩ message 0 ∧
      ∀ profile ∈ [Profile.dev, .release], readMessage profile false message = .panicked := by
  decide +kernel

end WireCodec
