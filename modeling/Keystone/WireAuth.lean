import Keystone.ExecutorRbac
import Keystone.FileNames

/-! # Authentication

The Postgres session runs SCRAM-SHA-256 with the client; the bridges take a name and a password in a
header. The client answers to the messages it got so far. -/
namespace WireAuth

open ByteCodecs DecimalText EffectPredicates ExecutorEval ExecutorRbac FileNames List Option
  OrderedMaps StorageInternalKey WireSession

inductive Piece where
  | text (s : Bytes)
  | user
  deriving DecidableEq

abbrev Text := List Piece

def lit (s : String) : Piece := .text (utf8 s)

def render (user : Bytes) (t : Text) : Bytes :=
  t.flatMap fun
    | .text s => s
    | .user => user

inductive DecodeError where
  | invalidByte (index : ℕ) (byte : UInt8)
  | invalidLength (length : ℕ)
  | invalidLastSymbol (index : ℕ) (byte : UInt8)
  | invalidPadding
  deriving DecidableEq

def DecodeError.text : DecodeError → Text
  | .invalidByte index byte =>
    [lit "Invalid symbol ", .text (printNat byte.toNat), lit ", offset ",
      .text (printNat index), lit "."]
  | .invalidLength length => [lit "Invalid input length: ", .text (printNat length)]
  | .invalidLastSymbol index byte =>
    [lit "Invalid last symbol ", .text (printNat byte.toNat), lit ", offset ",
      .text (printNat index), lit "."]
  | .invalidPadding => [lit "Invalid padding"]

structure Primitives where
  encode : Bytes → Bytes
  decode : Bytes → Except DecodeError Bytes
  pbkdf2 : Bytes → Bytes → ℕ → Bytes
  hmac : Bytes → Bytes → Bytes
  sha256 : Bytes → Bytes

structure ScramCredential where
  salt : Bytes
  iterations : ℕ
  storedKey : Bytes
  serverKey : Bytes
  deriving DecidableEq

structure RoleAttributes where
  superuser : Bool
  canLogin : Bool
  deriving DecidableEq

def rolesTable : String := "_tpt_roles"

def parseDigitsU32 : ℕ → Bytes → Except Text ℕ
  | acc, [] => .ok acc
  | acc, b :: bytes =>
    if !isDigit b then .error [lit "invalid digit found in string"]
    else if 2 ^ 32 ≤ acc * 10 + (b.toNat - 48) then .error
      [lit "number too large to fit in target type"]
    else parseDigitsU32 (acc * 10 + (b.toNat - 48)) bytes

def parseU32 : Bytes → Except Text ℕ
  | [] => .error [lit "cannot parse integer from empty string"]
  | [b] => parseDigitsU32 0 [b]
  | b :: bytes => parseDigitsU32 0 (if b = 43 then bytes else b :: bytes)

section Roles

variable (prims : Primitives) (tables : Tables)

def cell (value : Bytes) (idx : ℕ) : Except Text Bytes :=
  match cellStr value idx with
  | some text => .ok text
  | none => .error [lit "missing/invalid _tpt_roles cell ", .text (printNat idx)]

def decodeText (text : Bytes) : Except Text Bytes :=
  match prims.decode text with
  | .ok bytes => .ok bytes
  | .error e => .error e.text

def decodeKey (name : String) (text : Bytes) : Except Text Bytes := do
  let bytes ← decodeText prims text
  if bytes.length = 32 then .ok bytes
  else .error [lit ("corrupt " ++ name ++ " for role \""), .user, lit "\""]

/-- A role whose row does not say may log in. -/
def findRole (user : Bytes) : Option RoleAttributes :=
  ((tables rolesTable).get? user).map fun value =>
    ⟨cellStr value 6 = some (utf8 "t"), (cellStr value 7).elim true (· = utf8 "t")⟩

def readCredential (value : Bytes) : Except Text ScramCredential := do
  let salt ← cell value 1
  let iterations ← parseU32 (← cell value 2)
  let storedKey ← cell value 3
  let serverKey ← cell value 4
  let salt ← decodeText prims salt
  let storedKey ← decodeKey prims "stored_key" storedKey
  let serverKey ← decodeKey prims "server_key" serverKey
  .ok ⟨salt, iterations, storedKey, serverKey⟩

def find (user : Bytes) : Except Text (Option ScramCredential) :=
  match (tables rolesTable).get? user with
  | none => .ok none
  | some value => (readCredential prims value).map some

def deriveCredential (password salt : Bytes) (iterations : ℕ) : ScramCredential :=
  let salted := prims.pbkdf2 password salt iterations
  ⟨salt, iterations, prims.sha256 (prims.hmac salted (utf8 "Client Key")),
    prims.hmac salted (utf8 "Server Key")⟩

def verifyPassword (user password : Bytes) : Except Text Bool := do
  match ← find prims tables user with
  | none => .ok false
  | some cred =>
    let candidate := deriveCredential prims password cred.salt cred.iterations
    .ok (candidate.storedKey = cred.storedKey && candidate.serverKey = cred.serverKey)

end Roles

inductive Failure where
  | notPermitted
  | noSuchRole
  | credential (t : Text)
  | closed
  | unexpectedMessage
  | initialResponse
  | mechanism
  | notText
  | channelBinding
  | missing (field : Char)
  | nonce
  | proof
  deriving DecidableEq

inductive Frontend where
  | passwordData (data : Bytes)
  | other
  deriving DecidableEq

inductive Backend where
  | authenticationOk
  | authenticationSasl (mechanisms : List Bytes)
  | saslContinue (nonce salt : Bytes) (iterations : ℕ)
  | saslFinal (data : Bytes)
  | errorResponse (code : Bytes) (t : Text)
  deriving DecidableEq

def mechanismName : Bytes := utf8 "SCRAM-SHA-256"

/-- The name of the mechanism up to a zero, and the data under its length; a negative length is
none. -/
def parseSaslInitialResponse (data : Bytes) : Except Failure (Bytes × Bytes) :=
  match splitOnce 0 data with
  | none => .error .initialResponse
  | some (mechanism, rest) =>
    if !validUtf8 mechanism then .error .notText
    else if rest.length < 4 then .error .initialResponse
    else
      let len := decodeBE (rest.take 4)
      if 2 ^ 31 ≤ len then .ok (mechanism, [])
      else if len ≤ (rest.drop 4).length then .ok (mechanism, (rest.drop 4).take len)
      else .error .initialResponse

def field (s : Bytes) (key : Char) : Except Failure Bytes :=
  match (s.splitOn 44).findSome? fun part => (utf8 (key.toString ++ "=")).isPrefixOf? part with
  | some value => .ok value
  | none => .error (.missing key)

structure ServerFirst where
  clientFirstBare : Bytes
  combinedNonce : Bytes
  salt : Bytes
  iterations : ℕ
  deriving DecidableEq

section Exchange

variable (prims : Primitives)

def ServerFirst.message (first : ServerFirst) : Bytes :=
  utf8 "r=" ++ first.combinedNonce ++ utf8 ",s=" ++ prims.encode first.salt ++ utf8 ",i=" ++
    printNat first.iterations

/-- Both headers that ask for no channel binding; `nonce` are the random bytes of the server. -/
def serverFirst (nonce clientFirst : Bytes) (cred : ScramCredential) : Except Failure ServerFirst :=
  if !validUtf8 clientFirst then .error .notText
  else
    match ((utf8 "n,,").isPrefixOf? clientFirst).or ((utf8 "y,,").isPrefixOf? clientFirst) with
    | none => .error .channelBinding
    | some bare => do
      let clientNonce ← field bare 'r'
      .ok ⟨bare, clientNonce ++ prims.encode nonce, cred.salt, cred.iterations⟩

def verifyClientFinal (clientFinal : Bytes) (first : ServerFirst) (cred : ScramCredential) :
    Except Failure Bytes :=
  if !validUtf8 clientFinal then .error .notText
  else do
    let channelBinding ← field clientFinal 'c'
    let nonce ← field clientFinal 'r'
    if nonce ≠ first.combinedNonce then .error .nonce
    else do
      let proof ← field clientFinal 'p'
      match prims.decode proof with
      | .error e => .error (.credential e.text)
      | .ok proof =>
        if proof.length ≠ 32 then .error .proof
        else
          let withoutProof := utf8 "c=" ++ channelBinding ++ utf8 ",r=" ++ nonce
          let authMessage :=
            first.clientFirstBare ++ utf8 "," ++ first.message prims ++ utf8 "," ++ withoutProof
          let clientKey := List.zipWith (· ^^^ ·) proof (prims.hmac cred.storedKey authMessage)
          if prims.sha256 clientKey ≠ cred.storedKey then .error .proof
          else .ok (utf8 "v=" ++ prims.encode (prims.hmac cred.serverKey authMessage))

abbrev Talk := ExceptT Failure (StateM (List Backend))

abbrev Client := List Backend → Option Frontend

def send (m : Backend) : Talk Unit := fun sent => (.ok (), sent ++ [m])

def readPassword (client : Client) : Talk Bytes := fun sent =>
  match client sent with
  | some (.passwordData data) => (.ok data, sent)
  | some .other => (.error .unexpectedMessage, sent)
  | none => (.error .closed, sent)

def ofExcept {α : Type} (r : Except Failure α) : Talk α := fun sent => (r, sent)

variable (tables : Tables) (client : Client) (nonce user : Bytes)

def credentialFor : Except Failure ScramCredential :=
  match findRole tables user with
  | some ⟨_, false⟩ => .error .notPermitted
  | _ =>
    match find prims tables user with
    | .error t => .error (.credential t)
    | .ok none => .error .noSuchRole
    | .ok (some cred) => .ok cred

def authenticate : Talk Unit := do
  let cred ← ofExcept (credentialFor prims tables user)
  send (.authenticationSasl [mechanismName])
  let initial ← readPassword client
  let (mechanism, clientFirst) ← ofExcept (parseSaslInitialResponse initial)
  if mechanism ≠ mechanismName then throw .mechanism
  let first ← ofExcept (serverFirst prims nonce clientFirst cred)
  send (.saslContinue first.combinedNonce first.salt first.iterations)
  let clientFinal ← readPassword client
  let serverFinal ← ofExcept (verifyClientFinal prims clientFinal first cred)
  send (.saslFinal serverFinal)
  send .authenticationOk

def failedText : Text := [lit "password authentication failed for user \"", .user, lit "\""]

def session : List Backend :=
  if (tables rolesTable).entries = [] then [.authenticationOk]
  else
    match (authenticate prims tables client nonce user).run.run [] with
    | (.ok (), sent) => sent
    | (.error _, sent) => sent ++ [.errorResponse (utf8 "28P01") failedText]

end Exchange

section Bridges

variable (prims : Primitives) (tables : Tables) (forRole : Bytes → Except Text Actor)

def parseBasicAuth (header : Option Bytes) : Option (Bytes × Bytes) := do
  let header ← header
  let (scheme, value) ← splitOnce 32 header
  if !eqIgnoreAsciiCase scheme (utf8 "Basic") then none
  else
    match prims.decode (trim value) with
    | .error _ => none
    | .ok decoded => if validUtf8 decoded then splitOnce 58 decoded else none

def authenticateBasic (authorization : Option Bytes) : Except Text Actor :=
  if (tables rolesTable).entries = [] then .ok unrestrictedActor
  else
    match parseBasicAuth prims authorization with
    | none => .error [lit "missing or malformed Authorization header (expected 'Basic <base64>')"]
    | some (user, pass) =>
      match findRole tables user with
      | none => .error [lit "role \"", .user, lit "\" does not exist"]
      | some ⟨_, false⟩ => .error [lit "role \"", .user, lit "\" is not permitted to log in"]
      | some ⟨_, true⟩ =>
        match verifyPassword prims tables user pass with
        | .error t => .error t
        | .ok false => .error [lit "password authentication failed for role \"", .user, lit "\""]
        | .ok true => forRole user

inductive Bridge where
  | httpQuery | webSocket | grpc
  deriving DecidableEq

structure Refusal where
  status : ℕ
  text : Text
  deriving DecidableEq

/-- The WebSocket bridge keeps the text for itself. -/
def refuse (t : Text) : Bridge → Refusal
  | .httpQuery => ⟨401, lit "unauthorized: " :: t⟩
  | .webSocket => ⟨401, []⟩
  | .grpc => ⟨16, lit "unauthorized: " :: t⟩

def bridge (b : Bridge) (authorization : Option Bytes) : Except Refusal Actor :=
  match authenticateBasic prims tables forRole authorization with
  | .ok actor => .ok actor
  | .error t => .error (refuse t b)

end Bridges

/-- Without salts and nonces, and with another name in place of the user's. -/
def mask (name : Bytes) : Backend → Backend
  | .saslContinue _ _ iterations => .saslContinue [] [] iterations
  | .saslFinal _ => .saslFinal []
  | .errorResponse code t => .errorResponse code [.text (render name t)]
  | m => m

def failure (name : Bytes) : Backend := .errorResponse (utf8 "28P01")
    [.text (render name failedText)]

def Unknowing (prims : Primitives) (client : Client) (cred : ScramCredential) : Prop :=
  ∀ sent data first, client sent = some (.passwordData data) →
    ∃ e, verifyClientFinal prims data first cred = .error e

section Exchange

variable {prims : Primitives} {tables : Tables} {client : Client} {nonce user : Bytes}

/-- Whether the first message of the client is answered; this does not depend on the credential. -/
def opens (client : Client) : Bool :=
  match client [.authenticationSasl [mechanismName]] with
  | some (.passwordData initial) =>
    match parseSaslInitialResponse initial with
    | .ok (mechanism, clientFirst) => mechanism = mechanismName && validUtf8 clientFirst &&
      (((utf8 "n,,").isPrefixOf? clientFirst).or ((utf8 "y,,").isPrefixOf? clientFirst)).any
        fun bare => (field bare 'r').isOk
    | .error _ => false
  | _ => false

theorem run_ofExcept : (ofExcept r).run.run sent = (r, sent) := rfl

theorem session_refused (hroles : (tables rolesTable).entries ≠ [])
    (h : credentialFor prims tables user = .error e) :
    session prims tables client nonce user = [.errorResponse (utf8 "28P01") failedText] := by
  have hrun : (authenticate prims tables client nonce user).run.run [] = (.error e, []) := by
    simp only [authenticate, run_bind, run_ofExcept, h]
  simp [session, hroles, hrun]

theorem isOk_serverFirst : (serverFirst prims nonce clientFirst cred).isOk =
    (validUtf8 clientFirst &&
      (((utf8 "n,,").isPrefixOf? clientFirst).or ((utf8 "y,,").isPrefixOf? clientFirst)).any
        fun bare => (field bare 'r').isOk) := by
  unfold serverFirst
  cases validUtf8 clientFirst with
  | false => rfl
  | true =>
    cases ((utf8 "n,,").isPrefixOf? clientFirst).or ((utf8 "y,,").isPrefixOf? clientFirst) with
    | none => rfl
    | some bare =>
      simp only [any_some]
      cases field bare 'r' <;> rfl

variable {cred : ScramCredential}

theorem iterations_serverFirst (h : serverFirst prims nonce clientFirst cred = .ok first) :
    first.iterations = cred.iterations := by
  unfold serverFirst at h
  split at h
  · cases h
  · split at h
    · cases h
    · obtain ⟨clientNonce, -, h⟩ := FallibleLists.bind_eq_ok.mp h
      cases h
      rfl

theorem run_readPassword : (readPassword client).run.run sent = match client sent with
    | some (.passwordData data) => (.ok data, sent)
    | some .other => (.error .unexpectedMessage, sent)
    | none => (.error .closed, sent) := rfl

/-- Whatever follows the proof is not reached. -/
theorem run_proof (hclient : Unknowing prims client cred) (next : Bytes → Talk Unit) : ∃ e, (do
      let clientFinal ← readPassword client
      let serverFinal ← ofExcept (verifyClientFinal prims clientFinal first cred)
      next serverFinal : Talk Unit).run.run sent = (.error e, sent) := by
  simp only [run_bind, run_readPassword, run_ofExcept]
  cases hreply : client sent with
  | none => exact ⟨_, rfl⟩
  | some message =>
    cases message with
    | other => exact ⟨_, rfl⟩
    | passwordData data =>
      obtain ⟨e, he⟩ := hclient sent data first hreply
      exact ⟨e, by simp [he]⟩

/-- The exchange with a client that does not know the password ends with its first or its second
message. -/
theorem run_authenticate (h : credentialFor prims tables user = .ok cred)
    (hclient : Unknowing prims client cred) (nonce name : Bytes) :
    ∃ e rest, (authenticate prims tables client nonce user).run.run [] =
        (.error e, .authenticationSasl [mechanismName] :: rest) ∧
      rest.map (mask name) = if opens client then [.saslContinue [] [] cred.iterations]
        else [] := by
  have hsent : (send (.authenticationSasl [mechanismName])).run.run [] =
      (.ok (), [.authenticationSasl [mechanismName]]) := rfl
  simp only [authenticate, run_bind, run_ofExcept, h, hsent]
  rw [run_readPassword]
  cases hfirst : client [.authenticationSasl [mechanismName]] with
  | none => exact ⟨_, [], rfl, by simp [opens, hfirst]⟩
  | some message =>
    cases message with
    | other => exact ⟨_, [], rfl, by simp [opens, hfirst]⟩
    | passwordData initial =>
      dsimp only
      cases hparse : parseSaslInitialResponse initial with
      | error e =>
        exact ⟨_, [], rfl, by simp [opens, hfirst, hparse]⟩
      | ok parsed =>
        obtain ⟨mechanism, clientFirst⟩ := parsed
        have hopens : opens client =
            (mechanism = mechanismName && (serverFirst prims nonce clientFirst cred).isOk) := by
          simp only [opens, hfirst, hparse, isOk_serverFirst, Bool.and_assoc]
        dsimp only
        by_cases hmechanism : mechanism = mechanismName
        · cases hserver : serverFirst prims nonce clientFirst cred with
          | error e =>
            refine ⟨e, [], ?_, by simp [hopens, hserver, Except.toBool]⟩
            rw [if_neg (by simpa using hmechanism), run_bind, run_ofExcept]
          | ok first =>
            obtain ⟨e, he⟩ := run_proof hclient
              (fun serverFinal => do send (.saslFinal serverFinal); send .authenticationOk)
            refine ⟨e, [.saslContinue first.combinedNonce first.salt first.iterations], ?_, ?_⟩
            · rw [if_neg (by simpa using hmechanism), run_bind, run_ofExcept]
              exact he
            · simp [hopens, hserver, hmechanism, mask, iterations_serverFirst hserver,
                Except.toBool]
        · refine ⟨.mechanism, [], ?_, by simp [hopens, hmechanism]⟩
          rw [if_pos hmechanism]
          rfl

/-- A client that does not know the password is told whether there is one, and how often it is
hashed. -/
theorem session_told (hroles : (tables rolesTable).entries ≠ [])
    (h : credentialFor prims tables user = .ok cred) (hclient : Unknowing prims client cred) :
    (session prims tables client nonce user).map (mask name) = .authenticationSasl
      [mechanismName] ::
      ((if opens client then [.saslContinue [] [] cred.iterations] else []) ++ [failure name]) := by
  obtain ⟨e, rest, hrun, hrest⟩ := run_authenticate h hclient nonce name
  simp only [session, hroles, if_false, hrun, map_append, map_cons, hrest]
  rfl

end Exchange

def Foreign {α : Type} (r : Except Text α) : Prop :=
  ∀ t, r = .error t → ∀ name, (render name t).head? ≠ some 114

section Texts

variable {α β : Type}

theorem foreign_ok (a : α) : Foreign (.ok a) := fun _ h => nomatch h

theorem foreign_bind (hx : Foreign x) (hf : ∀ a, Foreign (f a)) : Foreign (x >>= f) := by
  cases x with
  | error t =>
    intro t' h
    cases h
    exact hx t rfl
  | ok a => exact hf a

theorem foreign_error (hs : s.head? = some c) (hc : c ≠ 114 := by decide) :
    Foreign (.error (.text s :: t) : Except Text α) := by
  intro t' h name
  cases h
  have hhead : (render name (.text s :: t)).head? = some c := by
    cases s with
    | nil => cases hs
    | cons b s => exact hs
  rw [hhead]
  simpa using hc

theorem foreign_parseDigitsU32 (acc : ℕ) : Foreign (parseDigitsU32 acc bytes) := by
  induction bytes generalizing acc with
  | nil => exact foreign_ok _
  | cons b bytes ih =>
    unfold parseDigitsU32
    split
    · exact foreign_error rfl
    · split
      · exact foreign_error rfl
      · exact ih _

theorem foreign_parseU32 : Foreign (parseU32 bytes) := by
  unfold parseU32
  split
  · exact foreign_error rfl
  · exact foreign_parseDigitsU32 _
  · exact foreign_parseDigitsU32 _

theorem foreign_cell : Foreign (cell value idx) := by
  unfold cell
  split
  · exact foreign_ok _
  · exact foreign_error rfl

variable {prims : Primitives} {tables : Tables}

theorem foreign_decodeText : Foreign (decodeText prims text) := by
  unfold decodeText
  split
  · exact foreign_ok _
  · rename_i e _
    cases e <;> exact foreign_error rfl

theorem foreign_decodeKey (hname : name = "stored_key" ∨ name = "server_key") :
    Foreign (decodeKey prims name text) := by
  refine foreign_bind foreign_decodeText fun bytes => ?_
  split
  · exact foreign_ok _
  · rcases hname with rfl | rfl
    · exact foreign_error rfl
    · exact foreign_error rfl

variable (prims tables)

theorem foreign_readCredential (value : Bytes) : Foreign (readCredential prims value) := by
  refine foreign_bind foreign_cell fun salt => ?_
  refine foreign_bind foreign_cell fun iterations => ?_
  refine foreign_bind foreign_parseU32 fun iterations => ?_
  refine foreign_bind foreign_cell fun storedKey => ?_
  refine foreign_bind foreign_cell fun serverKey => ?_
  refine foreign_bind foreign_decodeText fun salt => ?_
  refine foreign_bind (foreign_decodeKey (.inl rfl)) fun storedKey => ?_
  exact foreign_bind (foreign_decodeKey (.inr rfl)) fun serverKey => foreign_ok _

theorem foreign_find : Foreign (find prims tables user) := by
  unfold find
  split
  · exact foreign_ok _
  · rename_i value _
    have hread := foreign_readCredential prims value
    cases hvalue : readCredential prims value with
    | ok cred => exact foreign_ok _
    | error t =>
      intro t' h
      cases h
      exact hread t hvalue

theorem foreign_verifyPassword (user password : Bytes) :
    Foreign (verifyPassword prims tables user password) := by
  refine foreign_bind (foreign_find prims tables) fun cred => ?_
  cases cred <;> exact foreign_ok _

end Texts

section Names

variable (prims : Primitives) {tables : Tables} (forRole : Bytes → Except Text Actor)

def answer (tables : Tables) (b : Bridge) (name : Bytes) (authorization : Option Bytes) :
    Except (ℕ × Bytes) Actor :=
  (bridge prims tables forRole b authorization).mapError fun r => (r.status, render name r.text)

variable {prims forRole} {user pass : Bytes} {authorization : Option Bytes}

theorem entries_of_findRole (h : findRole tables user = some attrs) :
    (tables rolesTable).entries ≠ [] := by
  intro hempty
  obtain ⟨value, hvalue, -⟩ := map_eq_some_iff.mp h
  have hmem := OrderedMap.get?_eq_some.mp hvalue
  rw [hempty] at hmem
  cases hmem

theorem find_known (prims : Primitives) (h : findRole tables user = some attrs) :
    (∃ cred, find prims tables user = .ok (some cred)) ∨
      ∃ t, find prims tables user = .error t := by
  obtain ⟨value, hvalue, -⟩ := map_eq_some_iff.mp h
  simp only [find, hvalue]
  cases readCredential prims value with
  | ok cred => exact .inl ⟨cred, rfl⟩
  | error t => exact .inr ⟨t, rfl⟩

theorem credentialFor_other (h : ∀ attrs, findRole tables user = some attrs →
    attrs.canLogin = false) :
    ∃ e, credentialFor prims tables user = .error e := by
  match hrole : findRole tables user with
  | none =>
    have hvalue : (tables rolesTable).get? user = none := map_eq_none_iff.mp hrole
    exact ⟨.noSuchRole, by simp [credentialFor, hrole, find, hvalue]⟩
  | some ⟨superuser, false⟩ => exact ⟨.notPermitted, by simp [credentialFor, hrole]⟩
  | some ⟨superuser, true⟩ => cases h _ hrole

theorem masked_refused (hroles : (tables rolesTable).entries ≠ [])
    (h : credentialFor prims tables user = .error e) :
    (session prims tables client nonce user).map (mask name) = [failure name] := by
  rw [session_refused hroles h]
  rfl

theorem answer_error (h : authenticateBasic prims tables forRole authorization = .error t) :
    answer prims forRole tables b name authorization =
      .error ((refuse t b).status, render name (refuse t b).text) := by
  simp [answer, bridge, h, Except.mapError]

variable (forRole)

theorem authenticateBasic_known (hknown : findRole tables user = some ⟨superuser, true⟩)
    (hheader : parseBasicAuth prims authorization = some (user, pass))
    (hpass : verifyPassword prims tables user pass ≠ .ok true) :
    ∃ t, authenticateBasic prims tables forRole authorization = .error t ∧
      ∀ name, (render name t).head? ≠ some 114 := by
  simp only [authenticateBasic, entries_of_findRole hknown, hheader, hknown]
  have hforeign := foreign_verifyPassword prims tables user pass
  cases hverify : verifyPassword prims tables user pass with
  | error t => exact ⟨t, rfl, hforeign t hverify⟩
  | ok ok =>
    cases ok with
    | true => exact absurd hverify hpass
    | false => exact ⟨_, rfl, foreign_error (α := Unit) rfl (by decide) _ rfl⟩

theorem authenticateBasic_other (hroles : (tables rolesTable).entries ≠ [])
    (hother : ∀ attrs, findRole tables user = some attrs → attrs.canLogin = false)
    (hheader : parseBasicAuth prims authorization = some (user, pass)) :
    ∃ t, authenticateBasic prims tables forRole authorization = .error t ∧
      ∀ name, (render name t).head? = some 114 := by
  simp only [authenticateBasic, hroles, hheader]
  match hrole : findRole tables user with
  | none | some ⟨superuser, false⟩ => exact ⟨_, rfl, fun _ => rfl⟩
  | some ⟨superuser, true⟩ => cases hother _ hrole

/-- One name is a role that may log in and the other one is not. A client without the password is
told the same for both in the session if and only if the credential of the role cannot be read, and
by the WebSocket bridge in any case; the other bridges tell them apart. -/
theorem names_are_told_apart (client : Client) (nonce nonce' name : Bytes) {known other : Bytes}
    {superuser : Bool} (hknown : findRole tables known = some ⟨superuser, true⟩)
    (hother : ∀ attrs, findRole tables other = some attrs → attrs.canLogin = false)
    (hclient : ∀ cred, find prims tables known = .ok (some cred) → Unknowing prims client cred)
    {header header' : Option Bytes} {pass pass' : Bytes}
    (hheader : parseBasicAuth prims header = some (known, pass))
    (hheader' : parseBasicAuth prims header' = some (other, pass'))
    (hpass : verifyPassword prims tables known pass ≠ .ok true) :
    ((session prims tables client nonce known).map (mask name) =
        (session prims tables client nonce' other).map (mask name) ↔
      ∃ t, find prims tables known = .error t) ∧
    answer prims forRole tables .webSocket name header =
      answer prims forRole tables .webSocket name header' ∧
    ∀ b, b ≠ .webSocket →
      answer prims forRole tables b name header ≠ answer prims forRole tables b name header' := by
  have hroles := entries_of_findRole hknown
  obtain ⟨t, ht, hhead⟩ := authenticateBasic_known forRole hknown hheader hpass
  obtain ⟨t', ht', hhead'⟩ := authenticateBasic_other forRole hroles hother hheader'
  obtain ⟨e, he⟩ := credentialFor_other hother
  refine ⟨?_, ?_, fun b hb => ?_⟩
  · rw [masked_refused hroles he]
    rcases find_known prims hknown with ⟨cred, hcred⟩ | ⟨t, ht⟩
    · have hready : credentialFor prims tables known =
        .ok cred := by simp [credentialFor, hknown, hcred]
      rw [session_told hroles hready (hclient cred hcred)]
      simp [hcred]
    · have hclosed : credentialFor prims tables known = .error (.credential t) := by
        simp [credentialFor, hknown, ht]
      rw [masked_refused hroles hclosed]
      simp [ht]
  · rw [answer_error ht, answer_error ht']
    rfl
  · rw [answer_error ht, answer_error ht']
    have htext : render name (lit "unauthorized: " :: t) ≠
      render name (lit "unauthorized: " :: t') := by
      intro heq
      have htail : render name t = render name t' := append_cancel_left heq
      exact hhead name (htail ▸ hhead' name)
    cases b with
    | webSocket => exact absurd rfl hb
    | httpQuery | grpc => simpa [refuse] using htext

end Names

/-- Base64 that keeps the bytes, and hashes that keep their input. -/
def plainPrimitives : Primitives where
  encode := id
  decode := .ok
  pbkdf2 password _ _ := password
  hmac key _ := key
  sha256 := id

def key (b : UInt8) : Bytes := List.replicate 32 b

def rolesRow (cells : List Bytes) : Bytes :=
  cells.flatMap fun c => encodeBE 4 c.length ++ c

def aliceOnly : Tables := tablesAfter [⟨rolesTable, utf8 "alice",
  some (rolesRow [utf8 "alice", utf8 "salt", utf8 "4096", key 65, key 65, utf8 "0", utf8 "f",
    utf8 "t"])⟩]

def knocking : Client := fun _ =>
  some (.passwordData (mechanismName ++ [0, 0, 0, 0, 10] ++ utf8 "n,,n=,r=ab"))

def basic (text : String) : Option Bytes := some (utf8 ("Basic " ++ text))

theorem names_are_told_apart_alice :
    ((session plainPrimitives aliceOnly knocking [1] (utf8 "alice")).map (mask []) =
        (session plainPrimitives aliceOnly knocking [2] (utf8 "bob")).map (mask []) ↔
      ∃ t, find plainPrimitives aliceOnly (utf8 "alice") = .error t) ∧
    answer plainPrimitives (fun _ => .error []) aliceOnly .webSocket [] (basic "alice:guess") =
      answer plainPrimitives (fun _ => .error []) aliceOnly .webSocket [] (basic "bob:guess") ∧
    ∀ b, b ≠ .webSocket →
      answer plainPrimitives (fun _ => .error []) aliceOnly b [] (basic "alice:guess") ≠
        answer plainPrimitives (fun _ => .error []) aliceOnly b [] (basic "bob:guess") := by
  have hknown : findRole aliceOnly (utf8 "alice") = some ⟨false, true⟩ := by decide +kernel
  have hother : findRole aliceOnly (utf8 "bob") = none := by decide +kernel
  have hheader user (h : user = "alice" ∨ user = "bob") :
      parseBasicAuth plainPrimitives (basic (user ++ ":guess")) =
        some (utf8 user, utf8 "guess") := by
    rcases h with rfl | rfl <;> decide +kernel
  refine names_are_told_apart (fun _ => .error []) knocking [1] [2] [] hknown (by simp [hother])
    (by rintro cred - sent data first ⟨⟩; exact ⟨.missing 'c', rfl⟩) (hheader "alice" (.inl rfl))
      (hheader "bob" (.inr rfl)) ?_
  decide +kernel

/-- A name without a role is refused at once, and the bridges say why. -/
theorem unknown_name_is_told :
    let server := session plainPrimitives aliceOnly knocking [1]
    (server (utf8 "alice")).map (mask []) =
        [.authenticationSasl [mechanismName], .saslContinue [] [] 4096, failure []] ∧
      (server (utf8 "bob")).map (mask []) = [failure []] ∧
      answer plainPrimitives (fun _ => .error []) aliceOnly .httpQuery (utf8 "x")
        (basic "alice:guess") =
        .error (401, utf8 "unauthorized: password authentication failed for role \"x\"") ∧
      answer plainPrimitives (fun _ => .error []) aliceOnly .httpQuery (utf8 "x")
        (basic "bob:guess") =
        .error (401, utf8 "unauthorized: role \"x\" does not exist") := by
  all_goals decide +kernel

end WireAuth
