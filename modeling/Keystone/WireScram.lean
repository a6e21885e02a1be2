import Keystone.Utf8Text
import Keystone.WireAuth

/-! # The SCRAM exchange with a client

The client is the one of RFC 5802: it takes the first message of the server apart, and proves that
it has the key without sending it. -/
namespace WireScram

open ByteCodecs DecimalText Except FileNames List StorageInternalKey Utf8Text WireAuth

/-- Only the comma has its byte. -/
theorem comma_notMem_utf8EncodeChar (h : c ≠ ',') : 44 ∉ String.utf8EncodeChar c := by
  intro hmem
  obtain ⟨hlt, heq⟩ | ⟨-, hall⟩ := utf8EncodeChar_cases c
  · have hv : c.toNat = 44 := by
      simpa [heq, ← UInt8.toNat_inj, Nat.mod_eq_of_lt (show c.toNat < 256 by omega),
        eq_comm] using hmem
    exact h (Char.ext (UInt32.toNat_inj.1 hv))
  · exact absurd (hall 44 hmem) (by decide)

theorem field_of_parts {key : Char} (before : List Bytes) {after : List Bytes}
    (hs : s.splitOn 44 = before ++ (utf8 (key.toString ++ "=") ++ value) :: after)
    (hbefore : ∀ part ∈ before, (utf8 (key.toString ++ "=")).isPrefixOf? part = none) :
    field s key = .ok value := by
  have hfound :
    (s.splitOn 44).findSome? (fun part => (utf8 (key.toString ++ "=")).isPrefixOf? part) =
      some value := by
    have hself : (utf8 (key.toString ++ "=")).isPrefixOf? (utf8 (key.toString ++ "=") ++ value) =
        some value := isPrefixOf?_eq_some_iff_append_eq.2 rfl
    rw [hs, findSome?_append, findSome?_eq_none_iff.2 hbefore, Option.none_or,
      findSome?_cons, hself]
  rw [field, hfound]

theorem comma_notMem_field {key : Char} (h : field s key = .ok value) : 44 ∉ value := by
  unfold field at h
  split at h
  · rename_i found hfound
    obtain rfl : found = value := by simpa using h
    obtain ⟨part, hmem, hstarts⟩ := exists_of_findSome?_eq_some hfound
    have hpart := not_mem_of_mem_splitOn hmem
    rw [isPrefixOf?_eq_some_iff_append_eq] at hstarts
    intro hcomma
    exact hpart (hstarts ▸ mem_append_right _ hcomma)
  · cases h

/-- Both headers ask for no channel binding. -/
inductive Gs2 where
  | n
  | y
  deriving DecidableEq

def Gs2.header : Gs2 → Bytes
  | .n => utf8 "n,,"
  | .y => utf8 "y,,"

def escape (c : Char) : List Char :=
  if c = ',' then ['=', '2', 'C'] else if c = '=' then ['=', '3', 'D'] else [c]

def saslName (user : String) : String := String.ofList (user.toList.flatMap escape)

def clientFirstBare (user : String) (nonce : Bytes) : Bytes :=
  utf8 "n=" ++ utf8 (saslName user) ++ utf8 ",r=" ++ nonce

section Exchange

variable (prims : Primitives)

def withoutProof (channelBinding nonce : Bytes) :
    Bytes := utf8 "c=" ++ channelBinding ++ utf8 ",r=" ++ nonce

def authMessage (bare serverFirst finalWithoutProof : Bytes) : Bytes :=
  bare ++ utf8 "," ++ serverFirst ++ utf8 "," ++ finalWithoutProof

def clientFinal (password : Bytes) (gs2 : Gs2) (bare nonce serverFirst : Bytes) :
    Option (Bytes × Bytes) :=
  match serverFirst.splitOn 44 with
  | [r, s, i] => do
    let combined ← (utf8 "r=").isPrefixOf? r
    guard (nonce.isPrefixOf combined)
    let salt ← (prims.decode (← (utf8 "s=").isPrefixOf? s)).toOption
    let iterations ← parseDigits (← (utf8 "i=").isPrefixOf? i)
    let salted := prims.pbkdf2 password salt iterations
    let clientKey := prims.hmac salted (utf8 "Client Key")
    let withoutProof := withoutProof (prims.encode gs2.header) combined
    let message := authMessage bare serverFirst withoutProof
    let proof := List.zipWith (· ^^^ ·) clientKey (prims.hmac (prims.sha256 clientKey) message)
    some (withoutProof ++ utf8 ",p=" ++ prims.encode proof,
      prims.hmac (prims.hmac salted (utf8 "Server Key")) message)
  | _ => none

structure Codec : Prop where
  decode_encode : ∀ bytes, prims.decode (prims.encode bytes) = .ok bytes
  encode_plain : ∀ bytes, 44 ∉ prims.encode bytes
  encode_text : ∀ bytes, validUtf8 (prims.encode bytes) = true
  decode_plain : ∀ text bytes, prims.decode text = .ok bytes → 44 ∉ text
  hmac_length : ∀ key message, (prims.hmac key message).length = 32

variable {prims} {first : ServerFirst} {cred : ScramCredential}

/-- The first attributes with the keys are what decides. -/
theorem verifyClientFinal_eq_ok :
    verifyClientFinal prims final first cred = .ok out ↔ validUtf8 final = true ∧
      ∃ c p proof, field final 'c' = .ok c ∧ field final 'r' = .ok first.combinedNonce ∧
        field final 'p' = .ok p ∧ prims.decode p = .ok proof ∧ proof.length = 32 ∧
        let message := authMessage first.clientFirstBare (first.message prims)
          (withoutProof c first.combinedNonce)
        prims.sha256 (zipWith (· ^^^ ·) proof (prims.hmac cred.storedKey message)) =
          cred.storedKey ∧
          out = utf8 "v=" ++ prims.encode (prims.hmac cred.serverKey message) := by
  unfold verifyClientFinal
  cases htext : validUtf8 final with
  | false => simp
  | true =>
    simp only [Bool.not_true, Bool.false_eq_true]
    cases hc : field final 'c' with
    | error e => simp [bind, Except.bind]
    | ok c =>
      cases hr : field final 'r' with
      | error e => simp [bind, Except.bind]
      | ok r =>
        by_cases hnonce : r = first.combinedNonce
        · subst hnonce
          cases hp : field final 'p' with
          | error e => simp [bind, Except.bind]
          | ok p =>
            cases hproof : prims.decode p with
            | error e => simp [bind, Except.bind, hproof]
            | ok proof =>
              by_cases hlength : proof.length = 32
              · simp only [bind, Except.bind, hproof, hlength, ne_eq, not_true_eq_false,
                  if_false, ite_not,
                  Except.ok.injEq, true_and]
                constructor
                · intro h
                  split at h
                  · rename_i hkey
                    exact ⟨c, p, proof, rfl, rfl, hproof, hlength, hkey, (Except.ok.inj h).symm⟩
                  · cases h
                · rintro ⟨_, _, proof', rfl, rfl, hproof', -, hkey, rfl⟩
                  obtain rfl : proof = proof' := by simpa [hproof] using hproof'
                  exact if_pos hkey
              · simp [bind, Except.bind, hproof, hlength]
        · simp [bind, Except.bind, hnonce]

theorem saslName_plain : 44 ∉ utf8 (saslName user) := by
  rw [saslName, utf8_ofList, flatMap_assoc]
  simp only [mem_flatMap, not_exists, not_and]
  intro c _ d hd
  refine comma_notMem_utf8EncodeChar ?_
  rintro rfl
  unfold escape at hd
  split_ifs at hd with hcomma
  · simp at hd
  · simp at hd
  · exact hcomma (mem_singleton.1 hd).symm

variable {nonce : Bytes}

theorem splitOn_clientFirstBare (hnonce : 44 ∉ nonce) :
    (clientFirstBare user nonce).splitOn 44 = [utf8 "n=" ++ utf8 (saslName user),
      utf8 "r=" ++ nonce] := by
  have hjoin : clientFirstBare user nonce =
      [44].intercalate [utf8 "n=" ++ utf8 (saslName user), utf8 "r=" ++ nonce] := by
    simp [clientFirstBare, show utf8 ",r=" = 44 :: utf8 "r=" from rfl]
  rw [hjoin]
  refine splitOn_intercalate 44 ?_ (by simp)
  simp only [forall_mem_cons, mem_append, not_or]
  exact ⟨⟨by decide, saslName_plain⟩, ⟨by decide, hnonce⟩, by simp⟩

theorem splitOn_message (hcodec : Codec prims) (hnonce : 44 ∉ first.combinedNonce) :
    (first.message prims).splitOn 44 = [utf8 "r=" ++ first.combinedNonce,
      utf8 "s=" ++ prims.encode first.salt, utf8 "i=" ++ printNat first.iterations] := by
  have hdigits : 44 ∉ printNat first.iterations := by
    intro hmem
    have hdigit := all_eq_true.1 (all_isDigit_printNat first.iterations) _ hmem
    exact absurd hdigit (by decide)
  have hjoin : first.message prims = [44].intercalate [utf8 "r=" ++ first.combinedNonce,
      utf8 "s=" ++ prims.encode first.salt, utf8 "i=" ++ printNat first.iterations] := by
    simp [ServerFirst.message, intercalate, show utf8 ",s=" = 44 :: utf8 "s=" from rfl,
      show utf8 ",i=" = 44 :: utf8 "i=" from rfl]
  rw [hjoin]
  refine splitOn_intercalate 44 ?_ (by simp)
  simp only [forall_mem_cons, mem_append, not_or]
  exact ⟨⟨by decide, hnonce⟩, ⟨by decide, hcodec.encode_plain _⟩, ⟨by decide, hdigits⟩, by simp⟩

theorem splitOn_final (hc : 44 ∉ c) (hr : 44 ∉ r) (hp : 44 ∉ p) :
    (withoutProof c r ++ utf8 ",p=" ++ p).splitOn 44 =
      [utf8 "c=" ++ c, utf8 "r=" ++ r, utf8 "p=" ++ p] := by
  have hjoin : withoutProof c r ++ utf8 ",p=" ++ p =
      [44].intercalate [utf8 "c=" ++ c, utf8 "r=" ++ r, utf8 "p=" ++ p] := by
    simp [withoutProof, intercalate, show utf8 ",r=" = 44 :: utf8 "r=" from rfl,
      show utf8 ",p=" = 44 :: utf8 "p=" from rfl]
  rw [hjoin]
  refine splitOn_intercalate 44 ?_ (by simp)
  simp only [forall_mem_cons, mem_append, not_or]
  exact ⟨⟨by decide, hc⟩, ⟨by decide, hr⟩, ⟨by decide, hp⟩, by simp⟩

theorem fields_of_splitOn {final c r p : Bytes}
    (h : final.splitOn 44 = [utf8 "c=" ++ c, utf8 "r=" ++ r, utf8 "p=" ++ p]) :
    field final 'c' = .ok c ∧ field final 'r' = .ok r ∧ field final 'p' = .ok p := by
  refine ⟨field_of_parts [] h (by simp), field_of_parts [_] h ?_, field_of_parts [_, _] h ?_⟩
  · simp only [forall_mem_cons]
    exact ⟨rfl, by simp⟩
  · simp only [forall_mem_cons]
    exact ⟨rfl, rfl, by simp⟩

theorem serverFirst_clientFirst (htext : validUtf8 nonce = true) (hnonce : 44 ∉ nonce) (gs2 : Gs2) :
    serverFirst prims serverNonce (gs2.header ++ clientFirstBare user nonce) cred =
      .ok ⟨clientFirstBare user nonce, nonce ++ prims.encode serverNonce, cred.salt,
        cred.iterations⟩ := by
  set bare := clientFirstBare user nonce
  have hvalid : validUtf8 (gs2.header ++ bare) = true := by
    have hheader : validUtf8 gs2.header = true := by cases gs2 <;> exact validUtf8_utf8 _
    have hname := validUtf8_append (validUtf8_utf8 "n=") (validUtf8_utf8 (saslName user))
    exact validUtf8_append hheader
      (validUtf8_append (validUtf8_append hname (validUtf8_utf8 ",r=")) htext)
  have hbare : ((utf8 "n,,").isPrefixOf? (gs2.header ++ bare)).or
      ((utf8 "y,,").isPrefixOf? (gs2.header ++ bare)) = some bare := by
    cases gs2 <;> rfl
  have hfield : field bare 'r' = .ok nonce := by
    refine field_of_parts [_] (splitOn_clientFirstBare hnonce) ?_
    simp only [forall_mem_cons]
    exact ⟨rfl, by simp⟩
  rw [serverFirst, hvalid]
  simp only [Bool.not_true, Bool.false_eq_true, if_false, hbare, hfield]
  rfl

theorem xor_xor_cancel {a b : Bytes} (h : a.length = b.length) :
    zipWith (· ^^^ ·) (zipWith (· ^^^ ·) a b) b = a := by
  induction a generalizing b with
  | nil => rfl
  | cons x a ih =>
    cases b with
    | nil => simp at h
    | cons y b =>
      rw [zipWith_cons_cons, zipWith_cons_cons, ih (by simpa using h), UInt8.xor_assoc,
        UInt8.xor_self, UInt8.xor_zero]

theorem clientFinal_message (hcodec : Codec prims)
    (hnonce : 44 ∉ first.combinedNonce) (hmore : first.combinedNonce = nonce ++ more) :
    let salted := prims.pbkdf2 password first.salt first.iterations
    let clientKey := prims.hmac salted (utf8 "Client Key")
    let withoutProof := withoutProof (prims.encode gs2.header) first.combinedNonce
    let message := authMessage bare (first.message prims) withoutProof
    clientFinal prims password gs2 bare nonce (first.message prims) =
      some (withoutProof ++ utf8 ",p=" ++ prims.encode
          (zipWith (· ^^^ ·) clientKey (prims.hmac (prims.sha256 clientKey) message)),
        prims.hmac (prims.hmac salted (utf8 "Server Key")) message) := by
  have hself (a b : Bytes) : a.isPrefixOf? (a ++ b) = some b :=
    isPrefixOf?_eq_some_iff_append_eq.2 rfl
  have hstarts : nonce.isPrefixOf first.combinedNonce = true := by
    rw [hmore, isPrefixOf_iff_prefix]
    exact prefix_append _ _
  simp only [clientFinal, splitOn_message hcodec hnonce, hself, hstarts, hcodec.decode_encode,
    parseDigits_printNat, guard_true, Except.toOption, bind, Option.bind, pure]

/-- Who knows the password is let in, and finds the signature it expects. -/
theorem client_accepted (hcodec : Codec prims) (htext : validUtf8 nonce = true)
    (hnonce : 44 ∉ nonce) :
    let cred := deriveCredential prims password salt iterations
    let bare := clientFirstBare user nonce
    ∃ first final signature,
      serverFirst prims serverNonce (gs2.header ++ bare) cred = .ok first ∧
      clientFinal prims password gs2 bare nonce (first.message prims) = some (final, signature) ∧
      verifyClientFinal prims final first cred = .ok (utf8 "v=" ++ prims.encode signature) := by
  intro cred bare
  set first : ServerFirst := ⟨bare, nonce ++ prims.encode serverNonce, salt, iterations⟩ with hfirst
  have hcombined : 44 ∉ first.combinedNonce := by
    simp [hfirst, hnonce, hcodec.encode_plain serverNonce]
  refine ⟨first, _, _, serverFirst_clientFirst htext hnonce gs2,
    clientFinal_message hcodec hcombined rfl, ?_⟩
  obtain ⟨hc, hr, hp⟩ := fields_of_splitOn
    (splitOn_final (hcodec.encode_plain gs2.header) hcombined (hcodec.encode_plain _))
  refine verifyClientFinal_eq_ok.2 ⟨?_, _, _, _, hc, hr, hp, hcodec.decode_encode _, ?_, ?_, rfl⟩
  · have hbinding := validUtf8_append (validUtf8_utf8 "c=") (hcodec.encode_text gs2.header)
    have hall := validUtf8_append htext (hcodec.encode_text serverNonce)
    exact validUtf8_append (validUtf8_append (validUtf8_append (validUtf8_append hbinding
      (validUtf8_utf8 ",r=")) hall) (validUtf8_utf8 ",p=")) (hcodec.encode_text _)
  · simp [hcodec.hmac_length]
  · have hkey := xor_xor_cancel (a := prims.hmac (prims.pbkdf2 password salt iterations)
      (utf8 "Client Key"))
      (b := prims.hmac cred.storedKey (authMessage bare (first.message prims)
        (withoutProof (prims.encode gs2.header) first.combinedNonce)))
          (by simp [hcodec.hmac_length])
    exact congrArg prims.sha256 hkey

variable (prims first cred)

/-- The last message binds the header of the first one, the nonce of both sides and the proof, and
the proof is about the bytes that were exchanged. -/
def Bound (clientFirst final : Bytes) : Prop :=
  ∃ gs2 : Gs2, ∃ bare p proof, clientFirst = gs2.header ++ bare ∧
    let finalWithoutProof := withoutProof (prims.encode gs2.header) first.combinedNonce
    final = finalWithoutProof ++ utf8 ",p=" ++ p ∧ prims.decode p = .ok proof ∧
    prims.sha256 (List.zipWith (· ^^^ ·) proof (prims.hmac cred.storedKey
      (authMessage bare (first.message prims) finalWithoutProof))) = cred.storedKey

/-- Three attributes in the order of the RFC, the first for the header that was sent. -/
def InOrder (clientFirst final : Bytes) : Prop :=
  ∃ gs2 : Gs2, ∃ r p, gs2.header <+: clientFirst ∧
    final.splitOn 44 = [utf8 "c=" ++ prims.encode gs2.header, utf8 "r=" ++ r, utf8 "p=" ++ p]

variable {prims first cred} {serverNonce clientFirst final : Bytes}

theorem serverFirst_eq_ok (h : serverFirst prims serverNonce clientFirst cred = .ok first) :
    (∃ gs2 : Gs2, clientFirst = gs2.header ++ first.clientFirstBare) ∧
      ∃ clientNonce, field first.clientFirstBare 'r' = .ok clientNonce ∧
        first.combinedNonce = clientNonce ++ prims.encode serverNonce := by
  unfold serverFirst at h
  split at h
  · cases h
  · split at h
    · cases h
    · rename_i bare hbare
      cases hnonce : field bare 'r' with
      | error e =>
        rw [hnonce] at h
        cases h
      | ok clientNonce =>
        rw [hnonce] at h
        obtain rfl := ok.inj h
        refine ⟨?_, clientNonce, hnonce, rfl⟩
        rcases Option.or_eq_some_iff.1 hbare with hn | ⟨-, hy⟩
        · exact ⟨.n, (isPrefixOf?_eq_some_iff_append_eq.1 hn).symm⟩
        · exact ⟨.y, (isPrefixOf?_eq_some_iff_append_eq.1 hy).symm⟩

theorem Bound.inOrder (hcodec : Codec prims)
    (h : serverFirst prims serverNonce clientFirst cred = .ok first)
    (hbound : Bound prims first cred clientFirst final) : InOrder prims clientFirst final := by
  obtain ⟨gs2, bare, p, proof, rfl, rfl, hp, -⟩ := hbound
  obtain ⟨-, clientNonce, hfield, hcombined⟩ := serverFirst_eq_ok h
  have hnonce : 44 ∉ first.combinedNonce := by
    rw [hcombined, mem_append, not_or]
    exact ⟨comma_notMem_field hfield, hcodec.encode_plain serverNonce⟩
  exact ⟨gs2, _, p, prefix_append .., splitOn_final (hcodec.encode_plain _) hnonce
    (hcodec.decode_plain p proof hp)⟩

theorem InOrder.bound (h : serverFirst prims serverNonce clientFirst cred = .ok first)
    (hok : verifyClientFinal prims final first cred = .ok out)
      (horder : InOrder prims clientFirst final) :
    Bound prims first cred clientFirst final := by
  obtain ⟨gs2, r, p, hheader, hparts⟩ := horder
  obtain ⟨hc, hr, hp⟩ := fields_of_splitOn hparts
  obtain ⟨-, c', p', proof, hc', hr', hp', hproof, -, hkey, -⟩ := verifyClientFinal_eq_ok.1 hok
  obtain rfl : prims.encode gs2.header = c' := ok.inj (hc.symm.trans hc')
  obtain rfl : r = first.combinedNonce := ok.inj (hr.symm.trans hr')
  obtain rfl : p = p' := ok.inj (hp.symm.trans hp')
  obtain ⟨⟨gs2', hfirst⟩, -⟩ := serverFirst_eq_ok h
  obtain rfl : gs2 = gs2' := by
    obtain ⟨bare, hbare⟩ := hheader
    rw [hfirst] at hbare
    cases gs2 <;> cases gs2'
    · rfl
    · cases hbare
    · cases hbare
    · rfl
  refine ⟨gs2, first.clientFirstBare, p, proof, hfirst, ?_, hproof, hkey⟩
  have hjoin : [44].intercalate (final.splitOn 44) = final := intercalate_splitOn 44
  rw [hparts] at hjoin
  rw [← hjoin]
  simp [withoutProof, intercalate, show utf8 ",r=" = 44 :: utf8 "r=" from rfl,
    show utf8 ",p=" = 44 :: utf8 "p=" from rfl]

/-- A client that knows the password is accepted and gets the signature it expects; an accepted
message is bound to the exchange if and only if it has the three attributes in their order and the
first is for the header that was sent. -/
theorem exchange_complete_and_bound (hcodec : Codec prims) :
    (∀ password salt iterations, ∀ gs2 : Gs2, ∀ user nonce, validUtf8 nonce = true → 44 ∉ nonce →
      ∀ serverNonce,
        let cred := deriveCredential prims password salt iterations
        let bare := clientFirstBare user nonce
        ∃ first final signature, serverFirst prims serverNonce (gs2.header ++ bare) cred =
          .ok first ∧
          clientFinal prims password gs2 bare nonce (first.message prims) =
            some (final, signature) ∧
          verifyClientFinal prims final first cred = .ok (utf8 "v=" ++ prims.encode signature)) ∧
    ∀ serverNonce clientFirst cred first final,
      serverFirst prims serverNonce clientFirst cred = .ok first →
      (verifyClientFinal prims final first cred).isOk = true →
        (Bound prims first cred clientFirst final ↔ InOrder prims clientFirst final) := by
  refine ⟨fun password salt iterations gs2 user nonce htext hnonce serverNonce =>
    client_accepted hcodec htext hnonce, ?_⟩
  intro serverNonce clientFirst cred first final hfirst hok
  cases hout : verifyClientFinal prims final first cred with
  | error e =>
    rw [hout] at hok
    cases hok
  | ok out => exact ⟨fun h => h.inOrder hcodec hfirst, fun h => h.bound hfirst hout⟩

end Exchange

def letters (b : UInt8) : Bytes := [65 + b / 16, 65 + b % 16]

def ofLetters : Bytes → Except DecodeError Bytes
  | a :: b :: text =>
    if 65 ≤ a ∧ a < 81 ∧ 65 ≤ b ∧ b < 81 then
      (ofLetters text).map fun bytes => ((a - 65) * 16 + (b - 65)) :: bytes
    else .error .invalidPadding
  | [] => .ok []
  | [_] => .error (.invalidLength 1)

def letterPrimitives : Primitives where
  encode bytes := bytes.flatMap letters
  decode := ofLetters
  pbkdf2 password _ _ := password
  hmac key _ := (key ++ List.replicate 32 0).take 32
  sha256 := id

theorem letters_spec : 44 ∉ letters b ∧ validUtf8 (letters b) = true ∧
    (65 ≤ 65 + b / 16 ∧ 65 + b / 16 < 81 ∧ 65 ≤ 65 + b % 16 ∧ 65 + b % 16 < 81) ∧
    (65 + b / 16 - 65) * 16 + (65 + b % 16 - 65) = b := by
  have hall : ∀ n : Fin 256, let b := UInt8.ofFin n
      44 ∉ letters b ∧ validUtf8 (letters b) = true ∧
      (65 ≤ 65 + b / 16 ∧ 65 + b / 16 < 81 ∧ 65 ≤ 65 + b % 16 ∧ 65 + b % 16 < 81) ∧
      (65 + b / 16 - 65) * 16 + (65 + b % 16 - 65) = b := by
    decide +kernel
  exact hall b.toFin

theorem codec_letterPrimitives : Codec letterPrimitives where
  decode_encode bytes := by
    show ofLetters (bytes.flatMap letters) = .ok bytes
    induction bytes with
    | nil => rfl
    | cons b bytes ih =>
      obtain ⟨-, -, hrange, hbyte⟩ := letters_spec
      rw [flatMap_cons, letters, cons_append, cons_append, nil_append, ofLetters,
        if_pos hrange, ih, hbyte]
      rfl
  encode_plain bytes := by
    show 44 ∉ bytes.flatMap letters
    simp only [mem_flatMap, not_exists, not_and]
    exact fun b _ => letters_spec.1
  encode_text bytes := by
    induction bytes with
    | nil => rfl
    | cons b bytes ih => exact validUtf8_append letters_spec.2.1 ih
  decode_plain text bytes h := by
    replace h : ofLetters text = .ok bytes := h
    induction text using ofLetters.induct generalizing bytes with
    | case1 a b text hrange ih =>
      rw [ofLetters, if_pos hrange] at h
      cases hrest : ofLetters text with
      | error e => simp [hrest, Except.map] at h
      | ok rest =>
        have ha : 44 ≠ a := by
          rintro rfl
          exact absurd hrange.1 (by decide)
        have hb : 44 ≠ b := by
          rintro rfl
          exact absurd hrange.2.2.1 (by decide)
        simp [ha, hb, ih rest hrest]
    | case2 a b text hrange =>
      rw [ofLetters, if_neg hrange] at h
      cases h
    | case3 => simp
    | case4 b => cases h
  hmac_length key message := by
    show ((key ++ replicate 32 0).take 32).length = 32
    simp

def password : Bytes := List.replicate 32 65

theorem exchange_complete_and_bound_letters :
    let cred := deriveCredential letterPrimitives password [] 4096
    let bare := clientFirstBare "u" (utf8 "ab")
    let final := utf8 "c=GOCMCM,r=ab,p=" ++ letterPrimitives.encode (List.replicate 32 0)
    (∃ first final signature,
      serverFirst letterPrimitives [] (Gs2.n.header ++ bare) cred = .ok first ∧
      clientFinal letterPrimitives password .n bare (utf8 "ab") (first.message letterPrimitives) =
        some (final, signature) ∧
      verifyClientFinal letterPrimitives final first cred =
        .ok (utf8 "v=" ++ letterPrimitives.encode signature)) ∧
    ∃ first, serverFirst letterPrimitives [] (Gs2.n.header ++ bare) cred = .ok first ∧
      (Bound letterPrimitives first cred (Gs2.n.header ++ bare) final ↔
        InOrder letterPrimitives (Gs2.n.header ++ bare) final) := by
  intro cred bare final
  obtain ⟨hcomplete, hbound⟩ := exchange_complete_and_bound codec_letterPrimitives
  have hfirst : serverFirst letterPrimitives [] (Gs2.n.header ++ bare) cred =
      .ok ⟨bare, utf8 "ab", [], 4096⟩ := by decide +kernel
  refine ⟨hcomplete password [] 4096 .n "u" (utf8 "ab") (by decide +kernel) (by decide +kernel) [],
    _,
    hfirst, hbound [] _ cred _ final hfirst (by decide +kernel)⟩

/-- With the right proof the server accepts another header, and other attributes in any order. -/
theorem accepted_but_not_bound :
    let cred := deriveCredential letterPrimitives password [] 4096
    let clientFirst := utf8 "n,," ++ clientFirstBare "u" (utf8 "ab")
    let proof := letterPrimitives.encode (List.replicate 32 0)
    let other := utf8 "c=HJCMCM,r=ab,p=" ++ proof
    let mixed := utf8 "x=1,p=" ++ proof ++ utf8 ",r=ab,c=GOCMCM,c=,y"
    ∃ first, serverFirst letterPrimitives [] clientFirst cred = .ok first ∧
      ∀ final ∈ [other, mixed], (verifyClientFinal letterPrimitives final first cred).isOk = true ∧
        ¬ Bound letterPrimitives first cred clientFirst final := by
  intro cred clientFirst proof other mixed
  have hfirst : serverFirst letterPrimitives [] clientFirst cred =
      .ok ⟨clientFirstBare "u" (utf8 "ab"), utf8 "ab", [], 4096⟩ := by decide +kernel
  have hparts : ∀ final ∈ [other, mixed],
      (final.splitOn 44).head? ≠ some (utf8 "c=" ++ letterPrimitives.encode Gs2.n.header) := by
    decide +kernel
  refine ⟨_, hfirst, fun final hmem => ⟨?_, fun hbound => ?_⟩⟩
  · revert final
    decide +kernel
  · obtain ⟨gs2, r, p, hheader, hsplit⟩ := hbound.inOrder codec_letterPrimitives hfirst
    have hn : gs2 = .n := by
      cases gs2 with
      | n => rfl
      | y => exact absurd ( isPrefixOf_iff_prefix.2 hheader) (by decide +kernel)
    subst hn
    exact hparts final hmem (by rw [hsplit]; rfl)

end WireScram
