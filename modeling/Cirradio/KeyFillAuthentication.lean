import Cirradio.EarlyExit
import Cirradio.KeyFillPort

/-!
# What a fill session checks

A session that runs to its end has received the four frames of a known fill gun and
passed each check on them. An empty attestation and an all-zero block signature pass
without verification.
-/

namespace Cirradio.Security
namespace KeyFillPort
open EarlyExit

variable {σ : Type} {ssl : OpenSsl} {E : IHsmEngine σ} {p p' : KeyFillPort σ}

/-- The first frames that arrive, up to the first that does not. -/
def receivedFrames : ℕ → Incoming → List FillFrame
  | 0, _ => []
  | n + 1, incoming =>
    match recvFrame incoming with
    | (some frame, incoming) => frame :: receivedFrames n incoming
    | (none, _) => []

theorem nak_ne_ok {α : Type} {a : α} : (nak : Fill σ α) p ≠ .ok a p' := by
  intro h
  cases h

theorem safeWrite_eq (buf : Bytes) (p : KeyFillPort σ) :
    ∃ writes sent, (safeWrite buf p).2 = { p with writes, sent } := by
  unfold safeWrite
  split
  · exact ⟨_, _, rfl⟩
  · exact ⟨_, _, rfl⟩
  · exact ⟨_, _, rfl⟩

/-- Sending touches only the outgoing side of the line. -/
theorem sendFrame_eq (type : FillMsgType) (payload : Bytes) (p : KeyFillPort σ) :
    ∃ writes sent, (sendFrame type payload p).2 = { p with writes, sent } := by
  unfold sendFrame
  by_cases hfd : p.fd < 0
  · rw [if_pos hfd]
    exact ⟨_, _, rfl⟩
  rw [if_neg hfd]
  obtain ⟨writes, sent, hhdr⟩ := safeWrite_eq (frameHeader type payload) p
  generalize safeWrite (frameHeader type payload) p = r at hhdr ⊢
  rcases r with ⟨n, p₁⟩
  cases hhdr
  split
  · rename_i hr
    cases hr
    split_ifs
    · exact ⟨_, _, rfl⟩
    · exact safeWrite_eq payload { p with writes, sent }
  · rename_i hr
    cases hr
    exact ⟨_, _, rfl⟩

theorem expectFrame_ok {type : FillMsgType} {payload : Bytes}
    (h : expectFrame type p = .ok payload p') :
    ∃ incoming, recvFrame p.incoming = (some ⟨type, payload⟩, incoming) ∧
      p' = { p with incoming } := by
  unfold expectFrame at h
  obtain ⟨q, q', hget, h⟩ := bind_eq_ok.mp h
  cases hget
  by_cases hfd : p.fd < 0
  · simp only [hfd, if_true] at h
    obtain ⟨u, q', hset, h⟩ := bind_eq_ok.mp h
    exact absurd h nak_ne_ok
  · simp only [hfd, if_false] at h
    obtain ⟨u, q', hset, h⟩ := bind_eq_ok.mp h
    cases hset
    rcases hr : recvFrame p.incoming with ⟨frame, incoming⟩
    rw [hr] at h
    cases frame with
    | none => exact absurd h nak_ne_ok
    | some frame =>
      dsimp only at h
      split_ifs at h with htype
      · exact absurd h nak_ne_ok
      · obtain ⟨rfl, rfl⟩ := pure_eq_ok.mp h
        have htype : frame.type = type := not_not.mp htype
        subst htype
        exact ⟨incoming, rfl, rfl⟩

theorem sendOrRefuse_ok {type : FillMsgType} {payload : Bytes}
    (h : sendOrRefuse type payload p = .ok () p') :
    ∃ writes sent, p' = { p with writes, sent } := by
  obtain ⟨writes, sent, heq⟩ := sendFrame_eq type payload p
  unfold sendOrRefuse at h
  generalize sendFrame type payload p = r at heq h
  rcases r with ⟨_ | _, p₁⟩
  · cases h
  · cases h
    exact ⟨writes, sent, heq⟩

theorem receiveHello_ok (h : receiveHello p = .ok () p') :
    ∃ payload incoming, recvFrame p.incoming = (some ⟨.hello, payload⟩, incoming) ∧
      32 ≤ payload.length ∧
      p' = { p with incoming, gunNonce := payload.take 32, state := .helloRcvd } := by
  obtain ⟨payload, p₁, hrecv, h⟩ := bind_eq_ok.mp h
  obtain ⟨incoming, hframe, rfl⟩ := expectFrame_ok hrecv
  split_ifs at h with hlen
  · exact absurd h nak_ne_ok
  · cases h
    exact ⟨payload, incoming, hframe, Nat.not_lt.mp hlen, rfl⟩

theorem sendNonce_ok {deviceNonce : RandBytes 32} (h : sendNonce deviceNonce p = .ok () p') :
    ∃ writes sent, p' =
      { p with deviceNonce := deviceNonce.toList, writes, sent, state := .nonceSent } := by
  obtain ⟨⟨⟩, p₁, hset, h⟩ := bind_eq_ok.mp h
  cases hset
  obtain ⟨⟨⟩, p₂, hsend, h⟩ := bind_eq_ok.mp h
  obtain ⟨writes, sent, rfl⟩ := sendOrRefuse_ok hsend
  cases h
  exact ⟨writes, sent, rfl⟩

theorem receiveIdentity_ok {identity : Bytes} (h : receiveIdentity p = .ok identity p') :
    ∃ incoming, recvFrame p.incoming = (some ⟨.identity, identity⟩, incoming) ∧
      identity ∈ p.trustedGunPubkeys ∧ p' = { p with incoming, state := .identityVerified } := by
  obtain ⟨payload, p₁, hrecv, h⟩ := bind_eq_ok.mp h
  obtain ⟨incoming, hframe, rfl⟩ := expectFrame_ok hrecv
  obtain ⟨q, q', hget, h⟩ := bind_eq_ok.mp h
  cases hget
  split_ifs at h with hcert
  · exact absurd h nak_ne_ok
  · cases h
    have hany : ∃ trusted ∈ p.trustedGunPubkeys, identity = trusted := by
      simpa [verifyGunCert] using hcert
    obtain ⟨trusted, hmem, rfl⟩ := hany
    exact ⟨incoming, hframe, hmem, rfl⟩

theorem sendDevAttest_ok (h : sendDevAttest p = .ok () p') :
    ∃ writes sent, p' = { p with writes, sent, state := .devAttestSent } := by
  obtain ⟨q, q', hget, h⟩ := bind_eq_ok.mp h
  cases hget
  obtain ⟨⟨⟩, p₁, hsend, h⟩ := bind_eq_ok.mp h
  obtain ⟨writes, sent, rfl⟩ := sendOrRefuse_ok hsend
  cases h
  exact ⟨writes, sent, rfl⟩

theorem receiveGunAttest_ok {gunPubkeyDer : Bytes}
    (h : receiveGunAttest ssl gunPubkeyDer p = .ok () p') :
    ∃ payload incoming, recvFrame p.incoming = (some ⟨.gunAttest, payload⟩, incoming) ∧
      (payload = [] ∨ ssl.ecVerify gunPubkeyDer p.deviceNonce payload = true) ∧
      p' = { p with incoming, state := .gunAttestVerified } := by
  obtain ⟨payload, p₁, hrecv, h⟩ := bind_eq_ok.mp h
  obtain ⟨incoming, hframe, rfl⟩ := expectFrame_ok hrecv
  obtain ⟨q, q', hget, h⟩ := bind_eq_ok.mp h
  cases hget
  dsimp only at h
  split_ifs at h with hcheck
  · exact absurd h nak_ne_ok
  · cases h
    refine ⟨payload, incoming, hframe, ?_, rfl⟩
    by_cases hempty : payload = []
    · exact .inl hempty
    · exact .inr (by simpa [hempty] using hcheck)

theorem receiveKeyBlock_ok {gunPubkeyDer eciesPayload : Bytes}
    (h : receiveKeyBlock ssl gunPubkeyDer p = .ok eciesPayload p') :
    ∃ blockSig incoming,
      recvFrame p.incoming = (some ⟨.keyBlock, eciesPayload ++ blockSig⟩, incoming) ∧
      blockSig.length = kSigLen ∧ eciesPayload ≠ [] ∧
      ((∀ b ∈ blockSig, b = 0) ∨ ssl.ecVerify gunPubkeyDer eciesPayload blockSig = true) ∧
      p' = { p with incoming } := by
  obtain ⟨payload, p₁, hrecv, h⟩ := bind_eq_ok.mp h
  obtain ⟨incoming, hframe, rfl⟩ := expectFrame_ok hrecv
  dsimp only at h
  split_ifs at h with hlen hsig
  · exact absurd h nak_ne_ok
  · exact absurd h nak_ne_ok
  · obtain ⟨rfl, rfl⟩ := pure_eq_ok.mp h
    have htake : (payload.take (payload.length - kSigLen)).length =
        payload.length - kSigLen := by
      rw [List.length_take]
      omega
    rw [htake] at hsig
    refine ⟨payload.drop (payload.length - kSigLen), incoming, ?_, ?_, ?_, ?_, rfl⟩
    · rw [List.take_append_drop]
      exact hframe
    · rw [List.length_drop]
      omega
    · intro hnil
      rw [hnil, List.length_nil] at htake
      omega
    · rcases Bool.eq_false_or_eq_true
        ((payload.drop (payload.length - kSigLen)).all (· == 0)) with hzero | hzero
      · left
        intro b hb
        simpa using List.all_eq_true.mp hzero b hb
      · right
        simpa [hzero] using hsig

theorem decryptKeyBlock_ok {eciesPayload plaintext : Bytes}
    (h : decryptKeyBlock E eciesPayload p = .ok plaintext p') :
    ∃ hsm, E.eciesDecrypt p.km.hsm p.ikHandle eciesPayload = (hsm, .ok (some plaintext)) ∧
      plaintext.length = 96 ∧ p' = { p with km := { p.km with hsm } } := by
  obtain ⟨q, q', hget, h⟩ := bind_eq_ok.mp h
  cases hget
  rcases hdec : E.eciesDecrypt p.km.hsm p.ikHandle eciesPayload with ⟨hsm, what | _ | plain⟩
  all_goals
    rw [hdec] at h
    obtain ⟨⟨⟩, p₁, hset, h⟩ := bind_eq_ok.mp h
    cases hset
  · cases h
  · exact absurd h nak_ne_ok
  · dsimp only at h
    split_ifs at h with hlen
    · exact absurd h nak_ne_ok
    · obtain ⟨rfl, rfl⟩ := pure_eq_ok.mp h
      exact ⟨hsm, rfl, not_not.mp hlen, rfl⟩

theorem callKeyManager_ok {call : KeyManager σ → KeyManager σ × Throws Unit}
    (h : callKeyManager call p = .ok () p') :
    ∃ km, call p.km = (km, .ok ()) ∧ p' = { p with km } := by
  unfold callKeyManager at h
  rcases hcall : call p.km with ⟨km, what | ⟨⟩⟩
  · rw [hcall] at h
    cases h
  · rw [hcall] at h
    cases h
    exact ⟨km, rfl, rfl⟩

/-- The three parts of the plaintext have been set as the three keys. -/
def KeysSet (E : IHsmEngine σ) (plaintext : Bytes) (km km' : KeyManager σ) : Prop :=
  ∃ km₁ km₂, KeyManager.setKekRaw E (plaintext.take 32) km = (km₁, .ok ()) ∧
    KeyManager.setTekRaw E ((plaintext.drop 32).take 32) km₁ = (km₂, .ok ()) ∧
    KeyManager.setFhekRaw E (plaintext.drop 64) km₂ = (km', .ok ())

theorem loadKeys_ok {plaintext : Bytes} (h : loadKeys E plaintext p = .ok () p') :
    ∃ km, KeysSet E plaintext p.km km ∧ p' = { p with km, state := .keysReceived } := by
  obtain ⟨⟨⟩, p₁, hcall, h⟩ := bind_eq_ok.mp h
  obtain ⟨km₁, hkek, rfl⟩ := callKeyManager_ok hcall
  obtain ⟨⟨⟩, p₂, hcall, h⟩ := bind_eq_ok.mp h
  obtain ⟨km₂, htek, rfl⟩ := callKeyManager_ok hcall
  obtain ⟨⟨⟩, p₃, hcall, h⟩ := bind_eq_ok.mp h
  obtain ⟨km₃, hfhek, rfl⟩ := callKeyManager_ok hcall
  cases h
  exact ⟨km₃, ⟨km₁, km₂, hkek, htek, hfhek⟩, rfl⟩

theorem sendAck_ok (h : sendAck p = .ok () p') : p'.km = p.km := by
  obtain ⟨writes, sent, heq⟩ := sendFrame_eq .ack [0x00] p
  obtain ⟨⟨⟩, p₁, hsend, h⟩ := bind_eq_ok.mp h
  cases hsend
  cases h
  change (sendFrame .ack [0x00] p).2.km = p.km
  rw [heq]

/-- The frames of a session, each after its type byte, and what the gun delivers in the
last: an encrypted block and its signature. -/
structure GunFrames where
  hello : Bytes
  identity : Bytes
  attest : Bytes
  eciesPayload : Bytes
  blockSig : Bytes

def GunFrames.toList (g : GunFrames) : List FillFrame :=
  [⟨.hello, g.hello⟩, ⟨.identity, g.identity⟩, ⟨.gunAttest, g.attest⟩,
    ⟨.keyBlock, g.eciesPayload ++ g.blockSig⟩]

/-- A session that returns true has verified both signatures of a trusted gun, over the
nonce of this session and over the encrypted block. -/
def FillAuthentication (ssl : OpenSsl) (E : IHsmEngine σ) : Prop :=
  ∀ (deviceNonce : RandBytes 32) (p p' : KeyFillPort σ),
    runSession ssl E deviceNonce p = (p', .ok true) →
    ∃ g : GunFrames, receivedFrames 4 p.incoming = g.toList ∧
      g.identity ∈ p.trustedGunPubkeys ∧
      ssl.ecVerify g.identity deviceNonce.toList g.attest = true ∧
      ssl.ecVerify g.identity g.eciesPayload g.blockSig = true

/-- A radio that trusts one gun, and a peer that knows the gun's public key and signs
nothing. -/
def unsignedPeer : KeyFillPort (List (Option Bytes)) where
  km := KeyManager.new []
  ikHandle := 1
  fd := 3
  state := .idle
  deviceNonce := []
  gunNonce := []
  trustedGunPubkeys := [[9]]
  incoming := [some ([1, 0, 32] ++ List.replicate 32 7), some [3, 0, 1, 9], some [5, 0, 0],
    some ([6, 1, 61] ++ List.replicate 317 0)]
  writes := []
  sent := []

set_option maxRecDepth 4000 in
theorem unsignedPeer_accepted :
    runSession xorSsl tableHsm (Vector.replicate 32 5) unsignedPeer =
      ((runSession xorSsl tableHsm (Vector.replicate 32 5) unsignedPeer).1, .ok true) :=
  rfl

/-- The session accepts the keys of a peer that has verified no signature. -/
theorem not_fillAuthentication : ¬ FillAuthentication xorSsl tableHsm := by
  intro h
  obtain ⟨g, hframes, htrusted, hattest, -⟩ := h _ _ _ unsignedPeer_accepted
  have hframe : g.toList[2]? = some ⟨.gunAttest, []⟩ := by
    rw [← hframes]
    rfl
  have hempty : g.attest = [] := congrArg FillFrame.payload (Option.some.inj hframe)
  have hid : g.identity = [9] := List.mem_singleton.mp htrusted
  rw [hempty, hid] at hattest
  exact absurd hattest (by decide)

theorem session_of_runSession {deviceNonce : RandBytes 32}
    (h : runSession ssl E deviceNonce p = (p', .ok true)) :
    session ssl E deviceNonce p = .ok () p' := by
  unfold runSession at h
  cases hs : session ssl E deviceNonce p with
  | ok u q => rw [hs] at h; cases h; rfl
  | error exit q => rw [hs] at h; cases exit <;> cases h

/-- What a session that runs to its end has received and done. -/
theorem session_ok {deviceNonce : RandBytes 32}
    (hok : session ssl E deviceNonce p = .ok () p') :
    ∃ (g : GunFrames) (plaintext : Bytes) (hsm : σ),
      receivedFrames 4 p.incoming = g.toList ∧
      g.identity ∈ p.trustedGunPubkeys ∧
      (g.attest = [] ∨ ssl.ecVerify g.identity deviceNonce.toList g.attest = true) ∧
      g.blockSig.length = kSigLen ∧
      ((∀ b ∈ g.blockSig, b = 0) ∨ ssl.ecVerify g.identity g.eciesPayload g.blockSig = true) ∧
      E.eciesDecrypt p.km.hsm p.ikHandle g.eciesPayload = (hsm, .ok (some plaintext)) ∧
      plaintext.length = 96 ∧ KeysSet E plaintext { p.km with hsm } p'.km := by
  obtain ⟨q, q', hget, hok⟩ := bind_eq_ok.mp hok
  cases hget
  split_ifs at hok with hfd
  · cases hok
  obtain ⟨⟨⟩, p₀, hclear, hok⟩ := bind_eq_ok.mp hok
  cases hclear
  obtain ⟨⟨⟩, p₁, hhello, hok⟩ := bind_eq_ok.mp hok
  obtain ⟨hello, in₁, hframe₁, -, rfl⟩ := receiveHello_ok hhello
  obtain ⟨⟨⟩, p₂, hnonce, hok⟩ := bind_eq_ok.mp hok
  obtain ⟨writes₂, sent₂, rfl⟩ := sendNonce_ok hnonce
  obtain ⟨identity, p₃, hidentity, hok⟩ := bind_eq_ok.mp hok
  obtain ⟨in₃, hframe₃, htrusted, rfl⟩ := receiveIdentity_ok hidentity
  obtain ⟨⟨⟩, p₄, hdev, hok⟩ := bind_eq_ok.mp hok
  obtain ⟨writes₄, sent₄, rfl⟩ := sendDevAttest_ok hdev
  obtain ⟨⟨⟩, p₅, hattest, hok⟩ := bind_eq_ok.mp hok
  obtain ⟨attest, in₅, hframe₅, hattested, rfl⟩ := receiveGunAttest_ok hattest
  obtain ⟨eciesPayload, p₆, hblock, hok⟩ := bind_eq_ok.mp hok
  obtain ⟨blockSig, in₆, hframe₆, hlen, -, hsigned, rfl⟩ := receiveKeyBlock_ok hblock
  obtain ⟨plaintext, p₇, hdecrypt, hok⟩ := bind_eq_ok.mp hok
  obtain ⟨hsm, hplain, hplainLen, rfl⟩ := decryptKeyBlock_ok hdecrypt
  obtain ⟨⟨⟩, p₈, hload, hok⟩ := bind_eq_ok.mp hok
  obtain ⟨km, hset, rfl⟩ := loadKeys_ok hload
  have hkm := sendAck_ok hok
  refine ⟨⟨hello, identity, attest, eciesPayload, blockSig⟩, plaintext, hsm, ?_, htrusted,
    hattested, hlen, hsigned, hplain, hplainLen, by rw [hkm]; exact hset⟩
  have hframe₁ : recvFrame p.incoming = _ := hframe₁
  have hframe₃ : recvFrame in₁ = _ := hframe₃
  have hframe₅ : recvFrame in₃ = _ := hframe₅
  have hframe₆ : recvFrame in₅ = _ := hframe₆
  simp only [receivedFrames, hframe₁, hframe₃, hframe₅, hframe₆, GunFrames.toList]

/-- A session that returns true has received the four frames of a gun whose identity is
trusted, with an attestation that is empty or verifies over the nonce of this session,
and a block signature that is all zero or verifies over the encrypted block, both under
that identity; and it has set the three parts of the decrypted block as keys. -/
theorem runSession_authenticated (ssl : OpenSsl) (E : IHsmEngine σ)
    (deviceNonce : RandBytes 32) (p p' : KeyFillPort σ)
    (h : runSession ssl E deviceNonce p = (p', .ok true)) :
    ∃ (g : GunFrames) (plaintext : Bytes) (hsm : σ),
      receivedFrames 4 p.incoming = g.toList ∧
      g.identity ∈ p.trustedGunPubkeys ∧
      (g.attest = [] ∨ ssl.ecVerify g.identity deviceNonce.toList g.attest = true) ∧
      g.blockSig.length = kSigLen ∧
      ((∀ b ∈ g.blockSig, b = 0) ∨ ssl.ecVerify g.identity g.eciesPayload g.blockSig = true) ∧
      E.eciesDecrypt p.km.hsm p.ikHandle g.eciesPayload = (hsm, .ok (some plaintext)) ∧
      plaintext.length = 96 ∧ KeysSet E plaintext { p.km with hsm } p'.km :=
  session_ok (session_of_runSession h)

/-- A frame as it is sent. -/
def wire (f : FillFrame) : Bytes := frameHeader f.type f.payload ++ f.payload

/-- A library for runs on fixed inputs, whose signatures have one length and start with the
tag of a DER sequence. -/
def derSsl (length : ℕ) : OpenSsl where
  ecSign key data _ := some ((0x30 :: (key ++ data ++ List.replicate length 0)).take length)
  ecVerify key data signature :=
    signature == (0x30 :: (key ++ data ++ List.replicate length 0)).take length
  gcmEncrypt := xorSsl.gcmEncrypt

/-- The frames of a gun with the key 9 whose signatures have the given length. -/
def gunOfLength (length : ℕ) : GunFrames where
  hello := List.replicate 32 7
  identity := [9]
  attest := (0x30 :: ([9] ++ List.replicate 32 5 ++ List.replicate length 0)).take length
  eciesPayload := List.replicate 221 6
  blockSig := (0x30 :: ([9] ++ List.replicate 221 6 ++ List.replicate length 0)).take length

/-- A radio that waits for that gun, each frame found by one read. -/
def portForGun (length : ℕ) : KeyFillPort (List (Option Bytes)) :=
  { unsignedPeer with incoming := ((gunOfLength length).toList.map wire).map some }

set_option maxRecDepth 8000 in
theorem portForGun_accepted :
    runSession (derSsl 96) tableHsm (Vector.replicate 32 5) (portForGun 96) =
      ((runSession (derSsl 96) tableHsm (Vector.replicate 32 5) (portForGun 96)).1, .ok true) :=
  rfl

set_option maxRecDepth 8000 in
theorem portForGun_receivedFrames :
    receivedFrames 4 (portForGun 96).incoming = (gunOfLength 96).toList := rfl

/-- A gun that signs has both signatures verified. -/
theorem runSession_authenticated_signed :
    ∃ (g : GunFrames) (plaintext : Bytes) (hsm : List (Option Bytes)),
      receivedFrames 4 (portForGun 96).incoming = g.toList ∧
      g.identity ∈ (portForGun 96).trustedGunPubkeys ∧
      (derSsl 96).ecVerify g.identity (Vector.replicate 32 5).toList g.attest = true ∧
      (derSsl 96).ecVerify g.identity g.eciesPayload g.blockSig = true ∧
      tableHsm.eciesDecrypt (portForGun 96).km.hsm (portForGun 96).ikHandle g.eciesPayload =
        (hsm, .ok (some plaintext)) ∧
      KeysSet tableHsm plaintext { (portForGun 96).km with hsm }
        (runSession (derSsl 96) tableHsm (Vector.replicate 32 5) (portForGun 96)).1.km := by
  obtain ⟨g, plaintext, hsm, hframes, htrusted, hattest, hlen, hsigned, hplain, -, hkeys⟩ :=
    runSession_authenticated (derSsl 96) tableHsm _ _ _ portForGun_accepted
  have hframe : ∀ i : ℕ, g.toList[i]? = (gunOfLength 96).toList[i]? := by
    intro i
    rw [← hframes, portForGun_receivedFrames]
  have hattested : g.attest = (gunOfLength 96).attest :=
    congrArg FillFrame.payload (Option.some.inj (hframe 2))
  have hblock : g.eciesPayload ++ g.blockSig =
      (gunOfLength 96).eciesPayload ++ (gunOfLength 96).blockSig :=
    congrArg FillFrame.payload (Option.some.inj (hframe 3))
  have hsig : g.blockSig = (gunOfLength 96).blockSig :=
    List.append_inj_right' hblock hlen
  refine ⟨g, plaintext, hsm, hframes, htrusted, hattest.resolve_left ?_, hsigned.resolve_left ?_,
    hplain, hkeys⟩
  · rw [hattested]
    decide
  · rw [hsig]
    decide

end KeyFillPort
end Cirradio.Security
