import Cirradio.KeyFillAtomicity

/-!
# A fill gun that signs

Frames arrive whole however the line cuts them up. A gun that follows the protocol and
signs what it should is accepted if its signature of the block is as long as the fixed
place for it, and a DER signature need not be.
-/

namespace Cirradio.Security
namespace KeyFillPort
open EarlyExit KeyManager

/-- Reads find the bytes, cut up in some way. -/
def Carries (incoming : Incoming) (bytes : Bytes) : Prop :=
  ∃ chunks : List Bytes, incoming = chunks.map some ∧ [] ∉ chunks ∧ chunks.flatten = bytes

theorem readExact_chunk (n : ℕ) {chunk : Bytes} (hne : chunk ≠ []) (rest : Incoming) :
    readExact (n + 1) (some chunk :: rest) =
      if n + 1 < chunk.length then
        (some (chunk.take (n + 1)), some (chunk.drop (n + 1)) :: rest)
      else
        match readExact (n + 1 - chunk.length) rest with
        | (none, rest) => (none, rest)
        | (some bytes, rest) => (some (chunk ++ bytes), rest) := by
  obtain ⟨b, found, rfl⟩ := List.exists_cons_of_ne_nil hne
  rfl

/-- A read of as many bytes as a field has finds that field. -/
theorem readExact_carries {n : ℕ} {incoming : Incoming} {bytes rest : Bytes}
    (hlen : bytes.length = n) (h : Carries incoming (bytes ++ rest)) :
    ∃ later, readExact n incoming = (some bytes, later) ∧ Carries later rest := by
  obtain ⟨chunks, rfl, hfull, hbytes⟩ := h
  induction chunks generalizing n bytes with
  | nil =>
    obtain ⟨rfl, rfl⟩ := List.append_eq_nil_iff.mp hbytes.symm
    subst hlen
    exact ⟨[], rfl, [], rfl, hfull, rfl⟩
  | cons chunk chunks ih =>
    have hne : chunk ≠ [] := fun h => hfull (h ▸ List.mem_cons_self)
    have hlater : [] ∉ chunks := fun h => hfull (List.mem_cons_of_mem chunk h)
    cases n with
    | zero =>
      have hnil : bytes = [] := List.length_eq_zero_iff.mp hlen
      subst hnil
      exact ⟨_, rfl, chunk :: chunks, rfl, hfull, hbytes⟩
    | succ n =>
      have hread := readExact_chunk n hne (chunks.map some)
      rw [List.flatten_cons, List.append_eq_append_iff] at hbytes
      rw [List.map_cons, hread]
      rcases hbytes with ⟨more, rfl, hrest⟩ | ⟨left, rfl, rfl⟩
      · -- the chunk is used up
        rw [List.length_append] at hlen
        have hmore : ¬ n + 1 < chunk.length := by omega
        obtain ⟨later, hlater', hcarries⟩ := ih rfl hlater hrest
        have hcount : n + 1 - chunk.length = more.length := by omega
        rw [if_neg hmore, hcount, hlater']
        exact ⟨later, rfl, hcarries⟩
      · -- the rest of the chunk is found by the next read
        rw [List.length_append]
        cases left with
        | nil =>
          simp only [List.length_nil, Nat.add_zero, hlen, Nat.lt_irrefl, if_false, Nat.sub_self,
            List.append_nil]
          exact ⟨chunks.map some, by simp [readExact], chunks, rfl, hlater, rfl⟩
        | cons b left =>
          have hlt : n + 1 < bytes.length + (b :: left).length := by
            rw [List.length_cons]
            omega
          rw [if_pos hlt, ← hlen, List.take_left, List.drop_left]
          refine ⟨_, rfl, (b :: left) :: chunks, rfl, ?_, rfl⟩
          simpa using hlater

theorem length_of_bytes {n : ℕ} (h : n < 2 ^ 16) :
    (UInt8.ofNat (n >>> 8)).toNat <<< 8 ||| (UInt8.ofNat n).toNat = n := by
  have hlow : (UInt8.ofNat n).toNat < 2 ^ 8 := (UInt8.ofNat n).toNat_lt
  rw [← Nat.shiftLeft_add_eq_or_of_lt hlow, UInt8.toNat_ofNat', UInt8.toNat_ofNat',
    Nat.shiftLeft_eq, Nat.shiftRight_eq_div_pow]
  omega

/-- A frame is received as it is sent. -/
theorem recvFrame_carries {incoming : Incoming} {f : FillFrame} {rest : Bytes}
    (hlen : f.payload.length ≤ 4096) (h : Carries incoming (wire f ++ rest)) :
    ∃ later, recvFrame incoming = (some f, later) ∧ Carries later rest := by
  rw [wire, List.append_assoc] at h
  obtain ⟨later, hheader, hpayload⟩ := readExact_carries rfl h
  obtain ⟨later', hread, hrest⟩ := readExact_carries rfl hpayload
  have hmod : f.payload.length % 2 ^ 16 = f.payload.length := Nat.mod_eq_of_lt (by omega)
  refine ⟨later', ?_, hrest⟩
  rw [frameHeader] at hheader
  simp only [hmod] at hheader
  have hsize := length_of_bytes (n := f.payload.length) (by omega)
  unfold recvFrame
  change readExact 3 incoming = _ at hheader
  rw [hheader]
  simp only [hsize]
  rw [if_neg (by omega), hread]

section Run
variable {σ : Type} {ssl : OpenSsl} {E : IHsmEngine σ} {p : KeyFillPort σ}

/-- The port is open, and what is written is taken. -/
def Open (p : KeyFillPort σ) : Prop := 0 ≤ p.fd ∧ p.writes = []

theorem safeWrite_open (hopen : Open p) (buf : Bytes) :
    safeWrite buf p = (some buf.length, { p with sent := p.sent ++ buf }) := by
  unfold safeWrite
  rw [hopen.2]

theorem sendFrame_open (hopen : Open p) (type : FillMsgType) (payload : Bytes) :
    ∃ sent, sendFrame type payload p = (true, { p with sent }) := by
  have hheader : (frameHeader type payload).length = 3 := rfl
  unfold sendFrame
  rw [if_neg (Int.not_lt.mpr hopen.1), safeWrite_open hopen, hheader]
  simp only
  split
  · exact ⟨_, rfl⟩
  · have hopen' : Open { p with sent := p.sent ++ frameHeader type payload } := hopen
    exact ⟨p.sent ++ frameHeader type payload ++ payload, by simp [safeWrite_open hopen']⟩

theorem expectFrame_recv (hopen : 0 ≤ p.fd) {type : FillMsgType} {payload : Bytes}
    {incoming : Incoming} (h : recvFrame p.incoming = (some ⟨type, payload⟩, incoming)) :
    expectFrame type p = .ok payload { p with incoming } := by
  have hfd : ¬ p.fd < 0 := Int.not_lt.mpr hopen
  refine bind_eq_ok.mpr ⟨p, p, rfl, ?_⟩
  simp only [hfd, if_false, h]
  refine bind_eq_ok.mpr ⟨⟨⟩, _, rfl, ?_⟩
  rw [if_neg (not_not.mpr rfl)]
  rfl

theorem sendOrRefuse_open (hopen : Open p) (type : FillMsgType) (payload : Bytes) :
    ∃ sent, sendOrRefuse type payload p = .ok () { p with sent } := by
  obtain ⟨sent, hsent⟩ := sendFrame_open hopen type payload
  unfold sendOrRefuse
  rw [hsent]
  exact ⟨sent, rfl⟩

theorem receiveHello_recv (hopen : 0 ≤ p.fd) {payload : Bytes} {incoming : Incoming}
    (hlen : 32 ≤ payload.length)
    (h : recvFrame p.incoming = (some ⟨.hello, payload⟩, incoming)) :
    receiveHello p =
      .ok () { p with incoming, gunNonce := payload.take 32, state := .helloRcvd } := by
  refine bind_eq_ok.mpr ⟨payload, _, expectFrame_recv hopen h, ?_⟩
  rw [if_neg (Nat.not_lt.mpr hlen)]
  rfl

theorem sendNonce_open (hopen : Open p) (deviceNonce : RandBytes 32) :
    ∃ sent, sendNonce deviceNonce p =
      .ok () { p with deviceNonce := deviceNonce.toList, sent, state := .nonceSent } := by
  obtain ⟨sent, hsent⟩ := sendOrRefuse_open (p := { p with deviceNonce := deviceNonce.toList })
    hopen .nonce deviceNonce.toList
  exact ⟨sent, bind_eq_ok.mpr ⟨⟨⟩, _, rfl, bind_eq_ok.mpr ⟨⟨⟩, _, hsent, rfl⟩⟩⟩

theorem receiveIdentity_recv (hopen : 0 ≤ p.fd) {identity : Bytes} {incoming : Incoming}
    (htrusted : identity ∈ p.trustedGunPubkeys)
    (h : recvFrame p.incoming = (some ⟨.identity, identity⟩, incoming)) :
    receiveIdentity p = .ok identity { p with incoming, state := .identityVerified } := by
  have hcert : p.verifyGunCert identity = true :=
    List.any_eq_true.mpr ⟨identity, htrusted, beq_self_eq_true identity⟩
  have hnot : ¬ (!p.verifyGunCert identity) = true := by simp [hcert]
  refine bind_eq_ok.mpr ⟨identity, _, expectFrame_recv hopen h, ?_⟩
  exact bind_eq_ok.mpr ⟨_, _, rfl, congrFun (if_neg hnot) _⟩

theorem sendDevAttest_open (hopen : Open p) :
    ∃ sent, sendDevAttest p = .ok () { p with sent, state := .devAttestSent } := by
  obtain ⟨sent, hsent⟩ := sendOrRefuse_open hopen .devAttest (signWithIk p.gunNonce)
  exact ⟨sent, bind_eq_ok.mpr ⟨_, _, rfl, bind_eq_ok.mpr ⟨⟨⟩, _, hsent, rfl⟩⟩⟩

theorem receiveGunAttest_recv (hopen : 0 ≤ p.fd) {gunPubkeyDer payload : Bytes}
    {incoming : Incoming}
    (hverify : payload = [] ∨ ssl.ecVerify gunPubkeyDer p.deviceNonce payload = true)
    (h : recvFrame p.incoming = (some ⟨.gunAttest, payload⟩, incoming)) :
    receiveGunAttest ssl gunPubkeyDer p =
      .ok () { p with incoming, state := .gunAttestVerified } := by
  have hnot : ¬ (!payload.isEmpty && !ssl.ecVerify gunPubkeyDer p.deviceNonce payload) = true := by
    rcases hverify with rfl | hverify
    · simp
    · simp [hverify]
  refine bind_eq_ok.mpr ⟨payload, _, expectFrame_recv hopen h, ?_⟩
  exact bind_eq_ok.mpr ⟨_, _, rfl, congrFun (if_neg hnot) _⟩

/-- A block whose signature has the fixed length is split where the gun put it together. -/
theorem receiveKeyBlock_recv (hopen : 0 ≤ p.fd) {gunPubkeyDer eciesPayload blockSig : Bytes}
    {incoming : Incoming} (hlen : blockSig.length = kSigLen) (hne : eciesPayload ≠ [])
    (hverify : (∀ b ∈ blockSig, b = 0) ∨ ssl.ecVerify gunPubkeyDer eciesPayload blockSig = true)
    (h : recvFrame p.incoming = (some ⟨.keyBlock, eciesPayload ++ blockSig⟩, incoming)) :
    receiveKeyBlock ssl gunPubkeyDer p = .ok eciesPayload { p with incoming } := by
  have hpos : 0 < eciesPayload.length := List.length_pos_iff.mpr hne
  have htotal : (eciesPayload ++ blockSig).length = eciesPayload.length + kSigLen := by
    rw [List.length_append, hlen]
  have hsig : (blockSig.all (· == 0) || ssl.ecVerify gunPubkeyDer eciesPayload blockSig) = true := by
    rw [Bool.or_eq_true]
    refine hverify.imp_left fun hzero => List.all_eq_true.mpr fun b hb => ?_
    exact beq_iff_eq.mpr (hzero b hb)
  refine bind_eq_ok.mpr ⟨eciesPayload ++ blockSig, _, expectFrame_recv hopen h, ?_⟩
  rw [if_neg (by omega)]
  simp only [htotal, Nat.add_sub_cancel, List.take_left, List.drop_left, hsig, Bool.not_true,
    Bool.false_eq_true, if_false]
  rfl

theorem decryptKeyBlock_of {eciesPayload plaintext : Bytes} {hsm : σ}
    (h : E.eciesDecrypt p.km.hsm p.ikHandle eciesPayload = (hsm, .ok (some plaintext)))
    (hlen : plaintext.length = 96) :
    decryptKeyBlock E eciesPayload p = .ok plaintext { p with km := { p.km with hsm } } := by
  refine bind_eq_ok.mpr ⟨p, p, rfl, ?_⟩
  rw [h]
  refine bind_eq_ok.mpr ⟨⟨⟩, _, rfl, ?_⟩
  dsimp only
  rw [if_neg (not_not.mpr hlen)]
  rfl

/-- Keys of 32 bytes can be imported. -/
def ImportsKeys (E : IHsmEngine σ) : Prop :=
  ∀ s key label, key.length = 32 → (E.importRaw s key label).2.handle.isSome

theorem callKeyManager_import (himports : ImportsKeys E) (slot : KeySlot) (label : String)
    {key : Bytes} (hlen : key.length = 32) (p : KeyFillPort σ) :
    ∃ km, importInto E slot label key p.km = (km, .ok ()) ∧
      callKeyManager (importInto E slot label key) p = .ok () { p with km } := by
  have hsome := himports p.km.hsm key label hlen
  have hcall : ∃ km, importInto E slot label key p.km = (km, .ok ()) := by
    unfold importInto importRawOrThrow
    generalize E.importRaw p.km.hsm key label = r at hsome
    rcases r with ⟨hsm, e | _ | h⟩
    · cases hsome
    · cases hsome
    · exact ⟨_, rfl⟩
  obtain ⟨km, hkm⟩ := hcall
  refine ⟨km, hkm, ?_⟩
  unfold callKeyManager
  rw [hkm]

theorem loadKeys_imports (himports : ImportsKeys E) {plaintext : Bytes}
    (hlen : plaintext.length = 96) (p : KeyFillPort σ) :
    ∃ km, KeysSet E plaintext p.km km ∧
      loadKeys E plaintext p = .ok () { p with km, state := .keysReceived } := by
  have hkekLen : (plaintext.take 32).length = 32 := by simp [hlen]
  have htekLen : ((plaintext.drop 32).take 32).length = 32 := by simp [hlen]
  have hfhekLen : (plaintext.drop 64).length = 32 := by simp [hlen]
  obtain ⟨km₁, hkek, hcall₁⟩ := callKeyManager_import himports .kek "kek" hkekLen p
  obtain ⟨km₂, htek, hcall₂⟩ :=
    callKeyManager_import himports .tek "tek" htekLen { p with km := km₁ }
  obtain ⟨km₃, hfhek, hcall₃⟩ :=
    callKeyManager_import himports .fhek "fhek" hfhekLen { p with km := km₂ }
  exact ⟨km₃, ⟨km₁, km₂, hkek, htek, hfhek⟩, bind_eq_ok.mpr ⟨⟨⟩, _, hcall₁,
    bind_eq_ok.mpr ⟨⟨⟩, _, hcall₂, bind_eq_ok.mpr ⟨⟨⟩, _, hcall₃, rfl⟩⟩⟩⟩

/-- What signs under the one key verifies under the other, and is a DER signature of
P-384. -/
structure SignsWith (ssl : OpenSsl) (privateKey publicKey : Bytes) : Prop where
  verifies {data coins sig : Bytes} : ssl.ecSign privateKey data coins = some sig →
    ssl.ecVerify publicKey data sig = true
  length_le {data coins sig : Bytes} : ssl.ecSign privateKey data coins = some sig →
    sig.length ≤ 104

/-- The encrypted block has the ephemeral key, the IV and the tag beside the ciphertext. -/
def EciesFormat (E : IHsmEngine σ) : Prop :=
  ∀ s h payload hsm plaintext, E.eciesDecrypt s h payload = (hsm, .ok (some plaintext)) →
    payload.length = plaintext.length + 125

/-- A trusted gun that keeps to the order of the frames and signs the nonce of the session
and the encrypted block. -/
structure Honest (ssl : OpenSsl) (deviceNonce : RandBytes 32) (p : KeyFillPort σ)
    (privateKey : Bytes) (g : GunFrames) : Prop where
  trusted : g.identity ∈ p.trustedGunPubkeys
  signs : SignsWith ssl privateKey g.identity
  hello : 32 ≤ g.hello.length ∧ g.hello.length ≤ 4096
  identity : g.identity.length ≤ 4096
  attest : ∃ coins, ssl.ecSign privateKey deviceNonce.toList coins = some g.attest
  blockSig : ∃ coins, ssl.ecSign privateKey g.eciesPayload coins = some g.blockSig
  carries : Carries p.incoming (g.toList.map wire).flatten

theorem receivedFrames_carries {frames : List FillFrame} {incoming : Incoming}
    (hlen : ∀ f ∈ frames, f.payload.length ≤ 4096)
    (h : Carries incoming (frames.map wire).flatten) :
    receivedFrames frames.length incoming = frames := by
  induction frames generalizing incoming with
  | nil => rfl
  | cons f frames ih =>
    obtain ⟨later, hrecv, hlater⟩ := recvFrame_carries (hlen f List.mem_cons_self) h
    rw [List.length_cons, receivedFrames, hrecv]
    exact congrArg (f :: ·) (ih (fun f hf => hlen f (List.mem_cons_of_mem _ hf)) hlater)

variable {deviceNonce : RandBytes 32} {privateKey : Bytes} {g : GunFrames}

theorem Honest.length_le (h : Honest ssl deviceNonce p privateKey g)
    (hblock : g.eciesPayload.length = 221) : ∀ f ∈ g.toList, f.payload.length ≤ 4096 := by
  obtain ⟨coins, hattest⟩ := h.attest
  obtain ⟨coins', hsig⟩ := h.blockSig
  have hattestLen := h.signs.length_le hattest
  have hsigLen := h.signs.length_le hsig
  intro f hf
  simp only [GunFrames.toList, List.mem_cons, List.not_mem_nil, or_false] at hf
  rcases hf with rfl | rfl | rfl | rfl
  · exact h.hello.2
  · exact h.identity
  · exact Nat.le_trans hattestLen (by decide)
  · rw [List.length_append]
    omega

/-- With a signature of the fixed length the block gets through. -/
theorem Honest.receiveBlock_ok (hopen : Open p) (h : Honest ssl deviceNonce p privateKey g)
    (hblock : g.eciesPayload.length = 221) (hsigLen : g.blockSig.length = kSigLen) :
    ∃ p', receiveBlock ssl deviceNonce p = .ok g.eciesPayload p' := by
  obtain ⟨hhello, hidentity, hattest, hkeyBlock⟩ : g.hello.length ≤ 4096 ∧
      g.identity.length ≤ 4096 ∧ g.attest.length ≤ 4096 ∧
      (g.eciesPayload ++ g.blockSig).length ≤ 4096 := by
    simpa [GunFrames.toList] using h.length_le hblock
  obtain ⟨coins, hsigned⟩ := h.attest
  obtain ⟨coins', hsigned'⟩ := h.blockSig
  have hne : g.eciesPayload ≠ [] := by
    intro hnil
    rw [hnil] at hblock
    cases hblock
  obtain ⟨in₁, hrecv₁, hcarries₁⟩ := recvFrame_carries hhello h.carries
  obtain ⟨in₂, hrecv₂, hcarries₂⟩ := recvFrame_carries hidentity hcarries₁
  obtain ⟨in₃, hrecv₃, hcarries₃⟩ := recvFrame_carries hattest hcarries₂
  obtain ⟨in₄, hrecv₄, -⟩ := recvFrame_carries hkeyBlock hcarries₃
  have hexchange : ∃ p', exchange ssl deviceNonce (clearSession p) = .ok g.eciesPayload p' := by
    -- the state before each part is known from the part before it
    refine exists_bind_ok (receiveHello_recv (by exact hopen.1) h.hello.1 (by exact hrecv₁)) ?_
    refine exists_bind_ok_of_exists (sendNonce_open (by exact hopen) deviceNonce) fun sent₁ => ?_
    refine exists_bind_ok
      (receiveIdentity_recv (by exact hopen.1) (by exact h.trusted) (by exact hrecv₂)) ?_
    refine exists_bind_ok_of_exists (sendDevAttest_open (by exact hopen)) fun sent₂ => ?_
    refine exists_bind_ok (receiveGunAttest_recv (by exact hopen.1)
      (.inr (by exact h.signs.verifies hsigned)) (by exact hrecv₃)) ?_
    exact ⟨_, receiveKeyBlock_recv (by exact hopen.1) hsigLen hne (.inr (h.signs.verifies hsigned'))
      (by exact hrecv₄)⟩
  obtain ⟨p', hexchange⟩ := hexchange
  refine ⟨p', bind_eq_ok.mpr ⟨p, p, rfl, ?_⟩⟩
  rw [if_neg (Int.not_lt.mpr hopen.1)]
  exact bind_eq_ok.mpr ⟨⟨⟩, _, rfl, hexchange⟩

/-- The block is installed after it has got through. -/
theorem runSession_of_receiveBlock {K : KeyObjects E} (hecies : EciesKeeps K)
    (himports : ImportsKeys E) (hm : Owns K p.km) {eciesPayload plaintext : Bytes} {hsm : σ}
    {p₁ : KeyFillPort σ} (hblock : receiveBlock ssl deviceNonce p = .ok eciesPayload p₁)
    (hdecrypt : E.eciesDecrypt p.km.hsm p.ikHandle eciesPayload = (hsm, .ok (some plaintext)))
    (hlen : plaintext.length = 96) :
    ∃ p', runSession ssl E deviceNonce p = (p', .ok true) ∧
      (material K p'.km).key = blockKeys plaintext := by
  obtain ⟨hkm, hik⟩ := (keeps_receiveBlock deviceNonce).ok hblock
  have hsame := sameKeys_eciesDecrypt hecies p.km p.ikHandle eciesPayload
  rw [hdecrypt] at hsame
  rw [← hkm, ← hik] at hdecrypt
  have hplain := decryptKeyBlock_of hdecrypt hlen
  rw [hkm] at hplain
  obtain ⟨km, hset, hload⟩ := loadKeys_imports himports hlen { p₁ with km := { p.km with hsm } }
  obtain ⟨p', hinstall⟩ : ∃ p', installBlock E eciesPayload p₁ = .ok () p' :=
    exists_bind_ok hplain (exists_bind_ok hload ⟨_, rfl⟩)
  have hsession : session ssl E deviceNonce p = .ok () p' := by
    rw [session_eq]
    exact bind_eq_ok.mpr ⟨eciesPayload, p₁, hblock, hinstall⟩
  obtain ⟨_, _, hplain', hrest⟩ := bind_eq_ok.mp hinstall
  obtain ⟨_, _, hload', hack⟩ := bind_eq_ok.mp hrest
  cases hplain.symm.trans hplain'
  cases hload.symm.trans hload'
  refine ⟨p', ?_, ?_⟩
  · unfold runSession
    rw [hsession]
  · rw [sendAck_ok hack]
    exact hset.material (hsame.owns hm)

/-- What the session decrypts is as long as the block that the gun sent, so it splits the
payload where the gun put it together. -/
theorem length_of_accepted {p' : KeyFillPort σ} (hformat : EciesFormat E)
    (hgun : Honest ssl deviceNonce p privateKey g) (hblock : g.eciesPayload.length = 221)
    (hrun : runSession ssl E deviceNonce p = (p', .ok true)) : g.blockSig.length = kSigLen := by
  obtain ⟨g', plaintext, hsm, hframes, -, -, hsigLen, -, hdecrypt, hlen, -⟩ :=
    session_ok (session_of_runSession hrun)
  have hblock' := hformat _ _ _ _ _ hdecrypt
  have hsent : receivedFrames 4 p.incoming = g.toList :=
    receivedFrames_carries (hgun.length_le hblock) hgun.carries
  have hpayload : g.eciesPayload ++ g.blockSig = g'.eciesPayload ++ g'.blockSig := by
    have hlists := hsent.symm.trans hframes
    simp only [GunFrames.toList, List.cons.injEq, FillFrame.mk.injEq, true_and, and_true]
      at hlists
    exact hlists.2.2.2
  have hlengths := congrArg List.length hpayload
  rw [List.length_append, List.length_append] at hlengths
  omega

/-- An honest gun is accepted, and its block loaded, exactly if its signature of the block
has the fixed length. -/
theorem honest_accepted_iff {K : KeyObjects E} (hecies : EciesKeeps K) (hformat : EciesFormat E)
    (himports : ImportsKeys E) (hopen : Open p) (hm : Owns K p.km)
    (hgun : Honest ssl deviceNonce p privateKey g) {plaintext : Bytes} {hsm : σ}
    (hdecrypt : E.eciesDecrypt p.km.hsm p.ikHandle g.eciesPayload = (hsm, .ok (some plaintext)))
    (hlen : plaintext.length = 96) :
    (∃ p', runSession ssl E deviceNonce p = (p', .ok true) ∧
      (material K p'.km).key = blockKeys plaintext) ↔ g.blockSig.length = kSigLen := by
  have hblock : g.eciesPayload.length = 221 := by
    rw [hformat _ _ _ _ _ hdecrypt, hlen]
  constructor
  · rintro ⟨p', hrun, -⟩
    exact length_of_accepted hformat hgun hblock hrun
  · intro hsigLen
    obtain ⟨p₁, hreceived⟩ := hgun.receiveBlock_ok hopen hblock hsigLen
    exact runSession_of_receiveBlock hecies himports hm hreceived hdecrypt hlen

end Run

/-- A gun that signs is accepted. -/
def HonestGunAccepted : Prop :=
  ∀ (σ : Type) (E : IHsmEngine σ) (K : KeyObjects E) (ssl : OpenSsl) (p : KeyFillPort σ)
    (deviceNonce : RandBytes 32) (privateKey : Bytes) (g : GunFrames) (plaintext : Bytes) (hsm : σ),
    EciesKeeps K → EciesFormat E → ImportsKeys E → Open p → Owns K p.km →
    Honest ssl deviceNonce p privateKey g →
    E.eciesDecrypt p.km.hsm p.ikHandle g.eciesPayload = (hsm, .ok (some plaintext)) →
    plaintext.length = 96 →
    ∃ p', runSession ssl E deviceNonce p = (p', .ok true) ∧
      (material K p'.km).key = blockKeys plaintext

theorem gunOfLength_honest {length : ℕ} (hlen : length ≤ 104) :
    Honest (derSsl length) (Vector.replicate 32 5) (portForGun length) [9]
      (gunOfLength length) where
  trusted := List.mem_singleton.mpr rfl
  signs := ⟨fun hsig => by
      cases hsig
      exact beq_self_eq_true _, fun hsig => by
      cases hsig
      exact Nat.le_trans (List.length_take_le _ _) hlen⟩
  hello := ⟨Nat.le_of_ble_eq_true rfl, Nat.le_of_ble_eq_true rfl⟩
  identity := Nat.le_of_ble_eq_true rfl
  attest := ⟨[], rfl⟩
  blockSig := ⟨[], rfl⟩
  carries := ⟨_, rfl, by simp [GunFrames.toList, wire, frameHeader], rfl⟩

theorem tableHsm_eciesFormat : EciesFormat tableHsm := by
  intro s h payload hsm plaintext heq
  unfold tableHsm at heq
  simp only at heq
  split at heq
  · cases (Prod.mk.inj heq).2
  · rw [← Option.some.inj (Except.ok.inj (Prod.mk.inj heq).2), List.length_take,
      List.length_drop]
    omega

theorem tableHsm_importsKeys : ImportsKeys tableHsm := by
  intro s key label hlen
  unfold tableHsm
  simp [hlen, Throws.handle]

theorem tableKeys_ecies : EciesKeeps tableKeys := by
  intro s h payload
  change tableKey (tableHsm.eciesDecrypt s h payload).1 = tableKey s
  unfold tableHsm
  simp only
  split <;> rfl

theorem gunOfLength_decrypts (length : ℕ) : tableHsm.eciesDecrypt (portForGun length).km.hsm
    (portForGun length).ikHandle (gunOfLength length).eciesPayload =
      ([], .ok (some (List.replicate 96 6))) := by
  have hpayload : (gunOfLength length).eciesPayload = List.replicate 221 6 := rfl
  rw [hpayload]
  unfold tableHsm
  simp only [List.length_replicate, List.drop_replicate, List.take_replicate]
  rfl

/-- A signature of 96 bytes is accepted. -/
theorem honest_accepted_iff_fixed :
    (∃ p', runSession (derSsl 96) tableHsm (Vector.replicate 32 5) (portForGun 96) =
        (p', .ok true) ∧ (material tableKeys p'.km).key = blockKeys (List.replicate 96 6)) ↔
      (gunOfLength 96).blockSig.length = kSigLen :=
  honest_accepted_iff tableKeys_ecies tableHsm_eciesFormat tableHsm_importsKeys
    ⟨by decide, rfl⟩ (owns_new []) (gunOfLength_honest (by decide)) (gunOfLength_decrypts 96)
    (by decide)

/-- A signature of 103 bytes, as most are, is cut in the wrong place. -/
theorem not_honestGunAccepted : ¬ HonestGunAccepted := by
  intro h
  have hgun := gunOfLength_honest (Nat.le_of_ble_eq_true (rfl : Nat.ble 103 104 = true))
  obtain ⟨p', hrun, -⟩ := h _ tableHsm tableKeys (derSsl 103) (portForGun 103) _ [9]
    (gunOfLength 103) _ _ tableKeys_ecies tableHsm_eciesFormat tableHsm_importsKeys
    ⟨by decide, rfl⟩ (owns_new []) hgun (gunOfLength_decrypts 103) (by decide)
  have hlen := length_of_accepted tableHsm_eciesFormat hgun rfl hrun
  exact absurd hlen (by decide)

end KeyFillPort
end Cirradio.Security
