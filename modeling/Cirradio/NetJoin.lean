import Cirradio.OpenSsl
import Cirradio.OrderedMaps

/-!
# Net join

The joiner asks, the responder draws a nonce, the joiner signs it, and the responder
verifies the signature under the trusted key of the joiner and answers with the net
keys. The responder keeps one pending challenge for each joiner id.
-/

namespace Cirradio.Network
open Security OrderedMaps

def kNonceSize : ℕ := 32
def kIvSize : ℕ := 12

structure JoinRequest where
  nodeId : UInt32
  publicKey : Bytes
  deriving DecidableEq, Repr

structure Challenge where
  challengerId : UInt32
  joinerId : UInt32
  nonce : Bytes
  deriving DecidableEq, Repr

structure ChallengeResponse where
  joinerId : UInt32
  nonce : Bytes
  signature : Bytes
  deriving DecidableEq, Repr

structure JoinAccept where
  accepted : Bool
  encryptedTek : Bytes
  encryptedFhek : Bytes
  deriving DecidableEq, Repr

/-- The initial value of every result; each failure exit returns it unchanged. -/
def JoinAccept.rejected : JoinAccept := ⟨false, [], []⟩

/-- AES-256-GCM under a raw key, in the layout IV, ciphertext, tag. The IV is what
`RAND_bytes` drew, if the draw succeeded. -/
def aesGcmEncrypt (ssl : OpenSsl) (iv : Option (RandBytes kIvSize))
    (key plaintext : Bytes) : Option Bytes :=
  if key.length ≠ 32 then none
  else do
    let iv ← iv
    let (ciphertext, tag) ← ssl.gcmEncrypt key iv.toList plaintext
    return iv.toList ++ ciphertext ++ tag.toList

theorem aesGcmEncrypt_nonce {ssl : OpenSsl} (hgcm : ssl.GcmTotal) (iv : RandBytes kIvSize)
    (nonce : RandBytes kNonceSize) (plaintext : Bytes) :
    ∃ ciphertext tag,
      ssl.gcmEncrypt nonce.toList iv.toList plaintext = some (ciphertext, tag) ∧
      aesGcmEncrypt ssl (some iv) nonce.toList plaintext =
        some (iv.toList ++ ciphertext ++ tag.toList) := by
  have hlen : nonce.toList.length = 32 := Vector.length_toList
  obtain ⟨⟨ciphertext, tag⟩, hc⟩ :=
    Option.isSome_iff_exists.mp (hgcm nonce.toList iv.toList plaintext hlen)
  exact ⟨ciphertext, tag, hc, by simp [aesGcmEncrypt, hlen, hc]⟩

structure NetJoin where
  nodeId : UInt32
  privateKey : Bytes
  publicKey : Bytes
  trustedKeys : Std.ExtTreeMap UInt32 Bytes
  pendingChallenges : Std.ExtTreeMap UInt32 Challenge

namespace NetJoin

def new (nodeId : UInt32) (identityPrivateKey identityPublicKey : Bytes) : NetJoin where
  nodeId := nodeId
  privateKey := identityPrivateKey
  publicKey := identityPublicKey
  trustedKeys := ∅
  pendingChallenges := ∅

def createJoinRequest (n : NetJoin) : JoinRequest := ⟨n.nodeId, n.publicKey⟩

/-- A failed signature is sent as an empty one. -/
def signChallenge (ssl : OpenSsl) (coins : Bytes) (n : NetJoin) (challenge : Challenge) :
    ChallengeResponse where
  joinerId := n.nodeId
  nonce := challenge.nonce
  signature := (ssl.ecSign n.privateKey challenge.nonce coins).getD []

def addTrustedNode (n : NetJoin) (nodeId : UInt32) (publicKey : Bytes) : NetJoin :=
  { n with trustedKeys := n.trustedKeys.insert nodeId publicKey }

/-- The nonce is what the buffer holds after `RAND_bytes`, whose result is not checked. -/
def createChallenge (n : NetJoin) (request : JoinRequest) (nonce : RandBytes kNonceSize) :
    NetJoin × Challenge :=
  let challenge : Challenge := ⟨n.nodeId, request.nodeId, nonce.toList⟩
  ({ n with pendingChallenges := n.pendingChallenges.insert request.nodeId challenge },
    challenge)

def erasePending (n : NetJoin) (joinerId : UInt32) : NetJoin :=
  { n with pendingChallenges := n.pendingChallenges.erase joinerId }

/-- `ivs` are the two IV draws, for the TEK and for the FHEK. -/
def verifyAndAccept (ssl : OpenSsl)
    (ivs : Option (RandBytes kIvSize) × Option (RandBytes kIvSize)) (n : NetJoin)
    (response : ChallengeResponse) (tek fhek : Bytes) : NetJoin × JoinAccept :=
  match n.pendingChallenges[response.joinerId]? with
  | none => (n, .rejected)
  | some challenge =>
    let expectedNonce := challenge.nonce
    if response.nonce ≠ expectedNonce then (n.erasePending response.joinerId, .rejected)
    else
      match n.trustedKeys[response.joinerId]? with
      | none => (n.erasePending response.joinerId, .rejected)
      | some key =>
        if ssl.ecVerify key response.nonce response.signature = false then
          (n.erasePending response.joinerId, .rejected)
        else
          -- the nonce is the wrapping key
          match aesGcmEncrypt ssl ivs.1 expectedNonce tek,
              aesGcmEncrypt ssl ivs.2 expectedNonce fhek with
          | some wrappedTek, some wrappedFhek =>
            (n.erasePending response.joinerId, ⟨true, wrappedTek, wrappedFhek⟩)
          | _, _ => (n.erasePending response.joinerId, .rejected)

@[simp] theorem createChallenge_trustedKeys (n : NetJoin) (request : JoinRequest)
    (nonce : RandBytes kNonceSize) :
    (n.createChallenge request nonce).1.trustedKeys = n.trustedKeys := rfl

@[simp] theorem erasePending_trustedKeys (n : NetJoin) (joinerId : UInt32) :
    (n.erasePending joinerId).trustedKeys = n.trustedKeys := rfl

/-- What acceptance takes: the pending challenge with its nonce echoed, a trusted
key that verifies the signature, and both wraps under the nonce. -/
structure Accepts (ssl : OpenSsl)
    (ivs : Option (RandBytes kIvSize) × Option (RandBytes kIvSize)) (n : NetJoin)
    (response : ChallengeResponse) (tek fhek : Bytes) (result : JoinAccept) : Prop where
  pending : ∃ challenge, n.pendingChallenges[response.joinerId]? = some challenge ∧
    response.nonce = challenge.nonce
  trusted : ∃ key, n.trustedKeys[response.joinerId]? = some key ∧
    ssl.ecVerify key response.nonce response.signature = true
  wrappedTek : aesGcmEncrypt ssl ivs.1 response.nonce tek = some result.encryptedTek
  wrappedFhek : aesGcmEncrypt ssl ivs.2 response.nonce fhek = some result.encryptedFhek

/-- Whatever the exit, no challenge for this joiner stays pending and nothing else
changes. -/
theorem verifyAndAccept_state (ssl : OpenSsl)
    (ivs : Option (RandBytes kIvSize) × Option (RandBytes kIvSize)) (n : NetJoin)
    (response : ChallengeResponse) (tek fhek : Bytes) :
    (verifyAndAccept ssl ivs n response tek fhek).1 = n.erasePending response.joinerId := by
  unfold verifyAndAccept
  cases hp : n.pendingChallenges[response.joinerId]? with
  | none =>
    have he : n.pendingChallenges.erase response.joinerId = n.pendingChallenges := by
      apply Std.ExtTreeMap.ext_getElem?
      intro k
      rw [getElem?_erase_ite]
      split_ifs with hk
      · rw [hk, hp]
      · rfl
    simp [erasePending, he]
  | some challenge =>
    dsimp only
    split_ifs
    · rfl
    · split
      · rfl
      · split_ifs
        · rfl
        · split <;> rfl

theorem accepts_of_accepted {ssl : OpenSsl}
    {ivs : Option (RandBytes kIvSize) × Option (RandBytes kIvSize)} {n : NetJoin}
    {response : ChallengeResponse} {tek fhek : Bytes}
    (h : (verifyAndAccept ssl ivs n response tek fhek).2.accepted = true) :
    Accepts ssl ivs n response tek fhek (verifyAndAccept ssl ivs n response tek fhek).2 := by
  unfold verifyAndAccept at h ⊢
  cases hp : n.pendingChallenges[response.joinerId]? with
  | none => simp [hp, JoinAccept.rejected] at h
  | some challenge =>
    simp only [hp] at h ⊢
    split_ifs at h ⊢ with hn
    · simp [JoinAccept.rejected] at h
    · have hn : response.nonce = challenge.nonce := not_not.mp hn
      cases hk : n.trustedKeys[response.joinerId]? with
      | none => simp [hk, JoinAccept.rejected] at h
      | some key =>
        simp only [hk] at h ⊢
        split_ifs at h ⊢ with hv
        · simp [JoinAccept.rejected] at h
        · split at h
          · rename_i wrappedTek wrappedFhek ht hf
            rw [← hn] at ht hf
            exact ⟨⟨challenge, hp, hn⟩, ⟨key, hk, by simpa using hv⟩, ht, hf⟩
          · simp [JoinAccept.rejected] at h

theorem Accepts.result_eq {ssl : OpenSsl}
    {ivs : Option (RandBytes kIvSize) × Option (RandBytes kIvSize)} {n : NetJoin}
    {response : ChallengeResponse} {tek fhek : Bytes} {result : JoinAccept}
    (h : Accepts ssl ivs n response tek fhek result) :
    (verifyAndAccept ssl ivs n response tek fhek).2 =
      ⟨true, result.encryptedTek, result.encryptedFhek⟩ := by
  obtain ⟨⟨challenge, hp, hn⟩, ⟨key, hk, hv⟩, ht, hf⟩ := h
  rw [hn] at hv ht hf
  simp [verifyAndAccept, hp, hn, hk, hv, ht, hf]

end NetJoin
end Cirradio.Network
