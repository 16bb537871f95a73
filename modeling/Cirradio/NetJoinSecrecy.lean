import Cirradio.NetJoinSessions
import Mathlib.Data.Set.Basic

/-!
# What an eavesdropper learns from a join

The eavesdropper records the four messages of a join and may decrypt with every byte
string it has. The wrapping key of the net keys is the nonce, which is itself one of
the recorded byte strings.
-/

namespace Cirradio.Network
open Security CallRuns

/-- What follows from observed byte strings by decryption under known keys. -/
inductive Derivable (decrypt : Bytes → Bytes → Option Bytes) (observed : Set Bytes) :
    Bytes → Prop where
  | observed {m} (h : m ∈ observed) : Derivable decrypt observed m
  | decrypt {key wire m} (hkey : Derivable decrypt observed key)
      (hwire : Derivable decrypt observed wire) (h : decrypt key wire = some m) :
      Derivable decrypt observed m

structure JoinTranscript where
  request : JoinRequest
  challenge : Challenge
  response : ChallengeResponse
  accept : JoinAccept

namespace JoinTranscript

/-- The byte strings sent, in order. -/
def fields (t : JoinTranscript) : List Bytes :=
  [t.request.publicKey, t.challenge.nonce, t.response.nonce, t.response.signature,
    t.accept.encryptedTek, t.accept.encryptedFhek]

/-- The byte strings that occur in a message, parts of a field included. -/
def occurring (t : JoinTranscript) : Set Bytes :=
  {m | ∃ field ∈ t.fields, m <:+: field}

theorem mem_occurring (t : JoinTranscript) {m : Bytes} (h : m ∈ t.fields) :
    m ∈ t.occurring := ⟨m, h, List.infix_refl m⟩

theorem nonce_mem_occurring (t : JoinTranscript) : t.challenge.nonce ∈ t.occurring :=
  t.mem_occurring (by simp [fields])

theorem encryptedTek_mem_occurring (t : JoinTranscript) :
    t.accept.encryptedTek ∈ t.occurring :=
  t.mem_occurring (by simp [fields])

theorem encryptedFhek_mem_occurring (t : JoinTranscript) :
    t.accept.encryptedFhek ∈ t.occurring :=
  t.mem_occurring (by simp [fields])

/-- No byte string of the transcript decrypts either wrapped key to the net key. -/
def Conceals (decrypt : Bytes → Bytes → Option Bytes) (t : JoinTranscript)
    (tek fhek : Bytes) : Prop :=
  ∀ key ∈ t.occurring,
    decrypt key t.accept.encryptedTek ≠ some tek ∧
    decrypt key t.accept.encryptedFhek ≠ some fhek

end JoinTranscript

namespace NetJoin

/-- The messages of an undisturbed join. -/
def joinTranscript (ssl : OpenSsl) (responder joiner : NetJoin)
    (nonce : RandBytes kNonceSize) (coins tek fhek : Bytes)
    (ivs : Option (RandBytes kIvSize) × Option (RandBytes kIvSize)) : JoinTranscript :=
  let request := joiner.createJoinRequest
  let challenged := responder.createChallenge request nonce
  let response := joiner.signChallenge ssl coins challenged.2
  ⟨request, challenged.2, response,
    (challenged.1.verifyAndAccept ssl ivs response tek fhek).2⟩

/-- Decryption undoes the encryption of the net keys. -/
def Decrypts (ssl : OpenSsl) (decrypt : Bytes → Bytes → Option Bytes) : Prop :=
  ∀ iv key plaintext wire, aesGcmEncrypt ssl iv key plaintext = some wire →
    decrypt key wire = some plaintext

/-- Secrecy of the delivered keys, for every join of a trusted node that signs its
challenge correctly. -/
def JoinSecrecy (ssl : OpenSsl) (decrypt : Bytes → Bytes → Option Bytes) : Prop :=
  ∀ (responder joiner : NetJoin) (nonce : RandBytes kNonceSize) (coins : Bytes)
    (tek fhek : Bytes) (ivTek ivFhek : RandBytes kIvSize),
    tek.length = 32 → fhek.length = 32 →
    responder.trustedKeys[joiner.nodeId]? = some joiner.publicKey →
    ssl.ecVerify joiner.publicKey nonce.toList
      ((ssl.ecSign joiner.privateKey nonce.toList coins).getD []) = true →
    (joinTranscript ssl responder joiner nonce coins tek fhek
      (some ivTek, some ivFhek)).Conceals decrypt tek fhek

/-- The nonce of an undisturbed join of a trusted node decrypts both delivered keys. -/
theorem joinTranscript_decrypts {ssl : OpenSsl} {decrypt : Bytes → Bytes → Option Bytes}
    (hgcm : ssl.GcmTotal) (hdecrypt : Decrypts ssl decrypt)
    {responder joiner : NetJoin} {nonce : RandBytes kNonceSize} {coins : Bytes}
    (tek fhek : Bytes) (ivTek ivFhek : RandBytes kIvSize)
    (htrusted : responder.trustedKeys[joiner.nodeId]? = some joiner.publicKey)
    (hsigned : ssl.ecVerify joiner.publicKey nonce.toList
      ((ssl.ecSign joiner.privateKey nonce.toList coins).getD []) = true) :
    let accept := (joinTranscript ssl responder joiner nonce coins tek fhek
      (some ivTek, some ivFhek)).accept
    decrypt nonce.toList accept.encryptedTek = some tek ∧
      decrypt nonce.toList accept.encryptedFhek = some fhek := by
  obtain ⟨result, hacc⟩ := accepts_honest_response hgcm [] [] tek fhek ivTek ivFhek
    htrusted (by simp) (by simp) hsigned (by simp)
  have haccept := hacc.result_eq
  simp only [after_nil] at haccept
  simp only [joinTranscript, haccept]
  exact ⟨hdecrypt _ _ _ _ hacc.wrappedTek, hdecrypt _ _ _ _ hacc.wrappedFhek⟩

/-- The nonce of the transcript decrypts both keys of an accepted join, so the
eavesdropper derives them, whatever the keys, the nonce and the joiner. -/
theorem joinTranscript_not_conceals (ssl : OpenSsl)
    (decrypt : Bytes → Bytes → Option Bytes) (hgcm : ssl.GcmTotal)
    (hdecrypt : Decrypts ssl decrypt) (responder joiner : NetJoin)
    (nonce : RandBytes kNonceSize) (coins tek fhek : Bytes) (ivTek ivFhek : RandBytes kIvSize)
    (htrusted : responder.trustedKeys[joiner.nodeId]? = some joiner.publicKey)
    (hsigned : ssl.ecVerify joiner.publicKey nonce.toList
      ((ssl.ecSign joiner.privateKey nonce.toList coins).getD []) = true) :
    let t := joinTranscript ssl responder joiner nonce coins tek fhek
      (some ivTek, some ivFhek)
    ¬ t.Conceals decrypt tek fhek ∧
      Derivable decrypt t.occurring tek ∧ Derivable decrypt t.occurring fhek := by
  intro t
  obtain ⟨htek, hfhek⟩ := joinTranscript_decrypts hgcm hdecrypt tek fhek ivTek ivFhek
    htrusted hsigned
  have hnonce : nonce.toList ∈ t.occurring := t.nonce_mem_occurring
  refine ⟨fun h => (h _ hnonce).1 htek, ?_, ?_⟩
  · exact .decrypt (.observed hnonce) (.observed t.encryptedTek_mem_occurring) htek
  · exact .decrypt (.observed hnonce) (.observed t.encryptedFhek_mem_occurring) hfhek

theorem xorSsl_decrypts : Decrypts xorSsl xorDecrypt := by
  intro iv key plaintext wire h
  unfold aesGcmEncrypt at h
  split_ifs at h
  cases iv with
  | none => cases h
  | some iv =>
    cases h
    exact xorDecrypt_encrypt key plaintext iv

theorem joinTranscript_not_conceals_xorSsl :
    let t := joinTranscript xorSsl ((new 1 [1] [1]).addTrustedNode 2 [2]) (new 2 [2] [2])
      (Vector.replicate kNonceSize 7) [] (List.replicate 32 5) (List.replicate 32 6)
      (some (Vector.replicate kIvSize 0), some (Vector.replicate kIvSize 1))
    ¬ t.Conceals xorDecrypt (List.replicate 32 5) (List.replicate 32 6) ∧
      Derivable xorDecrypt t.occurring (List.replicate 32 5) ∧
      Derivable xorDecrypt t.occurring (List.replicate 32 6) :=
  joinTranscript_not_conceals xorSsl xorDecrypt (fun _ _ _ _ => rfl) xorSsl_decrypts _ _ _ _
    _ _ _ _ (by decide) (by decide)

/-- The joiner 2, the nonce of sevens and the keys of fives and sixes. -/
theorem not_joinSecrecy : ¬ JoinSecrecy xorSsl xorDecrypt := by
  intro h
  have hconceals := h ((new 1 [1] [1]).addTrustedNode 2 [2]) (new 2 [2] [2])
    (Vector.replicate kNonceSize 7) [] (List.replicate 32 5) (List.replicate 32 6)
    (Vector.replicate kIvSize 0) (Vector.replicate kIvSize 1) (by decide) (by decide)
    (by decide) (by decide)
  obtain ⟨htek, -⟩ := hconceals _ (JoinTranscript.nonce_mem_occurring _)
  exact htek (by decide)

end NetJoin
end Cirradio.Network
