import Cirradio.HsmEngine
import Cirradio.UncheckedCalls

/-!
# Decryption of a key block

`SoftHsm::ecies_decrypt` takes the point of the sender, derives a key from it and the identity
key, and decrypts under that key. Only a few of its calls of OpenSSL are checked. Where another
one fails, the key is derived from whatever there is, and is one that the sender can know.
-/

namespace Cirradio.Security
open UncheckedCalls

/-- The calls of OpenSSL in `ecies_decrypt`. A call that changes an object gives it anew, or nothing
if it fails; a constructor that fails gives a null pointer. -/
structure Evp where
  PrivKey : Type
  Group : Type
  Point : Type
  BnCtx : Type
  EcKey : Type
  Pkey : Type
  DhCtx : Type
  HkdfCtx : Type
  CipherCtx : Type
  d2iPrivateKey : Bytes → Option PrivKey
  /-- `EC_GROUP_new_by_curve_name(NID_secp384r1)`. -/
  ecGroupNew : Option Group
  ecPointNew : Group → Option Point
  bnCtxNew : Option BnCtx
  ecPointOct2point : Group → Bytes → Option BnCtx → Point → Option Point
  ecKeyNew : Option EcKey
  ecKeySetGroup : Group → EcKey → Option EcKey
  ecKeySetPublicKey : Point → EcKey → Option EcKey
  evpPkeyNew : Option Pkey
  evpPkeySet1EcKey : EcKey → Pkey → Option Pkey
  dhCtxNew : PrivKey → Option DhCtx
  deriveInit : DhCtx → Option DhCtx
  deriveSetPeer : Pkey → DhCtx → Option DhCtx
  /-- `EVP_PKEY_derive` without a buffer: the length of the secret. -/
  deriveLength : DhCtx → Option ℕ
  /-- `EVP_PKEY_derive` into a buffer of a size: what is in it up to the length that is reported. -/
  derive : DhCtx → ℕ → Option Bytes
  hkdfCtxNew : Option HkdfCtx
  hkdfDeriveInit : HkdfCtx → Option HkdfCtx
  /-- With `EVP_sha384()`. -/
  setHkdfMd : HkdfCtx → Option HkdfCtx
  /-- The key and its length. -/
  set1HkdfKey : Bytes → Int32 → HkdfCtx → Option HkdfCtx
  set1HkdfSalt : Bytes → HkdfCtx → Option HkdfCtx
  add1HkdfInfo : Bytes → HkdfCtx → Option HkdfCtx
  hkdfDerive : HkdfCtx → (n : ℕ) → Option (Vector UInt8 n)
  cipherCtxNew : Option CipherCtx
  /-- With `EVP_aes_256_gcm()`. -/
  decryptInit : CipherCtx → Option CipherCtx
  setIvLength : ℕ → CipherCtx → Option CipherCtx
  /-- The key, then the IV. -/
  decryptInitKey : Bytes → Bytes → CipherCtx → Option CipherCtx
  /-- The data and their length. It also gives what it writes. -/
  decryptUpdate : Bytes → Int32 → CipherCtx → Option (CipherCtx × Bytes)
  setTag : Bytes → CipherCtx → Option CipherCtx
  /-- It succeeds if the tag verifies. -/
  decryptFinal : CipherCtx → Option Bytes

namespace SoftHsm

def kPubLen : ℕ := 97
def kIvLen : ℕ := 12
def kTagLen : ℕ := 16

/-- `"cirradio-keyfill"`. -/
def kInfo : Bytes :=
  [0x63, 0x69, 0x72, 0x72, 0x61, 0x64, 0x69, 0x6F, 0x2D, 0x6B, 0x65, 0x79, 0x66, 0x69, 0x6C, 0x6C]

/-- `subspan`; nothing if the slice is out of range. -/
def subspan (s : Bytes) (offset count : ℕ) : Option Bytes :=
  if offset + count ≤ s.length then some ((s.drop offset).take count) else none

variable (ssl : Evp)

/-- The public key of the sender. A call on a null pointer fails. -/
def loadEphemeral (point : Bytes) : Option ssl.Pkey :=
  let grp := ssl.ecGroupNew
  let pt := grp.bind ssl.ecPointNew
  let ctx := ssl.bnCtxNew
  let pt := pt.map (attempt fun pt => grp.bind fun grp => ssl.ecPointOct2point grp point ctx pt)
  let ecKey := ssl.ecKeyNew.map (attempts
    [fun key => grp.bind fun grp => ssl.ecKeySetGroup grp key,
      fun key => pt.bind fun pt => ssl.ecKeySetPublicKey pt key])
  ssl.evpPkeyNew.map (attempt fun pkey => ecKey.bind fun key => ssl.evpPkeySet1EcKey key pkey)

/-- The shared secret. A buffer that is not written holds zeros. -/
def deriveShared (devPriv : ssl.PrivKey) (ephemPub : ssl.Pkey) : Bytes :=
  let dhCtx := (ssl.dhCtxNew devPriv).map (attempts [ssl.deriveInit, ssl.deriveSetPeer ephemPub])
  let secretLen := (dhCtx.bind ssl.deriveLength).getD 0
  (dhCtx.bind (ssl.derive · secretLen)).getD (List.replicate secretLen 0)

def deriveKey (shared : Bytes) : Bytes :=
  let hkdfCtx := ssl.hkdfCtxNew.map (attempts [ssl.hkdfDeriveInit, ssl.setHkdfMd,
    ssl.set1HkdfKey shared (.ofNat shared.length), ssl.set1HkdfSalt [], ssl.add1HkdfInfo kInfo])
  ((hkdfCtx.bind (ssl.hkdfDerive · 32)).map (·.toList)).getD (List.replicate 32 0)

/-- The context before the check of the tag, and what has been decrypted. -/
def gcmUpdate (aesKey iv ct tag : Bytes) : Option ssl.CipherCtx × Bytes :=
  let cctx := ssl.cipherCtxNew.map (attempts [ssl.decryptInit, ssl.setIvLength kIvLen,
    ssl.decryptInitKey aesKey iv])
  let (cctx, written) := match cctx.bind (ssl.decryptUpdate ct (.ofNat ct.length)) with
    | some (cctx, written) => (some cctx, written)
    | none => (cctx, [])
  (cctx.map (attempt (ssl.setTag tag)), written)

def gcmDecrypt (aesKey iv ct tag : Bytes) : Option Bytes :=
  let (cctx, written) := gcmUpdate ssl aesKey iv ct tag
  (cctx.bind ssl.decryptFinal).map fun rest =>
    overwrite (List.replicate ct.length 0) (written ++ rest)

/-- The EC keys are in `ecKeys`. The result is missing if a slice of the payload is out of range. -/
def eciesDecrypt (ecKeys : CkHandle → Option Bytes) (ikHandle : CkHandle) (payload : Bytes) :
    Option (Option Bytes) :=
  if payload.length < kPubLen + kIvLen + kTagLen then some none
  else
    match ecKeys ikHandle with
    | none => some none
    | some der =>
      match ssl.d2iPrivateKey der with
      | none => some none
      | some devPriv => do
        let point ← subspan payload 0 kPubLen
        match loadEphemeral ssl point with
        | none => return none
        | some ephemPub =>
          let aesKey := deriveKey ssl (deriveShared ssl devPriv ephemPub)
          let iv ← subspan payload kPubLen kIvLen
          let body ← subspan payload (kPubLen + kIvLen) (payload.length - (kPubLen + kIvLen))
          if body.length < kTagLen then return none
          let ct ← subspan body 0 (body.length - kTagLen)
          let tag ← subspan body (body.length - kTagLen) kTagLen
          return gcmDecrypt ssl aesKey iv ct tag

def checkedEphemeral (point : Bytes) : Option ssl.Pkey := do
  let grp ← ssl.ecGroupNew
  let pt ← ssl.ecPointNew grp
  let pt ← ssl.ecPointOct2point grp point ssl.bnCtxNew pt
  let ecKey ← ssl.ecKeyNew
  let ecKey ← succeed [ssl.ecKeySetGroup grp, ssl.ecKeySetPublicKey pt] ecKey
  let pkey ← ssl.evpPkeyNew
  ssl.evpPkeySet1EcKey ecKey pkey

def checkedShared (devPriv : ssl.PrivKey) (ephemPub : ssl.Pkey) : Option Bytes := do
  let dhCtx ← ssl.dhCtxNew devPriv
  let dhCtx ← succeed [ssl.deriveInit, ssl.deriveSetPeer ephemPub] dhCtx
  let secretLen ← ssl.deriveLength dhCtx
  ssl.derive dhCtx secretLen

def checkedKey (shared : Bytes) : Option Bytes := do
  let hkdfCtx ← ssl.hkdfCtxNew
  let hkdfCtx ← succeed [ssl.hkdfDeriveInit, ssl.setHkdfMd,
    ssl.set1HkdfKey shared (.ofNat shared.length), ssl.set1HkdfSalt [], ssl.add1HkdfInfo kInfo]
    hkdfCtx
  let key ← ssl.hkdfDerive hkdfCtx 32
  return key.toList

/-- The calls up to the check of the tag. -/
def checkedUpdate (aesKey iv ct tag : Bytes) : Option (ssl.CipherCtx × Bytes) := do
  let cctx ← ssl.cipherCtxNew
  let cctx ← succeed [ssl.decryptInit, ssl.setIvLength kIvLen, ssl.decryptInitKey aesKey iv] cctx
  let (cctx, written) ← ssl.decryptUpdate ct (.ofNat ct.length) cctx
  let cctx ← ssl.setTag tag cctx
  return (cctx, written)

def pubPart (payload : Bytes) : Bytes := payload.take kPubLen
def ivPart (payload : Bytes) : Bytes := (payload.drop kPubLen).take kIvLen
def body (payload : Bytes) : Bytes := payload.drop (kPubLen + kIvLen)
def ctPart (payload : Bytes) : Bytes := (body payload).take ((body payload).length - kTagLen)
def tagPart (payload : Bytes) : Bytes := (body payload).drop ((body payload).length - kTagLen)

/-- Decryption in which every step is checked. -/
def eciesChecked (ecKeys : CkHandle → Option Bytes) (ikHandle : CkHandle) (payload : Bytes) :
    Option Bytes :=
  if payload.length < kPubLen + kIvLen + kTagLen then none
  else do
    let der ← ecKeys ikHandle
    let devPriv ← ssl.d2iPrivateKey der
    let ephemPub ← checkedEphemeral ssl (pubPart payload)
    let shared ← checkedShared ssl devPriv ephemPub
    let aesKey ← checkedKey ssl shared
    let (cctx, written) ← checkedUpdate ssl aesKey (ivPart payload) (ctPart payload)
      (tagPart payload)
    let rest ← ssl.decryptFinal cctx
    return overwrite (List.replicate (ctPart payload).length 0) (written ++ rest)

/-- A plaintext comes out only if every step has succeeded, and no slice is out of range. -/
def FailsClosed (ecKeys : CkHandle → Option Bytes) (ikHandle : CkHandle) (payload : Bytes) : Prop :=
  ∃ result, eciesDecrypt ssl ecKeys ikHandle payload = some result ∧
    ∀ plaintext, result = some plaintext →
      eciesChecked ssl ecKeys ikHandle payload = some plaintext

/-- The calls succeed whose results the code does not look at. -/
def CallsSucceed (devPriv : ssl.PrivKey) (payload : Bytes) : Prop :=
  ∃ ephemPub shared aesKey, checkedEphemeral ssl (pubPart payload) = some ephemPub ∧
    checkedShared ssl devPriv ephemPub = some shared ∧ checkedKey ssl shared = some aesKey ∧
    (checkedUpdate ssl aesKey (ivPart payload) (ctPart payload) (tagPart payload)).isSome

/-- OpenSSL accepts the tag of the payload under a key. -/
def TagAccepted (aesKey payload : Bytes) : Prop :=
  ((gcmUpdate ssl aesKey (ivPart payload) (ctPart payload) (tagPart payload)).1.bind
    ssl.decryptFinal).isSome

/-- If a call fails unnoticed, the tag is refused under the key that is there then. -/
def Guarded (ecKeys : CkHandle → Option Bytes) (ikHandle : CkHandle) (payload : Bytes) : Prop :=
  ∀ der devPriv ephemPub, kPubLen + kIvLen + kTagLen ≤ payload.length →
    ecKeys ikHandle = some der → ssl.d2iPrivateKey der = some devPriv →
    loadEphemeral ssl (pubPart payload) = some ephemPub →
    CallsSucceed ssl devPriv payload ∨
      ¬ TagAccepted ssl (deriveKey ssl (deriveShared ssl devPriv ephemPub)) payload

variable {ssl : Evp}

theorem loadEphemeral_of_checked {point : Bytes} {ephemPub : ssl.Pkey}
    (h : checkedEphemeral ssl point = some ephemPub) : loadEphemeral ssl point = some ephemPub := by
  simp only [checkedEphemeral, Option.bind_eq_bind, Option.bind_eq_some_iff] at h
  obtain ⟨grp, hgrp, pt, hpt, pt', hoct, key, hkey, key', hset, pkey, hpkey, hload⟩ := h
  simp only [loadEphemeral, hgrp, hpt, hkey, hpkey, Option.bind_some, Option.map_some]
  rw [attempt_of_some hoct, attempts_of_succeed hset, attempt_of_some hload]

theorem deriveShared_of_checked {devPriv : ssl.PrivKey} {ephemPub : ssl.Pkey} {shared : Bytes}
    (h : checkedShared ssl devPriv ephemPub = some shared) :
    deriveShared ssl devPriv ephemPub = shared := by
  simp only [checkedShared, Option.bind_eq_bind, Option.bind_eq_some_iff] at h
  obtain ⟨ctx, hctx, ctx', hset, len, hlen, hderive⟩ := h
  simp only [deriveShared, hctx, Option.map_some, Option.bind_some]
  rw [attempts_of_succeed hset, hlen, Option.getD_some, hderive, Option.getD_some]

theorem deriveKey_of_checked {shared aesKey : Bytes} (h : checkedKey ssl shared = some aesKey) :
    deriveKey ssl shared = aesKey := by
  simp only [checkedKey, Option.bind_eq_bind, Option.bind_eq_some_iff] at h
  obtain ⟨ctx, hctx, ctx', hset, key, hderive, hkey⟩ := h
  simp only [deriveKey, hctx, Option.map_some, Option.bind_some]
  rw [attempts_of_succeed hset, hderive]
  exact Option.some.inj hkey

theorem gcmUpdate_of_checked {aesKey iv ct tag written : Bytes} {cctx : ssl.CipherCtx}
    (h : checkedUpdate ssl aesKey iv ct tag = some (cctx, written)) :
    gcmUpdate ssl aesKey iv ct tag = (some cctx, written) := by
  simp only [checkedUpdate, Option.bind_eq_bind, Option.bind_eq_some_iff] at h
  obtain ⟨ctx, hctx, ctx', hset, ⟨ctx'', w⟩, hupdate, ctx''', htag, hw⟩ := h
  obtain ⟨rfl, rfl⟩ := Prod.mk.inj (Option.some.inj hw)
  simp only [gcmUpdate, hctx, Option.map_some, Option.bind_some]
  rw [attempts_of_succeed hset, hupdate]
  simp only [Option.map_some, attempt_of_some htag]

theorem gcmDecrypt_of_checked {aesKey iv ct tag written : Bytes} {cctx : ssl.CipherCtx}
    (h : checkedUpdate ssl aesKey iv ct tag = some (cctx, written)) :
    gcmDecrypt ssl aesKey iv ct tag = (ssl.decryptFinal cctx).map fun rest =>
      overwrite (List.replicate ct.length 0) (written ++ rest) := by
  simp only [gcmDecrypt, gcmUpdate_of_checked h, Option.bind_some]

variable {ecKeys : CkHandle → Option Bytes} {ikHandle : CkHandle} {payload : Bytes}

theorem subspan_of_le {s : Bytes} {offset count : ℕ} (h : offset + count ≤ s.length) :
    subspan s offset count = some ((s.drop offset).take count) := if_pos h

theorem eciesDecrypt_of_short (h : payload.length < kPubLen + kIvLen + kTagLen) :
    eciesDecrypt ssl ecKeys ikHandle payload = some none := if_pos h

/-- No slice of a long payload is out of range. -/
theorem eciesDecrypt_of_long (h : kPubLen + kIvLen + kTagLen ≤ payload.length) :
    eciesDecrypt ssl ecKeys ikHandle payload = some (do
      let der ← ecKeys ikHandle
      let devPriv ← ssl.d2iPrivateKey der
      let ephemPub ← loadEphemeral ssl (pubPart payload)
      gcmDecrypt ssl (deriveKey ssl (deriveShared ssl devPriv ephemPub)) (ivPart payload)
        (ctPart payload) (tagPart payload)) := by
  have hlen : (body payload).length = payload.length - (kPubLen + kIvLen) := by
    rw [body, List.length_drop]
  have hpub : subspan payload 0 kPubLen = some (pubPart payload) := subspan_of_le (by omega)
  have hiv : subspan payload kPubLen kIvLen = some (ivPart payload) := subspan_of_le (by omega)
  have hbody : subspan payload (kPubLen + kIvLen) (payload.length - (kPubLen + kIvLen)) =
      some (body payload) := by
    rw [subspan_of_le (by omega), ← List.length_drop, List.take_length, body]
  have hct : subspan (body payload) 0 ((body payload).length - kTagLen) = some (ctPart payload) :=
    subspan_of_le (by omega)
  have htag : subspan (body payload) ((body payload).length - kTagLen) kTagLen =
      some (tagPart payload) := by
    rw [subspan_of_le (by omega), List.take_of_length_le, tagPart]
    rw [List.length_drop]
    omega
  rw [eciesDecrypt, if_neg (by omega)]
  cases ecKeys ikHandle with
  | none => rfl
  | some der =>
    cases hpriv : ssl.d2iPrivateKey der with
    | none => simp only [hpriv, Option.bind_eq_bind, Option.bind_some, Option.bind_none]
    | some devPriv =>
      cases hload : loadEphemeral ssl (pubPart payload) with
      | none =>
        simp only [hpriv, hpub, hload, Option.bind_eq_bind, Option.bind_some, Option.bind_none]
        rfl
      | some ephemPub =>
        have hnot : ¬ (body payload).length < kTagLen := by omega
        simp only [hpriv, hpub, hload, hiv, hbody, hct, htag, Option.bind_eq_bind,
          Option.bind_some, if_neg hnot]
        rfl

theorem eciesDecrypt_isSome : (eciesDecrypt ssl ecKeys ikHandle payload).isSome := by
  by_cases h : kPubLen + kIvLen + kTagLen ≤ payload.length
  · rw [eciesDecrypt_of_long h, Option.isSome_some]
  · rw [eciesDecrypt_of_short (by omega), Option.isSome_some]

/-- A plaintext comes out after all steps that are checked. -/
theorem eciesDecrypt_eq_some_iff {plaintext : Bytes} :
    eciesDecrypt ssl ecKeys ikHandle payload = some (some plaintext) ↔
      kPubLen + kIvLen + kTagLen ≤ payload.length ∧ ∃ der devPriv ephemPub,
        ecKeys ikHandle = some der ∧ ssl.d2iPrivateKey der = some devPriv ∧
          loadEphemeral ssl (pubPart payload) = some ephemPub ∧
          gcmDecrypt ssl (deriveKey ssl (deriveShared ssl devPriv ephemPub)) (ivPart payload)
            (ctPart payload) (tagPart payload) = some plaintext := by
  by_cases h : kPubLen + kIvLen + kTagLen ≤ payload.length
  · rw [eciesDecrypt_of_long h, Option.some_inj]
    simp only [Option.bind_eq_bind, Option.bind_eq_some_iff, h, true_and]
    constructor
    · rintro ⟨der, hder, devPriv, hpriv, ephemPub, hload, hpt⟩
      exact ⟨der, devPriv, ephemPub, hder, hpriv, hload, hpt⟩
    · rintro ⟨der, devPriv, ephemPub, hder, hpriv, hload, hpt⟩
      exact ⟨der, hder, devPriv, hpriv, ephemPub, hload, hpt⟩
  · rw [eciesDecrypt_of_short (by omega)]
    constructor
    · intro hnone
      exact absurd hnone (by simp)
    · rintro ⟨hlong, -⟩
      exact absurd hlong h

/-- A plaintext comes out of the checked decryption after all steps. -/
theorem eciesChecked_eq_some_iff {plaintext : Bytes} :
    eciesChecked ssl ecKeys ikHandle payload = some plaintext ↔
      kPubLen + kIvLen + kTagLen ≤ payload.length ∧ ∃ der devPriv ephemPub,
        ecKeys ikHandle = some der ∧ ssl.d2iPrivateKey der = some devPriv ∧
          loadEphemeral ssl (pubPart payload) = some ephemPub ∧
          CallsSucceed ssl devPriv payload ∧
          gcmDecrypt ssl (deriveKey ssl (deriveShared ssl devPriv ephemPub)) (ivPart payload)
            (ctPart payload) (tagPart payload) = some plaintext := by
  by_cases hshort : payload.length < kPubLen + kIvLen + kTagLen
  · rw [eciesChecked, if_pos hshort]
    constructor
    · intro hnone
      exact absurd hnone (by simp)
    · rintro ⟨hlong, -⟩
      omega
  simp only [eciesChecked, if_neg hshort, Option.bind_eq_bind, Option.bind_eq_some_iff]
  constructor
  · rintro ⟨der, hder, devPriv, hpriv, ephemPub, hephem, shared, hshared, aesKey,
      hkey, ⟨cctx, written⟩, hupdate, rest, hfinal, hpt⟩
    have hcalls : CallsSucceed ssl devPriv payload :=
      ⟨ephemPub, shared, aesKey, hephem, hshared, hkey, Option.isSome_of_eq_some hupdate⟩
    refine ⟨by omega, der, devPriv, ephemPub, hder, hpriv, loadEphemeral_of_checked hephem,
      hcalls, ?_⟩
    rw [deriveShared_of_checked hshared, deriveKey_of_checked hkey,
      gcmDecrypt_of_checked hupdate, hfinal]
    exact hpt
  · rintro ⟨-, der, devPriv, ephemPub, hder, hpriv, hload, hcalls, hpt⟩
    obtain ⟨ephemPub', shared, aesKey, hephem, hshared, hkey, hcontext⟩ := hcalls
    obtain ⟨⟨cctx, written⟩, hupdate⟩ := Option.isSome_iff_exists.mp hcontext
    obtain rfl : ephemPub' = ephemPub :=
      Option.some.inj ((loadEphemeral_of_checked hephem).symm.trans hload)
    rw [deriveShared_of_checked hshared, deriveKey_of_checked hkey,
      gcmDecrypt_of_checked hupdate] at hpt
    obtain ⟨rest, hfinal, hrest⟩ := Option.map_eq_some_iff.mp hpt
    exact ⟨der, hder, devPriv, hpriv, ephemPub', hephem, shared, hshared,
      aesKey, hkey, (cctx, written), hupdate, rest, hfinal, congrArg some hrest⟩

theorem tagAccepted_iff {aesKey : Bytes} :
    TagAccepted ssl aesKey payload ↔ ∃ plaintext,
      gcmDecrypt ssl aesKey (ivPart payload) (ctPart payload) (tagPart payload) =
        some plaintext := by
  rw [TagAccepted, ← Option.isSome_iff_exists, gcmDecrypt, Option.isSome_map]

/-- The code fails closed exactly if the tag is refused whenever a call fails unnoticed. -/
theorem failsClosed_iff_guarded :
    FailsClosed ssl ecKeys ikHandle payload ↔ Guarded ssl ecKeys ikHandle payload := by
  constructor
  · rintro ⟨result, hrun, hclosed⟩ der devPriv ephemPub hlong hder hpriv hload
    by_cases htag : TagAccepted ssl (deriveKey ssl (deriveShared ssl devPriv ephemPub)) payload
    · obtain ⟨plaintext, hpt⟩ := tagAccepted_iff.mp htag
      have hout := eciesDecrypt_eq_some_iff.mpr
        ⟨hlong, der, devPriv, ephemPub, hder, hpriv, hload, hpt⟩
      have hresult : result = some plaintext := Option.some.inj (hrun.symm.trans hout)
      obtain ⟨-, der', devPriv', -, hder', hpriv', -, hcalls, -⟩ :=
        eciesChecked_eq_some_iff.mp (hclosed plaintext hresult)
      obtain rfl : der' = der := Option.some.inj (hder'.symm.trans hder)
      obtain rfl : devPriv' = devPriv := Option.some.inj (hpriv'.symm.trans hpriv)
      exact Or.inl hcalls
    · exact Or.inr htag
  · intro hguarded
    have hsome : (eciesDecrypt ssl ecKeys ikHandle payload).isSome := eciesDecrypt_isSome
    obtain ⟨result, hrun⟩ := Option.isSome_iff_exists.mp hsome
    refine ⟨result, hrun, ?_⟩
    rintro plaintext rfl
    obtain ⟨hlong, der, devPriv, ephemPub, hder, hpriv, hload, hpt⟩ :=
      eciesDecrypt_eq_some_iff.mp hrun
    obtain hcalls | hrefused := hguarded der devPriv ephemPub hlong hder hpriv hload
    · exact eciesChecked_eq_some_iff.mpr
        ⟨hlong, der, devPriv, ephemPub, hder, hpriv, hload, hcalls, hpt⟩
    · exact absurd (tagAccepted_iff.mpr ⟨plaintext, hpt⟩) hrefused

/-- A toy of OpenSSL with a point, a public key or a secret in each object. An octet string that
does not begin with 4 is no point, and the point that is left at infinity is no peer. -/
def toySsl : Evp where
  PrivKey := Unit
  Group := Unit
  Point := Option Bytes
  BnCtx := Unit
  EcKey := Option Bytes
  Pkey := Option Bytes
  DhCtx := Option Bytes
  HkdfCtx := Option Bytes
  CipherCtx := Bytes × Bytes
  d2iPrivateKey _ := some ()
  ecGroupNew := some ()
  ecPointNew _ := some none
  bnCtxNew := some ()
  ecPointOct2point _ octets _ _ := if octets.head? = some 4 then some (some octets) else none
  ecKeyNew := some none
  ecKeySetGroup _ key := some key
  ecKeySetPublicKey pt _ := some pt
  evpPkeyNew := some none
  evpPkeySet1EcKey key _ := some key
  dhCtxNew _ := some none
  deriveInit := some
  deriveSetPeer pkey _ := pkey.map some
  deriveLength ctx := ctx.map fun _ => 48
  derive ctx n := ctx.map (List.take n)
  hkdfCtxNew := some none
  hkdfDeriveInit := some
  setHkdfMd := some
  set1HkdfKey key _ _ := if key = [] then none else some (some key)
  set1HkdfSalt _ := some
  add1HkdfInfo _ := some
  hkdfDerive ctx n := ctx.map fun key => Vector.ofFn fun i : Fin n => key.getD i 0
  cipherCtxNew := some ([], [])
  decryptInit := some
  setIvLength _ := some
  decryptInitKey key _ _ := some (key, [])
  decryptUpdate data _ ctx := some (ctx, List.zipWith (· ^^^ ·) data ctx.1)
  setTag tag ctx := some (ctx.1, tag)
  decryptFinal ctx := if ctx.2 = ctx.1.take 16 then some [] else none

/-- The sender key is no point, and the tag is that of the key of zeros. -/
def pointlessPayload : Bytes :=
  List.replicate 97 0 ++ List.replicate 12 0 ++ [1, 2, 3] ++ List.replicate 16 0

/-- The message opens under the key that is left behind. -/
theorem not_failsClosed : ¬ ∀ (ssl : Evp) (ecKeys : CkHandle → Option Bytes) (ikHandle : CkHandle)
    (payload : Bytes), FailsClosed ssl ecKeys ikHandle payload := by
  intro hall
  obtain ⟨result, hrun, hclosed⟩ := hall toySsl (fun _ => some []) 1 pointlessPayload
  have hopened : eciesDecrypt toySsl (fun _ => some []) 1 pointlessPayload =
      some (some [1, 2, 3]) := by decide +kernel
  have hchecked : eciesChecked toySsl (fun _ => some []) 1 pointlessPayload = none := by
    decide +kernel
  have hresult : result = some [1, 2, 3] := Option.some.inj (hrun.symm.trans hopened)
  have hsome := hclosed [1, 2, 3] hresult
  rw [hchecked] at hsome
  exact absurd hsome (by simp)

end SoftHsm
end Cirradio.Security
