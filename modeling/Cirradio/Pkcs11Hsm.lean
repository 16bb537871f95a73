import Cirradio.EciesDecrypt
import Cirradio.HsmEngine
import Cirradio.Pkcs11

/-!
# A session on a token

`Pkcs11Hsm` makes its calls in one session. What its derived class does not override it has in
common with it. A call leaves the objects of the token and its active operation as they were, but
for the keys that it is to create or destroy.
-/

namespace Cirradio.Security
open Pkcs11 UncheckedCalls

universe u

/-- An instance apart from the token, with the members of its class. -/
structure HsmSession (μ : Type) where
  /-- Zero after a shutdown. -/
  session : SessionHandle
  /-- What `RAND_bytes` will draw for the IVs, nothing where it fails. -/
  ivs : ℕ → Option (RandBytes 12)
  members : μ

structure Pkcs11Hsm (μ : Type) (τ : Type u) extends HsmSession μ where
  token : τ

namespace Pkcs11Hsm
variable {μ : Type} {τ : Type u} (C : Cryptoki τ)

def kIvLen : ℕ := 12
def kTagLen : ℕ := 16
def kKeyLen : ℕ := 32

/-- The attributes that all templates of AES keys end with. -/
def usage (sensitive : Bool) : Template :=
  [.token false, .sensitive sensitive, .extractable true, .encrypt true, .decrypt true,
    .wrap true, .unwrap true]

def generateTemplate (sensitive : Bool) : Template :=
  [.keyType .aes, .valueLen kKeyLen] ++ usage sensitive

def unwrapTemplate (sensitive : Bool) : Template :=
  [.objectClass .secretKey, .keyType .aes] ++ usage sensitive

/-- A session of the user on the token, which the constructors of both classes end with. -/
def openUserSession (user : String) (members : μ) (ivs : ℕ → Option (RandBytes 12)) (t : τ) :
    τ × Throws (HsmSession μ) :=
  let (t, rv, session) := C.openSession t
  if rv ≠ ckrOk then (t, .error ("C_OpenSession" ++ user ++ " rv=" ++ toString rv))
  else
    let (t, rv) := C.login t session
    if rv ≠ ckrOk ∧ rv ≠ ckrUserAlreadyLoggedIn then
      (t, .error ("C_Login" ++ user ++ " rv=" ++ toString rv))
    else (t, .ok ⟨session, ivs, members⟩)

/-- `generate_key` of either class, with the text of its error. -/
def generateKeyWith (text : String) (sensitive : Bool) (s : Pkcs11Hsm μ τ) :
    Pkcs11Hsm μ τ × Throws CkHandle :=
  let (token, rv, kh) := C.generateKey s.token s.session (generateTemplate sensitive)
  ({ s with token }, if rv ≠ ckrOk then .error (text ++ toString rv) else .ok kh)

/-- `unwrap_key` of either class. -/
def unwrapKeyWith (sensitive : Bool) (s : Pkcs11Hsm μ τ) (wrappingKey : CkHandle)
    (wrapped : Bytes) : Pkcs11Hsm μ τ × Throws (Option CkHandle) :=
  let (token, rv, newKey) :=
    C.unwrapKey s.token s.session wrappingKey wrapped (unwrapTemplate sensitive)
  ({ s with token }, .ok (if rv ≠ ckrOk then none else some newKey))

/-- `encrypt` once the IV is drawn. -/
def encryptWith (s : Pkcs11Hsm μ τ) (kh : CkHandle) (plaintext : Bytes) (iv : RandBytes 12) :
    Pkcs11Hsm μ τ × Throws (Option Bytes) :=
  let (token, rv) := C.encryptInit s.token s.session iv.toList kh
  let s := { s with token }
  if rv ≠ ckrOk then (s, .ok none)
  else
    let (token, rv, ct) := C.encrypt s.token s.session plaintext (plaintext.length + kTagLen)
    let s := { s with token }
    if rv ≠ ckrOk then (s, .ok none) else (s, .ok (some (iv.toList ++ ct)))

def encrypt (s : Pkcs11Hsm μ τ) (kh : CkHandle) (plaintext : Bytes) :
    Pkcs11Hsm μ τ × Throws (Option Bytes) :=
  let drawn := s.ivs 0
  let s := { s with ivs := fun n => s.ivs (n + 1) }
  match drawn with
  | none => (s, .ok none)
  | some iv => encryptWith C s kh plaintext iv

/-- `decrypt` of the ciphertext with the tag. -/
def decryptWith (s : Pkcs11Hsm μ τ) (kh : CkHandle) (iv ctTag : Bytes) :
    Pkcs11Hsm μ τ × Throws (Option Bytes) :=
  let (token, rv) := C.decryptInit s.token s.session iv kh
  let s := { s with token }
  if rv ≠ ckrOk then (s, .ok none)
  else
    let (token, rv, plaintext) := C.decrypt s.token s.session ctTag ctTag.length
    let s := { s with token }
    if rv ≠ ckrOk then (s, .ok none) else (s, .ok (some plaintext))

def decrypt (s : Pkcs11Hsm μ τ) (kh : CkHandle) (ciphertext : Bytes) :
    Pkcs11Hsm μ τ × Throws (Option Bytes) :=
  if ciphertext.length < kIvLen + kTagLen then (s, .ok none)
  else decryptWith C s kh (ciphertext.take kIvLen) (ciphertext.drop kIvLen)

def wrapKey (s : Pkcs11Hsm μ τ) (wrappingKey keyToWrap : CkHandle) :
    Pkcs11Hsm μ τ × Throws (Option Bytes) :=
  let (token, rv, wrappedLen) := C.wrapKeyLength s.token s.session wrappingKey keyToWrap
  let s := { s with token }
  if rv ≠ ckrOk then (s, .ok none)
  else
    let (token, rv, wrapped) := C.wrapKey s.token s.session wrappingKey keyToWrap wrappedLen
    let s := { s with token }
    if rv ≠ ckrOk then (s, .ok none) else (s, .ok (some wrapped))

/-- `destroy_key` of an instance with its function list that is not finalized. -/
def destroyObject (s : Pkcs11Hsm μ τ) (kh : CkHandle) : Pkcs11Hsm μ τ × Bool :=
  let (token, rv) := C.destroyObject s.token s.session kh
  ({ s with token }, rv = ckrOk)

variable {C}

section Sessions
variable {T : Token C} {user : String} {members : μ} {ivs : ℕ → Option (RandBytes 12)} {t t' : τ}

/-- A construction that fails may leave a session open. -/
theorem openUserSession_error {e : String}
    (h : openUserSession C user members ivs t = (t', .error e)) : T.view t' = T.view t ∨
      ∃ s, s ≠ 0 ∧ (T.view t).isOpen s = false ∧ T.view t' = (T.view t).opened s := by
  have hopen := T.openSession t
  unfold openUserSession at h
  generalize C.openSession t = r at hopen h
  obtain ⟨t₁, rv, s⟩ := r
  dsimp only at h
  obtain ⟨hrv, hview⟩ | ⟨hrv, hne, hclosed, hview⟩ := hopen
  · rw [if_pos hrv] at h
    cases h
    exact .inl hview
  · rw [if_neg (not_not_intro hrv)] at h
    split at h
    · rename_i hfailed
      cases h
      obtain ⟨-, hsame, -⟩ | ⟨hok, -⟩ := T.login t₁ s
      · exact .inr ⟨s, hne, hclosed, hsame.trans hview⟩
      · exact absurd hok hfailed.1
    · cases h

theorem openUserSession_ok {session : HsmSession μ}
    (h : openUserSession C user members ivs t = (t', .ok session)) : session.session ≠ 0 ∧
      session.members = members ∧ (T.view t).isOpen session.session = false ∧
      T.view t' = { (T.view t).opened session.session with loggedIn := true } := by
  have hopen := T.openSession t
  unfold openUserSession at h
  generalize C.openSession t = r at hopen h
  obtain ⟨t₁, rv, s⟩ := r
  dsimp only at h
  obtain ⟨hrv, -⟩ | ⟨hrv, hne, hclosed, hview⟩ := hopen
  · rw [if_pos hrv] at h
    cases h
  · have hview : T.view t₁ = (T.view t).opened s := hview
    rw [if_neg (not_not_intro hrv)] at h
    split at h
    · cases h
    · rename_i hin
      cases h
      refine ⟨hne, rfl, hclosed, ?_⟩
      obtain ⟨hfailed, hsame, halready⟩ | ⟨-, hdone⟩ := T.login t₁ s
      · have hlogin : (T.view t₁).loggedIn = true :=
          halready (not_not.mp fun hother => hin ⟨hfailed, hother⟩)
        have heta : T.view t₁ = { T.view t₁ with loggedIn := true } := by
          rw [← hlogin]
        exact (hsame.trans heta).trans (hview ▸ rfl)
      · exact hdone.trans (hview ▸ rfl)

end Sessions

variable (T : Token C) (s s' : Pkcs11Hsm μ τ)

/-- What can be seen of the token. -/
def view : View := T.view s.token

/-- Of the instance only the IVs to come may have changed. -/
structure Continues : Prop where
  session : s'.session = s.session
  members : s'.members = s.members

/-- A call in the session that creates a key with one of the values, and hands out its handle, or
leaves the token as it is. -/
structure Created (template : Template) (values : Bytes → Prop) (handle : Option CkHandle) :
    Prop where
  continues : Continues s s'
  outcome : handle = none ∧ s'.view T = s.view T ∨
    ∃ h value, handle = some h ∧ h ≠ 0 ∧ h ∉ (s.view T).used ∧ values value ∧
      (s.view T).Usable T.isPrivate s.session ∧
      s'.view T = (s.view T).create h ⟨value, template, s.session⟩

variable {T s s'}

theorem created_of_creates {template : Template} {values : Bytes → Prop} {t' : τ} {rv : CkRv}
    {h : ObjectHandle} {handle : Option CkHandle}
    (hc : (s.view T).Creates T.isPrivate s.session template values (T.view t') rv h)
    (hfailed : rv ≠ ckrOk → handle = none) (hok : rv = ckrOk → handle = some h) :
    Created T s { s with token := t' } template values handle := by
  refine ⟨⟨rfl, rfl⟩, ?_⟩
  obtain ⟨hrv, hview⟩ | ⟨hrv, husable, hne, hfresh, value, hvalue, hview⟩ := hc
  · exact .inl ⟨hfailed hrv, hview⟩
  · exact .inr ⟨h, value, hok hrv, hne, hfresh, hvalue, husable, hview⟩

variable (T s)

theorem generateKeyWith_created (text : String) (sensitive : Bool) :
    Created T s (generateKeyWith C text sensitive s).1 (generateTemplate sensitive)
      (fun value => value.length = kKeyLen) (generateKeyWith C text sensitive s).2.toOption := by
  have hc := (T.generateKey s.token s.session (generateTemplate sensitive)).imp
    fun value hvalue => hvalue kKeyLen (by simp [generateTemplate])
  apply created_of_creates hc
  · intro hrv
    simp only [generateKeyWith, if_pos hrv]
    rfl
  · intro hrv
    simp only [generateKeyWith, hrv, ne_eq, not_true_eq_false, if_false]
    rfl

theorem unwrapKeyWith_created (sensitive : Bool) (kek : CkHandle) (wrapped : Bytes) :
    Created T s (unwrapKeyWith C sensitive s kek wrapped).1 (unwrapTemplate sensitive)
      (fun value => ∃ k, (s.view T).key kek = some k ∧ T.unwrap k.value wrapped = some value)
      (unwrapKeyWith C sensitive s kek wrapped).2.handle := by
  apply created_of_creates (T.unwrapKey s.token s.session kek wrapped (unwrapTemplate sensitive))
  · intro hrv
    exact if_pos hrv
  · intro hrv
    exact if_neg (not_not_intro hrv)

theorem destroyObject_view (kh : CkHandle) : Continues s (destroyObject C s kh).1 ∧
    ((destroyObject C s kh).2 = false ∧ (destroyObject C s kh).1.view T = s.view T ∨
      (destroyObject C s kh).2 = true ∧
        (destroyObject C s kh).1.view T = (s.view T).destroy kh) := by
  refine ⟨⟨rfl, rfl⟩, ?_⟩
  obtain ⟨hrv, hview⟩ | ⟨hrv, hview⟩ := T.destroyObject s.token s.session kh
  · exact .inl ⟨decide_eq_false hrv, hview⟩
  · exact .inr ⟨decide_eq_true hrv, hview⟩

theorem wrapKey_view (kek h : CkHandle) : Continues s (wrapKey C s kek h).1 ∧
    (wrapKey C s kek h).1.view T = s.view T := by
  have hlength := T.wrapKeyLength s.token s.session kek h
  unfold wrapKey
  generalize C.wrapKeyLength s.token s.session kek h = r at hlength ⊢
  obtain ⟨t, rv, n⟩ := r
  have hwrapped := T.wrapKey t s.session kek h n
  dsimp only
  split
  · exact ⟨⟨rfl, rfl⟩, hlength⟩
  · split
    · exact ⟨⟨rfl, rfl⟩, hwrapped.trans hlength⟩
    · exact ⟨⟨rfl, rfl⟩, hwrapped.trans hlength⟩

/-- An encryption that starts ends, and what it gives decrypts. -/
structure Encrypts (kh : CkHandle) (plaintext : Bytes) (r : Pkcs11Hsm μ τ × Throws (Option Bytes)) :
    Prop where
  continues : Continues s r.1
  view : r.1.view T = s.view T ∨
    ∃ op, r.1.view T = ((s.view T).setActive s.session op).setActive s.session none
  sealed {ciphertext : Bytes} : r.2 = .ok (some ciphertext) →
    ∃ (iv : RandBytes 12) (ct : Bytes) (k : Key), ciphertext = iv.toList ++ ct ∧
      (s.view T).key kh = some k ∧ ct.length = plaintext.length + kTagLen ∧
      T.gcmOpen k.value iv.toList ct = some plaintext

/-- The buffer of the result is never too small, so the encryption ends. -/
theorem encryptWith_encrypts (kh : CkHandle) (plaintext : Bytes) (iv : RandBytes 12) :
    Encrypts T s kh plaintext (encryptWith C s kh plaintext iv) := by
  unfold encryptWith
  have hinit := T.encryptInit s.token s.session iv.toList kh
  generalize C.encryptInit s.token s.session iv.toList kh = r at hinit ⊢
  obtain ⟨t, rv⟩ := r
  obtain ⟨hrv, hview⟩ | ⟨hrv, -, k, hk, hview⟩ := hinit
  · dsimp only
    rw [if_pos hrv]
    exact ⟨⟨rfl, rfl⟩, .inl hview, fun hsome => by cases hsome⟩
  · have hactive : (T.view t).active s.session = some (.encrypt iv.toList k.value) := by
      rw [hview, View.setActive_active, Function.update_self]
    obtain ⟨-, hsmall⟩ | ⟨-, hended, hsealed⟩ :=
      T.encrypt plaintext (plaintext.length + kTagLen) hactive
    · exact absurd hsmall (lt_irrefl _)
    · rw [hview] at hended
      dsimp only
      rw [if_neg (not_not_intro hrv)]
      split
      · exact ⟨⟨rfl, rfl⟩, .inr ⟨_, hended⟩, fun hsome => by cases hsome⟩
      · rename_i hrv'
        obtain ⟨hlength, hopens⟩ := hsealed (not_not.mp hrv')
        refine ⟨⟨rfl, rfl⟩, .inr ⟨_, hended⟩, ?_⟩
        rintro ciphertext ⟨⟩
        exact ⟨iv, _, k, rfl, hk, hlength, hopens⟩

theorem encrypt_encrypts (kh : CkHandle) (plaintext : Bytes) :
    Encrypts T s kh plaintext (encrypt C s kh plaintext) := by
  unfold encrypt
  rcases s.ivs 0 with _ | iv
  · exact ⟨⟨rfl, rfl⟩, .inl rfl, fun hsome => by cases hsome⟩
  · obtain ⟨⟨hsession, hfinalized⟩, hview, hsealed⟩ :=
      encryptWith_encrypts T { s with ivs := fun n => s.ivs (n + 1) } kh plaintext iv
    exact ⟨⟨hsession, hfinalized⟩, hview, hsealed⟩

/-- The buffer of the result is never too small, so the decryption ends, and leaves nothing behind.
With a key that may be used for it, it gives what the cipher gives. -/
theorem decryptWith_pure (kh : CkHandle) (iv ctTag : Bytes) :
    ∃ plaintext, decryptWith C s kh iv ctTag = (s, .ok plaintext) ∧
      ∀ k, (s.view T).key kh = some k → (s.view T).Usable T.isPrivate s.session →
        (s.view T).active s.session = none → .decrypt true ∈ k.template → iv.length = 12 →
        plaintext = T.gcmOpen k.value iv ctTag := by
  have hends : (C.decryptInit s.token s.session iv kh).2 = ckrOk →
      (C.decrypt (C.decryptInit s.token s.session iv kh).1 s.session ctTag
        ctTag.length).2.1 ≠ ckrBufferTooSmall →
      (C.decrypt (C.decryptInit s.token s.session iv kh).1 s.session ctTag
        ctTag.length).1 = s.token := T.decrypt_ends ctTag ctTag.length
  have hallowed : ∀ k, (s.view T).key kh = some k → (s.view T).Usable T.isPrivate s.session →
      (s.view T).active s.session = none → .decrypt true ∈ k.template → iv.length = 12 →
      (C.decryptInit s.token s.session iv kh).2 = ckrOk :=
    fun k hk husable hidle htemplate hiv => T.decryptInit_ok husable hidle hk htemplate hiv
  have hinit := T.decryptInit s.token s.session iv kh
  unfold decryptWith
  generalize C.decryptInit s.token s.session iv kh = r at hinit hends hallowed ⊢
  obtain ⟨t, rv⟩ := r
  obtain ⟨hrv, ht⟩ | ⟨hrv, -, k, hk, hview⟩ := hinit
  · cases ht
    refine ⟨none, if_pos hrv, fun k hk husable hidle htemplate hiv => ?_⟩
    exact absurd (hallowed k hk husable hidle htemplate hiv) hrv
  · have hactive : (T.view t).active s.session = some (.decrypt iv k.value) := by
      rw [hview, View.setActive_active, Function.update_self]
    obtain ⟨-, hsmall⟩ | ⟨hfits, hok, hvalue⟩ := T.decrypt ctTag ctTag.length hactive
    · exact absurd hsmall (lt_irrefl _)
    · have ht : { s with token := (C.decrypt t s.session ctTag ctTag.length).1 } = s := by
        rw [hends hrv hfits]
      have hsame : ∀ k', (s.view T).key kh = some k' → k' = k :=
        fun k' hk' => Option.some.inj (hk'.symm.trans hk)
      dsimp only
      rw [if_neg (not_not_intro hrv)]
      split
      · rename_i hrv'
        refine ⟨none, congrArg (·, Except.ok none) ht, fun k' hk' _ _ _ _ => ?_⟩
        rw [hsame k' hk']
        exact (Option.not_isSome_iff_eq_none.mp (mt hok.mpr hrv')).symm
      · rename_i hrv'
        refine ⟨_, congrArg (·, Except.ok (some _)) ht, fun k' hk' _ _ _ _ => ?_⟩
        rw [hsame k' hk']
        exact (hvalue (not_not.mp hrv')).symm

include T in
theorem decrypt_pure (kh : CkHandle) (ciphertext : Bytes) :
    ∃ plaintext, decrypt C s kh ciphertext = (s, .ok plaintext) := by
  unfold decrypt
  split
  · exact ⟨none, rfl⟩
  · obtain ⟨plaintext, hcall, -⟩ :=
      decryptWith_pure T s kh (ciphertext.take kIvLen) (ciphertext.drop kIvLen)
    exact ⟨plaintext, hcall⟩

end Pkcs11Hsm
end Cirradio.Security
