import Mathlib.Data.Set.Insert
import Mathlib.Logic.Function.Basic
import Mathlib.Tactic.Simps.Basic

/-!
# A token with session keys

A Cryptoki library is known through its calls. `Token` states what they do to what can be seen of
a token: the keys that its sessions have created, the operation that is active in each session, and
the login, which all sessions share. A key lives no longer than the session that created it, and a
private key no longer than the login.
-/

namespace Cirradio.Pkcs11

universe u

abbrev CkRv := ℕ

def ckrOk : CkRv := 0
def ckrUserAlreadyLoggedIn : CkRv := 0x100
def ckrBufferTooSmall : CkRv := 0x150
def ckrCryptokiAlreadyInitialized : CkRv := 0x191

abbrev SessionHandle := ℕ
abbrev ObjectHandle := ℕ

/-- `CKA_CLASS`. -/
inductive ObjectClass where
  | secretKey
  | privateKey
  deriving DecidableEq, Repr

/-- `CKA_KEY_TYPE`. -/
inductive KeyType where
  | aes
  | ec
  | genericSecret
  deriving DecidableEq, Repr

inductive Attribute where
  | objectClass (c : ObjectClass)
  | keyType (t : KeyType)
  | valueLen (n : ℕ)
  | value (bytes : List UInt8)
  | token (b : Bool)
  | sensitive (b : Bool)
  | extractable (b : Bool)
  | encrypt (b : Bool)
  | decrypt (b : Bool)
  | wrap (b : Bool)
  | unwrap (b : Bool)
  | sign (b : Bool)
  | derive (b : Bool)
  | ecParams (oid : List UInt8)
  deriving DecidableEq, Repr

abbrev Template := List Attribute

/-- The value of such a key cannot be read. -/
def Template.Sensitive (template : Template) : Prop :=
  .sensitive true ∈ template ∧ .sensitive false ∉ template

instance (template : Template) : Decidable template.Sensitive := inferInstanceAs (Decidable (_ ∧ _))

/-- The calls of a library. Each gives the token afterwards and the return code. -/
structure Cryptoki (τ : Type u) where
  init : τ → τ × CkRv
  /-- The number of slots with a token, into an array of a size. -/
  getSlotList : τ → ℕ → τ × CkRv × ℕ
  openSession : τ → τ × CkRv × SessionHandle
  /-- With the PIN of the user. -/
  login : τ → SessionHandle → τ × CkRv
  logout : τ → SessionHandle → τ × CkRv
  closeSession : τ → SessionHandle → τ × CkRv
  generateKey : τ → SessionHandle → Template → τ × CkRv × ObjectHandle
  createObject : τ → SessionHandle → Template → τ × CkRv × ObjectHandle
  /-- The unwrapping key, then the wrapped key. -/
  unwrapKey : τ → SessionHandle → ObjectHandle → List UInt8 → Template → τ × CkRv × ObjectHandle
  /-- `CKM_ECDH1_DERIVE` with `CKD_NULL`: the private key, then the public data. -/
  deriveKey : τ → SessionHandle → ObjectHandle → List UInt8 → Template → τ × CkRv × ObjectHandle
  destroyObject : τ → SessionHandle → ObjectHandle → τ × CkRv
  /-- `C_WrapKey` without a buffer, the wrapping key first: the length of the result. -/
  wrapKeyLength : τ → SessionHandle → ObjectHandle → ObjectHandle → τ × CkRv × ℕ
  /-- Into a buffer of a size. -/
  wrapKey : τ → SessionHandle → ObjectHandle → ObjectHandle → ℕ → τ × CkRv × List UInt8
  /-- `C_GetAttributeValue` of `CKA_VALUE` without a buffer. -/
  getValueLength : τ → SessionHandle → ObjectHandle → τ × CkRv × ℕ
  getValue : τ → SessionHandle → ObjectHandle → ℕ → τ × CkRv × List UInt8
  /-- With AES-GCM: the IV, then the key. -/
  encryptInit : τ → SessionHandle → List UInt8 → ObjectHandle → τ × CkRv
  encrypt : τ → SessionHandle → List UInt8 → ℕ → τ × CkRv × List UInt8
  decryptInit : τ → SessionHandle → List UInt8 → ObjectHandle → τ × CkRv
  decrypt : τ → SessionHandle → List UInt8 → ℕ → τ × CkRv × List UInt8
  finalize : τ → τ × CkRv

structure Key where
  value : List UInt8
  template : Template
  /-- The session that created it. -/
  session : SessionHandle

/-- An operation has the IV and the value of the key. -/
inductive Operation where
  | encrypt (iv key : List UInt8)
  | decrypt (iv key : List UInt8)

/-- What can be seen of a token. -/
structure View where
  key : ObjectHandle → Option Key
  /-- The handles that were ever handed out. -/
  used : Set ObjectHandle
  isOpen : SessionHandle → Bool
  active : SessionHandle → Option Operation
  loggedIn : Bool

namespace View

@[simps] def create (v : View) (h : ObjectHandle) (k : Key) : View :=
  { v with key := Function.update v.key h (some k), used := insert h v.used }

@[simps] def destroy (v : View) (h : ObjectHandle) : View :=
  { v with key := Function.update v.key h none }

@[simps] def setActive (v : View) (s : SessionHandle) (op : Option Operation) : View :=
  { v with active := Function.update v.active s op }

@[simps] def opened (v : View) (s : SessionHandle) : View :=
  { v with isOpen := Function.update v.isOpen s true }

/-- After the end of a session. The login may end with the last of them. -/
@[simps] def closed (v : View) (s : SessionHandle) (loggedIn : Bool) : View :=
  { v with
    key h := (v.key h).filter (·.session ≠ s)
    isOpen := Function.update v.isOpen s false
    active := Function.update v.active s none
    loggedIn }

/-- After the end of the login. The private keys of all sessions are gone. -/
@[simps] def loggedOut (v : View) (isPrivate : Bool)
    (active : SessionHandle → Option Operation) : View :=
  { v with key := if isPrivate then fun _ => none else v.key, active, loggedIn := false }

/-- After the end of the library. -/
@[simps] def finalized (v : View) : View :=
  ⟨fun _ => none, v.used, fun _ => false, fun _ => none, false⟩

/-- A session in which the keys can be used. -/
def Usable (v : View) (isPrivate : Bool) (s : SessionHandle) : Prop :=
  v.isOpen s = true ∧ (isPrivate = true → v.loggedIn = true)

instance (v : View) (isPrivate : Bool) (s : SessionHandle) : Decidable (v.Usable isPrivate s) :=
  inferInstanceAs (Decidable (_ ∧ _))

/-- The call creates a key with one of the values, under a new handle, or fails. -/
def Creates (v : View) (isPrivate : Bool) (s : SessionHandle) (template : Template)
    (values : List UInt8 → Prop) (v' : View) (rv : CkRv) (h : ObjectHandle) : Prop :=
  rv ≠ ckrOk ∧ v' = v ∨
    rv = ckrOk ∧ v.Usable isPrivate s ∧ h ≠ 0 ∧ h ∉ v.used ∧
      ∃ value, values value ∧ v' = v.create h ⟨value, template, s⟩

/-- Keys are in open sessions, and private ones under a login. A closed session does nothing. -/
structure Sound (v : View) (isPrivate : Bool) : Prop where
  used {h : ObjectHandle} {k : Key} : v.key h = some k → h ∈ v.used
  session {h : ObjectHandle} {k : Key} : v.key h = some k → v.isOpen k.session = true
  authorized {h : ObjectHandle} {k : Key} : isPrivate = true → v.key h = some k → v.loggedIn = true
  idle {s : SessionHandle} : v.isOpen s = false → v.active s = none
  invalid : v.isOpen 0 = false

theorem Creates.imp {v v' : View} {isPrivate : Bool} {s : SessionHandle} {template : Template}
    {values values' : List UInt8 → Prop} {rv : CkRv} {h : ObjectHandle}
    (hvalues : ∀ value, values value → values' value)
    (hc : v.Creates isPrivate s template values v' rv h) :
    v.Creates isPrivate s template values' v' rv h := by
  obtain hfailed | ⟨hrv, husable, hne, hfresh, value, hvalue, hview⟩ := hc
  · exact .inl hfailed
  · exact .inr ⟨hrv, husable, hne, hfresh, value, hvalues value hvalue, hview⟩

theorem setActive_setActive_none {v : View} {s : SessionHandle} {op : Option Operation}
    (hidle : v.active s = none) : (v.setActive s op).setActive s none = v := by
  have hactive : Function.update (Function.update v.active s op) s none = v.active := by
    rw [Function.update_idem, ← hidle, Function.update_eq_self]
  exact congrArg (fun active => { v with active }) hactive

theorem create_destroy {v : View} {h : ObjectHandle} {k : Key} (hnone : v.key h = none) :
    (v.create h k).destroy h = { v with used := insert h v.used } := by
  have hkey : Function.update (Function.update v.key h (some k)) h none = v.key := by
    rw [Function.update_idem, ← hnone, Function.update_eq_self]
  exact congrArg (fun key => { v with key, used := insert h v.used }) hkey

namespace Sound
variable {v v' : View} {isPrivate : Bool} {s : SessionHandle} {h : ObjectHandle}

theorem creates (hv : v.Sound isPrivate) {template : Template} {values : List UInt8 → Prop}
    {rv : CkRv} (hc : v.Creates isPrivate s template values v' rv h) : v'.Sound isPrivate := by
  obtain ⟨-, rfl⟩ | ⟨-, husable, -, -, value, -, rfl⟩ := hc
  · exact hv
  · have hkeys : ∀ {h' k}, (v.create h ⟨value, template, s⟩).key h' = some k →
        h' = h ∧ k.session = s ∨ v.key h' = some k := by
      intro h' k hk
      by_cases hh : h' = h
      · subst hh
        simp only [create_key, Function.update_self, Option.some.injEq] at hk
        exact .inl ⟨rfl, hk ▸ rfl⟩
      · simp only [create_key, Function.update_of_ne hh] at hk
        exact .inr hk
    refine ⟨fun hk => ?_, fun hk => ?_, fun hprivate _ => husable.2 hprivate, hv.idle, hv.invalid⟩
    · obtain ⟨rfl, -⟩ | hk := hkeys hk
      · exact Set.mem_insert _ _
      · exact Set.mem_insert_of_mem _ (hv.used hk)
    · obtain ⟨-, hs⟩ | hk := hkeys hk
      · rw [hs]
        exact husable.1
      · exact hv.session hk

theorem destroy (hv : v.Sound isPrivate) : (v.destroy h).Sound isPrivate := by
  have hkeys : ∀ {h' k}, (v.destroy h).key h' = some k → v.key h' = some k := by
    intro h' k hk
    by_cases hh : h' = h
    · subst hh
      simp at hk
    · simpa only [destroy_key, Function.update_of_ne hh] using hk
  exact ⟨fun hk => hv.used (hkeys hk), fun hk => hv.session (hkeys hk),
    fun hprivate hk => hv.authorized hprivate (hkeys hk), hv.idle, hv.invalid⟩

theorem opened (hv : v.Sound isPrivate) (hs : s ≠ 0) : (v.opened s).Sound isPrivate := by
  have hopen : ∀ s', v.isOpen s' = true → (v.opened s).isOpen s' = true := by
    intro s' hs'
    by_cases he : s' = s
    · rw [he, opened_isOpen, Function.update_self]
    · rw [opened_isOpen, Function.update_of_ne he, hs']
  refine ⟨hv.used, fun hk => hopen _ (hv.session hk), hv.authorized, fun {s'} hs' => hv.idle ?_, ?_⟩
  · by_contra hnot
    rw [hopen s' (by simpa using hnot)] at hs'
    cases hs'
  · rw [opened_isOpen, Function.update_of_ne hs.symm]
    exact hv.invalid

theorem login (hv : v.Sound isPrivate) : ({ v with loggedIn := true } : View).Sound isPrivate :=
  ⟨hv.used, hv.session, fun _ _ => rfl, hv.idle, hv.invalid⟩

theorem loggedOut (hv : v.Sound isPrivate) {active : SessionHandle → Option Operation}
    (hactive : ∀ s, active s = v.active s ∨ active s = none) :
    (v.loggedOut isPrivate active).Sound isPrivate := by
  have hkeys : ∀ {h k}, (v.loggedOut isPrivate active).key h = some k →
      isPrivate = false ∧ v.key h = some k := by
    intro h k hk
    cases isPrivate with
    | true => simp at hk
    | false => exact ⟨rfl, hk⟩
  refine ⟨fun hk => hv.used (hkeys hk).2, fun hk => hv.session (hkeys hk).2,
    fun hprivate hk => ?_, fun {s} hs => ?_, hv.invalid⟩
  · rw [(hkeys hk).1] at hprivate
    cases hprivate
  · obtain hs' | hs' := hactive s
    · exact hs'.trans (hv.idle hs)
    · exact hs'

/-- The login lasts while there is a key in another session. -/
theorem closed (hv : v.Sound isPrivate) {loggedIn : Bool}
    (hlogin : ∀ s' ≠ s, v.isOpen s' = true → loggedIn = v.loggedIn) :
    (v.closed s loggedIn).Sound isPrivate := by
  have hkeys : ∀ {h k}, (v.closed s loggedIn).key h = some k →
      v.key h = some k ∧ k.session ≠ s := by
    intro h k hk
    simpa [Option.filter_eq_some_iff] using hk
  refine ⟨fun hk => hv.used (hkeys hk).1, fun {h k} hk => ?_, fun {h k} hprivate hk => ?_,
    fun {s'} hs' => ?_, ?_⟩
  · obtain ⟨hk, hs⟩ := hkeys hk
    rw [closed_isOpen, Function.update_of_ne hs]
    exact hv.session hk
  · obtain ⟨hk, hs⟩ := hkeys hk
    have hsame : loggedIn = v.loggedIn := hlogin k.session hs (hv.session hk)
    rw [closed_loggedIn, hsame]
    exact hv.authorized hprivate hk
  · by_cases he : s' = s
    · rw [he, closed_active, Function.update_self]
    · rw [closed_isOpen, Function.update_of_ne he] at hs'
      rw [closed_active, Function.update_of_ne he]
      exact hv.idle hs'
  · by_cases he : (0 : SessionHandle) = s
    · rw [← he, closed_isOpen, Function.update_self]
    · rw [closed_isOpen, Function.update_of_ne he]
      exact hv.invalid

end Sound

end View

/-- What the calls of a library do. A call that is said to be ok has no reason of its own to fail;
errors of the device are left out there. -/
structure Token {τ : Type u} (C : Cryptoki τ) where
  view : τ → View
  /-- Whether a key is private if its template does not say so. -/
  isPrivate : Bool
  wrap : List UInt8 → List UInt8 → List UInt8
  unwrap : List UInt8 → List UInt8 → Option (List UInt8)
  /-- Key, IV, and ciphertext with tag. -/
  gcmOpen : List UInt8 → List UInt8 → List UInt8 → Option (List UInt8)
  init (t : τ) : view (C.init t).1 = view t
  getSlotList (t : τ) (room : ℕ) : view (C.getSlotList t room).1 = view t
  openSession (t : τ) : let r := C.openSession t
    r.2.1 ≠ ckrOk ∧ view r.1 = view t ∨
      r.2.1 = ckrOk ∧ r.2.2 ≠ 0 ∧ (view t).isOpen r.2.2 = false ∧
        view r.1 = (view t).opened r.2.2
  login (t : τ) (s : SessionHandle) : let r := C.login t s
    r.2 ≠ ckrOk ∧ view r.1 = view t ∧ (r.2 = ckrUserAlreadyLoggedIn → (view t).loggedIn = true) ∨
      r.2 = ckrOk ∧ view r.1 = { view t with loggedIn := true }
  /-- An operation that is active may be ended. -/
  logout (t : τ) (s : SessionHandle) : let r := C.logout t s
    r.2 ≠ ckrOk ∧ view r.1 = view t ∨
      r.2 = ckrOk ∧ ∃ active, (∀ s, active s = (view t).active s ∨ active s = none) ∧
        view r.1 = (view t).loggedOut isPrivate active
  logout_ok {t : τ} {s : SessionHandle} :
    (view t).isOpen s = true → (view t).loggedIn = true → (C.logout t s).2 = ckrOk
  closeSession (t : τ) (s : SessionHandle) : let r := C.closeSession t s
    r.2 ≠ ckrOk ∧ view r.1 = view t ∨
      r.2 = ckrOk ∧ ∃ loggedIn, (loggedIn = true → (view t).loggedIn = true) ∧
        (∀ s' ≠ s, (view t).isOpen s' = true → loggedIn = (view t).loggedIn) ∧
        view r.1 = (view t).closed s loggedIn
  closeSession_ok {t : τ} {s : SessionHandle} :
    (view t).isOpen s = true → (C.closeSession t s).2 = ckrOk
  generateKey (t : τ) (s : SessionHandle) (template : Template) :
    let r := C.generateKey t s template
    (view t).Creates isPrivate s template
      (fun value => ∀ n, .valueLen n ∈ template → value.length = n) (view r.1) r.2.1 r.2.2
  createObject (t : τ) (s : SessionHandle) (template : Template) :
    let r := C.createObject t s template
    (view t).Creates isPrivate s template (fun value => .value value ∈ template)
      (view r.1) r.2.1 r.2.2
  unwrapKey (t : τ) (s : SessionHandle) (kek : ObjectHandle) (wrapped : List UInt8)
    (template : Template) : let r := C.unwrapKey t s kek wrapped template
    (view t).Creates isPrivate s template
      (fun value => ∃ k, (view t).key kek = some k ∧ unwrap k.value wrapped = some value)
      (view r.1) r.2.1 r.2.2
  unwrapKey_ok {t : τ} {s : SessionHandle} {kek : ObjectHandle} {wrapped : List UInt8}
    {template : Template} {k : Key} : (view t).Usable isPrivate s → (view t).key kek = some k →
      .unwrap true ∈ k.template → (unwrap k.value wrapped).isSome →
      (C.unwrapKey t s kek wrapped template).2.1 = ckrOk
  deriveKey (t : τ) (s : SessionHandle) (h : ObjectHandle) (point : List UInt8)
    (template : Template) : let r := C.deriveKey t s h point template
    (view t).Creates isPrivate s template
      (fun value => ∀ n, .valueLen n ∈ template → value.length = n) (view r.1) r.2.1 r.2.2
  /-- What is wrapped is the value of a key under that of another. -/
  unwrap_wrap {t : τ} {kek h : ObjectHandle} {k v : Key} : (view t).key kek = some k →
    (view t).key h = some v → unwrap k.value (wrap k.value v.value) = some v.value
  destroyObject (t : τ) (s : SessionHandle) (h : ObjectHandle) : let r := C.destroyObject t s h
    r.2 ≠ ckrOk ∧ view r.1 = view t ∨ r.2 = ckrOk ∧ view r.1 = (view t).destroy h
  destroyObject_ok {t : τ} {s : SessionHandle} {h : ObjectHandle} :
    (view t).Usable isPrivate s → ((view t).key h).isSome → (C.destroyObject t s h).2 = ckrOk
  wrapKeyLength (t : τ) (s : SessionHandle) (kek h : ObjectHandle) :
    view (C.wrapKeyLength t s kek h).1 = view t
  wrapKey (t : τ) (s : SessionHandle) (kek h : ObjectHandle) (room : ℕ) :
    view (C.wrapKey t s kek h room).1 = view t
  wrapKey_value {t : τ} {s : SessionHandle} {kek h : ObjectHandle} {room : ℕ} :
    (C.wrapKey t s kek h room).2.1 = ckrOk → (view t).Usable isPrivate s ∧
      ∃ k v, (view t).key kek = some k ∧ (view t).key h = some v ∧
        (C.wrapKey t s kek h room).2.2 = wrap k.value v.value
  wrapKeyLength_ok {t : τ} {s : SessionHandle} {kek h : ObjectHandle} {k v : Key} :
    (view t).Usable isPrivate s → (view t).key kek = some k → (view t).key h = some v →
      .wrap true ∈ k.template → .extractable true ∈ v.template →
      (C.wrapKeyLength t s kek h).2 = (ckrOk, (wrap k.value v.value).length)
  wrapKey_ok {t : τ} {s : SessionHandle} {kek h : ObjectHandle} {room : ℕ} {k v : Key} :
    (view t).Usable isPrivate s → (view t).key kek = some k → (view t).key h = some v →
      .wrap true ∈ k.template → .extractable true ∈ v.template →
      (wrap k.value v.value).length ≤ room → (C.wrapKey t s kek h room).2.1 = ckrOk
  getValueLength (t : τ) (s : SessionHandle) (h : ObjectHandle) :
    view (C.getValueLength t s h).1 = view t
  getValue (t : τ) (s : SessionHandle) (h : ObjectHandle) (room : ℕ) :
    view (C.getValue t s h room).1 = view t
  getValue_value {t : τ} {s : SessionHandle} {h : ObjectHandle} {room : ℕ} :
    (C.getValue t s h room).2.1 = ckrOk → (view t).Usable isPrivate s ∧
      ∃ k, (view t).key h = some k ∧ (C.getValue t s h room).2.2 = k.value ∧
        k.value.length ≤ room
  getValueLength_value {t : τ} {s : SessionHandle} {h : ObjectHandle} :
    (C.getValueLength t s h).2.1 = ckrOk →
      ∃ k, (view t).key h = some k ∧ (C.getValueLength t s h).2.2 = k.value.length
  getValueLength_ok {t : τ} {s : SessionHandle} {h : ObjectHandle} {k : Key} :
    (view t).Usable isPrivate s → (view t).key h = some k → .sensitive false ∈ k.template →
      .extractable true ∈ k.template → (C.getValueLength t s h).2.1 = ckrOk
  getValue_ok {t : τ} {s : SessionHandle} {h : ObjectHandle} {room : ℕ} {k : Key} :
    (view t).Usable isPrivate s → (view t).key h = some k → .sensitive false ∈ k.template →
      .extractable true ∈ k.template → k.value.length ≤ room →
        (C.getValue t s h room).2.1 = ckrOk
  getValue_sensitive {t : τ} {s : SessionHandle} {h : ObjectHandle} {room : ℕ} {k : Key} :
    (view t).key h = some k → k.template.Sensitive → (C.getValue t s h room).2.1 ≠ ckrOk
  encryptInit (t : τ) (s : SessionHandle) (iv : List UInt8) (h : ObjectHandle) :
    let r := C.encryptInit t s iv h
    r.2 ≠ ckrOk ∧ view r.1 = view t ∨
      r.2 = ckrOk ∧ (view t).Usable isPrivate s ∧ ∃ k, (view t).key h = some k ∧
        view r.1 = (view t).setActive s (some (.encrypt iv k.value))
  /-- The operation ends unless the result does not fit. -/
  encrypt {t : τ} {s : SessionHandle} {iv key : List UInt8} (input : List UInt8) (room : ℕ) :
    (view t).active s = some (.encrypt iv key) → let r := C.encrypt t s input room
      r.2.1 = ckrBufferTooSmall ∧ room < input.length + 16 ∨
        r.2.1 ≠ ckrBufferTooSmall ∧ view r.1 = (view t).setActive s none ∧
          (r.2.1 = ckrOk → r.2.2.length = input.length + 16 ∧ gcmOpen key iv r.2.2 = some input)
  decryptInit (t : τ) (s : SessionHandle) (iv : List UInt8) (h : ObjectHandle) :
    let r := C.decryptInit t s iv h
    r.2 ≠ ckrOk ∧ r.1 = t ∨
      r.2 = ckrOk ∧ (view t).Usable isPrivate s ∧ ∃ k, (view t).key h = some k ∧
        view r.1 = (view t).setActive s (some (.decrypt iv k.value))
  decryptInit_ok {t : τ} {s : SessionHandle} {iv : List UInt8} {h : ObjectHandle} {k : Key} :
    (view t).Usable isPrivate s → (view t).active s = none → (view t).key h = some k →
      .decrypt true ∈ k.template → iv.length = 12 → (C.decryptInit t s iv h).2 = ckrOk
  decrypt {t : τ} {s : SessionHandle} {iv key : List UInt8} (input : List UInt8) (room : ℕ) :
    (view t).active s = some (.decrypt iv key) → let r := C.decrypt t s input room
      r.2.1 = ckrBufferTooSmall ∧ room < input.length ∨
        r.2.1 ≠ ckrBufferTooSmall ∧ (r.2.1 = ckrOk ↔ (gcmOpen key iv input).isSome) ∧
          (r.2.1 = ckrOk → gcmOpen key iv input = some r.2.2)
  /-- A decryption that has ended leaves nothing behind. -/
  decrypt_ends {t : τ} {s : SessionHandle} {iv : List UInt8} {h : ObjectHandle}
    (input : List UInt8) (room : ℕ) : (C.decryptInit t s iv h).2 = ckrOk →
      let r := C.decrypt (C.decryptInit t s iv h).1 s input room
      r.2.1 ≠ ckrBufferTooSmall → r.1 = t
  finalize (t : τ) : let r := C.finalize t
    r.2 ≠ ckrOk ∧ view r.1 = view t ∨ r.2 = ckrOk ∧ view r.1 = (view t).finalized

/-- A token for runs on fixed inputs. The handle of a key or a session is its place counted from
one, and keys are private. -/
structure ListToken where
  keys : List (Option Key)
  sessions : List Bool
  active : SessionHandle → Option Operation
  loggedIn : Bool

namespace ListToken

/-- The entry at a place counted from one, or a default. -/
def entry {α : Type u} (l : List α) (default : α) : ℕ → α
  | 0 => default
  | i + 1 => l.getD i default

def key (t : ListToken) : ObjectHandle → Option Key := entry t.keys none

def isOpen (t : ListToken) : SessionHandle → Bool := entry t.sessions false

def view (t : ListToken) : View where
  key := t.key
  used := {h | h ≤ t.keys.length}
  isOpen := t.isOpen
  active := t.active
  loggedIn := t.loggedIn

def setActive (t : ListToken) (s : SessionHandle) (op : Option Operation) : ListToken :=
  { t with active := Function.update t.active s op }

/-- `CKR_FUNCTION_FAILED`. -/
def failed : CkRv := 0x6

def usable (t : ListToken) (s : SessionHandle) : Bool := t.isOpen s && t.loggedIn

/-- Wrapping puts the wrapping key before the key. -/
def unwrapValue (k wrapped : List UInt8) : Option (List UInt8) :=
  if wrapped.take k.length = k then some (wrapped.drop k.length) else none

/-- The tag: as much of the key as fits. -/
def tag (k : List UInt8) : List UInt8 := (k ++ List.replicate 16 0).take 16

/-- The plaintext is in the clear before the tag. -/
def gcmOpen (k _iv ct : List UInt8) : Option (List UInt8) :=
  if ct.drop (ct.length - 16) = tag k then some (ct.take (ct.length - 16)) else none

def add (t : ListToken) (s : SessionHandle) (template : Template) (value : Option (List UInt8)) :
    ListToken × CkRv × ObjectHandle :=
  match value with
  | none => (t, failed, 0)
  | some value =>
    if t.usable s then
      ({ t with keys := t.keys ++ [some ⟨value, template, s⟩] }, ckrOk, t.keys.length + 1)
    else (t, failed, 0)

/-- The value that a template gives. -/
def templateValue : Template → Option (List UInt8)
  | [] => none
  | .value bytes :: _ => some bytes
  | _ :: template => templateValue template

def templateLength : Template → ℕ
  | [] => 0
  | .valueLen n :: _ => n
  | _ :: template => templateLength template

/-- A value of the length that a template gives. -/
def drawnValue (template : Template) : Option (List UInt8) :=
  if template.all fun | .valueLen n => n = templateLength template | _ => true then
    some (List.replicate (templateLength template) 7)
  else none

def calls : Cryptoki ListToken where
  init t := (t, ckrOk)
  getSlotList t room := if room = 0 then (t, ckrBufferTooSmall, 1) else (t, ckrOk, 1)
  openSession t := ({ t with sessions := t.sessions ++ [true] }, ckrOk, t.sessions.length + 1)
  login t s :=
    if t.loggedIn then (t, ckrUserAlreadyLoggedIn)
    else if t.isOpen s then ({ t with loggedIn := true }, ckrOk) else (t, failed)
  logout t s :=
    if t.usable s then ({ t with keys := t.keys.map fun _ => none, loggedIn := false }, ckrOk)
    else (t, failed)
  closeSession t s :=
    if t.isOpen s then
      ({ t with
          keys := t.keys.map fun k => k.filter (·.session ≠ s)
          sessions := t.sessions.set (s - 1) false
          active := Function.update t.active s none
          loggedIn := t.loggedIn && (t.sessions.set (s - 1) false).contains true }, ckrOk)
    else (t, failed)
  generateKey t s template := t.add s template (drawnValue template)
  createObject t s template := t.add s template (templateValue template)
  unwrapKey t s kek wrapped template :=
    t.add s template ((t.key kek).bind fun k => unwrapValue k.value wrapped)
  deriveKey t s h _ template := t.add s template ((t.key h).bind fun _ => drawnValue template)
  destroyObject t s h :=
    if t.usable s && (t.key h).isSome then ({ t with keys := t.keys.set (h - 1) none }, ckrOk)
    else (t, failed)
  wrapKeyLength t s kek h :=
    match t.key kek, t.key h with
    | some k, some v =>
      if t.usable s then (t, ckrOk, (k.value ++ v.value).length) else (t, failed, 0)
    | _, _ => (t, failed, 0)
  wrapKey t s kek h room :=
    match t.key kek, t.key h with
    | some k, some v =>
      if t.usable s && (k.value ++ v.value).length ≤ room then (t, ckrOk, k.value ++ v.value)
      else (t, failed, [])
    | _, _ => (t, failed, [])
  getValueLength t s h :=
    match t.key h with
    | some k => if t.usable s then (t, ckrOk, k.value.length) else (t, failed, 0)
    | none => (t, failed, 0)
  getValue t s h room :=
    match t.key h with
    | some k =>
      if ¬ k.template.Sensitive ∧ t.usable s ∧ k.value.length ≤ room then (t, ckrOk, k.value)
      else (t, failed, [])
    | none => (t, failed, [])
  encryptInit t s iv h :=
    match t.key h with
    | some k =>
      if t.usable s && (t.active s).isNone then (t.setActive s (some (.encrypt iv k.value)), ckrOk)
      else (t, failed)
    | none => (t, failed)
  encrypt t s input room :=
    match t.active s with
    | some (.encrypt _ k) =>
      if room < input.length + 16 then (t, ckrBufferTooSmall, [])
      else (t.setActive s none, ckrOk, input ++ tag k)
    | _ => (t, failed, [])
  decryptInit t s iv h :=
    match t.key h with
    | some k =>
      if t.usable s && (t.active s).isNone then (t.setActive s (some (.decrypt iv k.value)), ckrOk)
      else (t, failed)
    | none => (t, failed)
  decrypt t s input room :=
    match t.active s with
    | some (.decrypt iv k) =>
      if room < input.length then (t, ckrBufferTooSmall, [])
      else
        match gcmOpen k iv input with
        | some plaintext => (t.setActive s none, ckrOk, plaintext)
        | none => (t.setActive s none, failed, [])
    | _ => (t, failed, [])
  finalize t :=
    (⟨t.keys.map fun _ => none, t.sessions.map fun _ => false, fun _ => none, false⟩, ckrOk)

section Entries
variable {α β : Type u} (l : List α) (default : α)

theorem entry_append (a : α) :
    entry (l ++ [a]) default = Function.update (entry l default) (l.length + 1) a := by
  funext h
  cases h with
  | zero => rfl
  | succ i =>
    simp only [entry, List.getD_eq_getElem?_getD]
    rcases Nat.lt_trichotomy i l.length with hi | hi | hi
    · have hne : i + 1 ≠ l.length + 1 := by omega
      rw [List.getElem?_append_left hi, Function.update_of_ne hne, entry,
        List.getD_eq_getElem?_getD]
    · subst hi
      rw [List.getElem?_append_right le_rfl, Nat.sub_self, Function.update_self]
      rfl
    · have hne : i + 1 ≠ l.length + 1 := by omega
      rw [Function.update_of_ne hne, entry, List.getD_eq_getElem?_getD,
        List.getElem?_eq_none (by rw [List.length_append]; exact hi), List.getElem?_eq_none hi.le]

theorem entry_set {h : ℕ} (hh : h ≠ 0) :
    entry (l.set (h - 1) default) default = Function.update (entry l default) h default := by
  funext h'
  cases h' with
  | zero => rw [Function.update_of_ne hh.symm, entry, entry]
  | succ i =>
    by_cases he : i + 1 = h
    · subst he
      rw [Function.update_self, Nat.add_sub_cancel]
      simp only [entry, List.getD_eq_getElem?_getD, List.getElem?_set_self']
      cases l[i]? <;> rfl
    · have hne : h - 1 ≠ i := by omega
      rw [Function.update_of_ne he, entry, entry, List.getD_eq_getElem?_getD,
        List.getElem?_set_ne hne, ← List.getD_eq_getElem?_getD]

theorem entry_map (f : α → β) (h : ℕ) : entry (l.map f) (f default) h = f (entry l default h) := by
  cases h with
  | zero => rfl
  | succ i =>
    simp only [entry, List.getD_eq_getElem?_getD, List.getElem?_map]
    cases l[i]? <;> rfl

theorem entry_mem {h : ℕ} (hh : entry l default h ≠ default) : entry l default h ∈ l ∧
    h ≤ l.length := by
  cases h with
  | zero => exact absurd rfl hh
  | succ i =>
    simp only [entry, List.getD_eq_getElem?_getD] at hh ⊢
    cases hl : l[i]? with
    | none =>
      rw [hl] at hh
      exact absurd rfl hh
    | some a => exact ⟨List.mem_of_getElem? hl, (List.getElem?_eq_some_iff.mp hl).1⟩

end Entries

theorem failed_ne : failed ≠ ckrOk := by decide

theorem usable_iff {t : ListToken} {s : SessionHandle} :
    t.usable s = true ↔ t.view.Usable true s := by
  simp [usable, View.Usable, view]

theorem add_creates (t : ListToken) (s : SessionHandle) (template : Template)
    (value : Option (List UInt8)) :
    let r := t.add s template value
    t.view.Creates true s template (fun v => value = some v) r.1.view r.2.1 r.2.2 := by
  unfold add
  cases value with
  | none => exact .inl ⟨failed_ne, rfl⟩
  | some v =>
    dsimp only
    split
    · rename_i husable
      have hkey : entry (t.keys ++ [some ⟨v, template, s⟩]) none =
          Function.update (entry t.keys none) (t.keys.length + 1) (some ⟨v, template, s⟩) :=
        entry_append t.keys none _
      have hused : {h | h ≤ (t.keys ++ [some (⟨v, template, s⟩ : Key)]).length} =
          insert (t.keys.length + 1) {h | h ≤ t.keys.length} := by
        ext h
        simp only [List.length_append, List.length_singleton, Set.mem_ofPred_eq,
          Set.mem_insert_iff]
        omega
      refine .inr ⟨rfl, usable_iff.mp husable, Nat.succ_ne_zero _, ?_, v, rfl, ?_⟩
      · exact Nat.not_succ_le_self _
      · simp only [view, View.create, key, hkey, hused]
        rfl
    · exact .inl ⟨failed_ne, rfl⟩

theorem mem_templateValue {template : Template} {v : List UInt8}
    (h : templateValue template = some v) : .value v ∈ template := by
  induction template with
  | nil => cases h
  | cons a template ih =>
    cases a
    case value bytes =>
      cases h
      exact List.mem_cons_self
    all_goals exact List.mem_cons_of_mem _ (ih h)

theorem drawnValue_length {template : Template} {v : List UInt8}
    (h : drawnValue template = some v) (n : ℕ) (hn : .valueLen n ∈ template) : v.length = n := by
  unfold drawnValue at h
  split at h
  · rename_i hall
    have hlength := List.all_eq_true.mp hall _ hn
    cases h
    rw [List.length_replicate]
    exact (of_decide_eq_true hlength).symm
  · cases h

theorem gcmOpen_append (k iv p : List UInt8) : gcmOpen k iv (p ++ tag k) = some p := by
  have htag : (tag k).length = 16 := by
    simp [tag]
  have hlength : (p ++ tag k).length - 16 = p.length := by
    rw [List.length_append, htag, Nat.add_sub_cancel]
  rw [gcmOpen, hlength, List.drop_left, List.take_left, if_pos rfl]

theorem setActive_view (t : ListToken) (s : SessionHandle) (op : Option Operation) :
    (t.setActive s op).view = t.view.setActive s op := rfl

def token : Token calls where
  view := view
  isPrivate := true
  wrap k v := k ++ v
  unwrap := unwrapValue
  gcmOpen := gcmOpen
  init _ := rfl
  getSlotList t room := by
    simp only [calls]
    split <;> rfl
  openSession t := by
    have hopen : entry (t.sessions ++ [true]) false =
        Function.update (entry t.sessions false) (t.sessions.length + 1) true :=
      entry_append t.sessions false true
    refine .inr ⟨rfl, Nat.succ_ne_zero _, ?_, ?_⟩
    · exact congrArg (·.getD false) (List.getElem?_eq_none le_rfl)
    · simp only [calls, view, View.opened, isOpen, hopen]
      rfl
  login t s := by
    simp only [calls]
    split
    · rename_i hin
      exact .inl ⟨Nat.succ_ne_zero _, rfl, fun _ => hin⟩
    · split
      · exact .inr ⟨rfl, rfl⟩
      · exact .inl ⟨failed_ne, rfl, fun h => by cases h⟩
  logout t s := by
    simp only [calls]
    split
    · refine .inr ⟨rfl, t.active, fun _ => .inl rfl, ?_⟩
      have hkey : entry (t.keys.map fun _ => (none : Option Key)) none = fun _ => none :=
        funext fun h => entry_map t.keys none (fun _ => none) h
      simp only [view, View.loggedOut, key, hkey, List.length_map]
      rfl
    · exact .inl ⟨failed_ne, rfl⟩
  logout_ok {t s} hopen hin := by
    have husable : t.usable s = true := by
      rw [usable, show t.isOpen s = true from hopen, show t.loggedIn = true from hin]
      rfl
    simp only [calls, if_pos husable]
  closeSession t s := by
    simp only [calls]
    split
    · rename_i hopen
      have hne : s ≠ 0 := by
        rintro rfl
        cases hopen
      have hsessions : entry (t.sessions.set (s - 1) false) false =
          Function.update (entry t.sessions false) s false := entry_set t.sessions false hne
      refine .inr ⟨rfl, t.loggedIn && (t.sessions.set (s - 1) false).contains true,
        fun h => (Bool.and_eq_true_iff.mp h).1, fun s' hs' hopen' => ?_, ?_⟩
      · have hentry : entry (t.sessions.set (s - 1) false) false s' = true := by
          rw [hsessions, Function.update_of_ne hs']
          exact hopen'
        have hmem := (entry_mem (t.sessions.set (s - 1) false) false (by rw [hentry]; simp)).1
        rw [hentry] at hmem
        rw [List.contains_iff_mem.mpr hmem, Bool.and_true]
        rfl
      · have hkey : entry (t.keys.map fun k => k.filter (·.session ≠ s)) none =
            fun h => (entry t.keys none h).filter (·.session ≠ s) :=
          funext fun h => entry_map t.keys none (fun k => k.filter (·.session ≠ s)) h
        simp only [view, View.closed, key, isOpen, hkey, hsessions, List.length_map]
    · exact .inl ⟨failed_ne, rfl⟩
  closeSession_ok {t s} hopen := by
    have hopen : t.isOpen s = true := hopen
    simp only [calls, if_pos hopen]
  generateKey t s template :=
    (add_creates t s template (drawnValue template)).imp fun _ hv => drawnValue_length hv
  createObject t s template :=
    (add_creates t s template (templateValue template)).imp fun _ hv => mem_templateValue hv
  unwrapKey t s kek wrapped template :=
    (add_creates t s template _).imp fun _ hv => Option.bind_eq_some_iff.mp hv
  unwrapKey_ok {t s kek wrapped template k} husable hk _ hv := by
    have husable : t.usable s = true := usable_iff.mpr husable
    obtain ⟨v, hv⟩ := Option.isSome_iff_exists.mp hv
    have hvalue : (t.key kek).bind (fun k => unwrapValue k.value wrapped) = some v := by
      rw [show t.key kek = some k from hk]
      exact hv
    simp only [calls, hvalue, add, if_pos husable]
  deriveKey t s h point template :=
    (add_creates t s template _).imp fun _ hv => by
      obtain ⟨-, -, hv⟩ := Option.bind_eq_some_iff.mp hv
      exact drawnValue_length hv
  unwrap_wrap {t kek h k v} _ _ := by
    simp [unwrapValue]
  destroyObject t s h := by
    simp only [calls]
    split
    · rename_i hlive
      have hsome : (t.key h).isSome = true := (Bool.and_eq_true_iff.mp hlive).2
      have hne : h ≠ 0 := by
        rintro rfl
        cases hsome
      refine .inr ⟨rfl, ?_⟩
      simp only [view, View.destroy, key, entry_set t.keys none hne, List.length_set]
      rfl
    · exact .inl ⟨failed_ne, rfl⟩
  destroyObject_ok {t s h} husable hlive := by
    have husable : t.usable s = true := usable_iff.mpr husable
    have hlive : (t.key h).isSome = true := hlive
    simp only [calls, husable, hlive, Bool.and_self, if_true]
  wrapKeyLength t s kek h := by
    simp only [calls]
    split
    · split <;> rfl
    · rfl
  wrapKey t s kek h room := by
    simp only [calls]
    split
    · split <;> rfl
    · rfl
  wrapKey_value {t s kek h room} hok := by
    simp only [calls] at hok ⊢
    split at hok
    · rename_i k v hk hv
      split at hok
      · rename_i hfits
        obtain ⟨husable, -⟩ := Bool.and_eq_true_iff.mp hfits
        refine ⟨usable_iff.mp husable, k, v, hk, hv, ?_⟩
        simp only [if_pos hfits]
      · cases hok
    · cases hok
  wrapKeyLength_ok {t s kek h k v} husable hk hv _ _ := by
    have husable : t.usable s = true := usable_iff.mpr husable
    simp only [calls, show t.key kek = some k from hk, show t.key h = some v from hv,
      if_pos husable]
  wrapKey_ok {t s kek h room k v} husable hk hv _ _ hroom := by
    have husable : t.usable s = true := usable_iff.mpr husable
    simp only [calls, show t.key kek = some k from hk, show t.key h = some v from hv, husable,
      Bool.true_and, decide_eq_true hroom, if_true]
  getValueLength t s h := by
    simp only [calls]
    split
    · split <;> rfl
    · rfl
  getValue t s h room := by
    simp only [calls]
    split
    · split <;> rfl
    · rfl
  getValue_value {t s h room} hok := by
    simp only [calls] at hok ⊢
    split at hok
    · rename_i k hk
      split at hok
      · rename_i hfits
        refine ⟨usable_iff.mp hfits.2.1, k, hk, ?_, hfits.2.2⟩
        simp only [if_pos hfits]
      · cases hok
    · cases hok
  getValueLength_value {t s h} hok := by
    simp only [calls] at hok ⊢
    split at hok
    · rename_i k hk
      split at hok
      · rename_i husable
        refine ⟨k, hk, ?_⟩
        simp only [if_pos husable]
      · cases hok
    · cases hok
  getValueLength_ok {t s h k} husable hk _ _ := by
    have husable : t.usable s = true := usable_iff.mpr husable
    simp only [calls, show t.key h = some k from hk, if_pos husable]
  getValue_ok {t s h room k} husable hk hclear _ hroom := by
    have hfits : ¬ k.template.Sensitive ∧ t.usable s ∧ k.value.length ≤ room :=
      ⟨fun hsensitive => hsensitive.2 hclear, usable_iff.mpr husable, hroom⟩
    simp only [calls, show t.key h = some k from hk, if_pos hfits]
  getValue_sensitive {t s h room k} hk hsensitive := by
    have hno : ¬ (¬ k.template.Sensitive ∧ t.usable s ∧ k.value.length ≤ room) :=
      fun hfits => hfits.1 hsensitive
    simp only [calls, show t.key h = some k from hk, if_neg hno]
    exact failed_ne
  encryptInit t s iv h := by
    simp only [calls]
    split
    · rename_i k hk
      split
      · rename_i hfree
        obtain ⟨husable, -⟩ := Bool.and_eq_true_iff.mp hfree
        exact .inr ⟨rfl, usable_iff.mp husable, k, hk, setActive_view _ _ _⟩
      · exact .inl ⟨failed_ne, rfl⟩
    · exact .inl ⟨failed_ne, rfl⟩
  encrypt {t s iv k} input room hactive := by
    simp only [calls, show t.active s = some (.encrypt iv k) from hactive]
    split
    · rename_i hroom
      exact .inl ⟨rfl, hroom⟩
    · refine .inr ⟨fun h => (by cases h), setActive_view _ _ _, fun _ =>
        ⟨?_, gcmOpen_append k iv input⟩⟩
      simp [tag]
  decryptInit t s iv h := by
    simp only [calls]
    split
    · rename_i k hk
      split
      · rename_i hfree
        obtain ⟨husable, -⟩ := Bool.and_eq_true_iff.mp hfree
        exact .inr ⟨rfl, usable_iff.mp husable, k, hk, setActive_view _ _ _⟩
      · exact .inl ⟨failed_ne, rfl⟩
    · exact .inl ⟨failed_ne, rfl⟩
  decryptInit_ok {t s iv h k} husable hidle hk _ _ := by
    have husable : t.usable s = true := usable_iff.mpr husable
    have hidle : (t.active s).isNone = true := by
      rw [show t.active s = none from hidle]
      rfl
    simp only [calls, show t.key h = some k from hk, husable, hidle, Bool.and_self, if_true]
  decrypt {t s iv k} input room hactive := by
    simp only [calls, show t.active s = some (.decrypt iv k) from hactive]
    split
    · rename_i hroom
      exact .inl ⟨rfl, hroom⟩
    · refine .inr ?_
      split
      · rename_i plaintext hopened
        exact ⟨fun h => (by cases h), by simp [hopened], fun _ => hopened⟩
      · rename_i hfailed
        exact ⟨fun h => (by cases h), by simp [hfailed, failed, ckrOk], fun h => by cases h⟩
  decrypt_ends {t s iv h} input room hok := by
    simp only [calls] at hok ⊢
    cases hk : t.key h with
    | none =>
      rw [hk] at hok
      cases hok
    | some k =>
      rw [hk] at hok
      dsimp only at hok ⊢
      split at hok
      · rename_i hfree
        have hidle : t.active s = none := by
          simpa using (Bool.and_eq_true_iff.mp hfree).2
        have hends : (t.setActive s (some (.decrypt iv k.value))).setActive s none = t := by
          simp only [setActive, Function.update_idem]
          rw [← hidle, Function.update_eq_self]
        have hactive : (t.setActive s (some (.decrypt iv k.value))).active s =
            some (.decrypt iv k.value) := Function.update_self _ _ _
        rw [if_pos hfree, hactive]
        dsimp only
        split
        · exact fun h => absurd rfl h
        · split
          · exact fun _ => hends
          · exact fun _ => hends
      · cases hok
  finalize t := by
    have hkey : entry (t.keys.map fun _ => (none : Option Key)) none = fun _ => none :=
      funext fun h => entry_map t.keys none (fun _ => none) h
    have hopen : entry (t.sessions.map fun _ => false) false = fun _ => false :=
      funext fun h => entry_map t.sessions false (fun _ => false) h
    refine .inr ⟨rfl, ?_⟩
    simp only [calls, view, View.finalized, key, isOpen, hkey, hopen, List.length_map]

end ListToken

end Cirradio.Pkcs11
