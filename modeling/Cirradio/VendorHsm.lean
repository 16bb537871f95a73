import Cirradio.Pkcs11Hsm

/-!
# The HSM of a vendor

`Pkcs11Hsm` on its own loads the library of a vendor. Between two calls the objects of its session
are the keys whose handles it has handed out and not destroyed, and nobody can read their values.
After a shutdown there are none, and a call that reaches the library follows a null pointer.
-/

namespace Cirradio.Security
open Pkcs11 UncheckedCalls

universe u

/-- Of a `Pkcs11Hsm` that is no `SoftHsm`. -/
structure VendorMembers where
  finalized : Bool
  /-- `fn_` is not null. -/
  fn : Bool

abbrev VendorHsm (τ : Type u) := Pkcs11Hsm VendorMembers τ

/-- What `dlopen` and `dlsym` find. -/
structure VendorLibrary where
  /-- `dlerror()` if the library cannot be opened. -/
  dlerror : Option String
  /-- What `C_GetFunctionList` returns, if it is there. -/
  getFunctionList : Option CkRv

namespace VendorHsm
open Pkcs11Hsm
variable {τ : Type u} (C : Cryptoki τ) (ssl : Evp)

def loadLibrary (modulePath : String) (lib : VendorLibrary) : Throws Unit :=
  match lib.dlerror with
  | some e => .error ("dlopen " ++ modulePath ++ " failed: " ++ e)
  | none =>
    match lib.getFunctionList with
    | none => .error "C_GetFunctionList not found"
    | some rv => if rv ≠ ckrOk then .error ("C_GetFunctionList rv=" ++ toString rv) else .ok ()

/-- The constructor. -/
def new (modulePath : String) (lib : VendorLibrary) (ivs : ℕ → Option (RandBytes 12)) (t : τ) :
    τ × Throws (HsmSession VendorMembers) :=
  match loadLibrary modulePath lib with
  | .error e => (t, .error e)
  | .ok () =>
    let (t, rv) := C.init t
    if rv ≠ ckrOk ∧ rv ≠ ckrCryptokiAlreadyInitialized then
      (t, .error ("C_Initialize rv=" ++ toString rv))
    else
      let (t, rv, slotCount) := C.getSlotList t 16
      if rv ≠ ckrOk ∨ slotCount = 0 then (t, .error "No tokens found")
      else openUserSession C "" ⟨false, true⟩ ivs t

def shutdown (s : VendorHsm τ) : VendorHsm τ :=
  if s.members.finalized then s
  else
    let s := { s with members := { s.members with finalized := true } }
    let s :=
      if s.members.fn = true ∧ s.session ≠ 0 then
        let (token, _) := C.logout s.token s.session
        let (token, _) := C.closeSession token s.session
        { s with token, session := 0 }
      else s
    if s.members.fn then
      let (token, _) := C.finalize s.token
      { s with token, members := { s.members with fn := false } }
    else s

def generateKey (s : VendorHsm τ) (_type : KeyType) (_label : String) :
    VendorHsm τ × Throws CkHandle :=
  generateKeyWith C "C_GenerateKey rv=" true s

def unwrapKey (s : VendorHsm τ) (wrappingKey : CkHandle) (wrapped : Bytes) :
    VendorHsm τ × Throws (Option CkHandle) :=
  unwrapKeyWith C true s wrappingKey wrapped

def exportRaw (s : VendorHsm τ) (_kh : CkHandle) : VendorHsm τ × Throws (Option Bytes) :=
  (s, .ok none)

def importRaw (s : VendorHsm τ) (_keyBytes : Bytes) (_label : String) :
    VendorHsm τ × Throws (Option CkHandle) :=
  (s, .ok none)

def destroyKey (s : VendorHsm τ) (kh : CkHandle) : VendorHsm τ × Bool :=
  if s.members.finalized ∨ s.members.fn = false then (s, false) else destroyObject C s kh

def kP384Oid : Bytes := [0x06, 0x05, 0x2b, 0x81, 0x04, 0x00, 0x22]

def ecTemplate (privBytes : Bytes) : Template :=
  [.objectClass .privateKey, .keyType .ec, .token false, .sensitive true, .extractable false,
    .sign true, .derive true, .ecParams kP384Oid, .value privBytes]

def createEcKey (s : VendorHsm τ) (privBytes : Bytes) : VendorHsm τ × CkHandle :=
  let (token, rv, obj) := C.createObject s.token s.session (ecTemplate privBytes)
  ({ s with token }, if rv ≠ ckrOk then 0 else obj)

/-- With the private number of a key in 48 bytes, if it fits into them: a failed `BN_bn2binpad`
leaves zeros. The result is zero after a failure. -/
def importEcKeyDer (bn2binpad : ssl.PrivKey → Option (Vector UInt8 48)) (s : VendorHsm τ)
    (derPriv : Bytes) : VendorHsm τ × CkHandle :=
  if s.members.finalized then (s, 0)
  else
    match ssl.d2iPrivateKey derPriv with
    | none => (s, 0)
    | some pkey =>
      createEcKey C s (((bn2binpad pkey).map (·.toList)).getD (List.replicate 48 0))

def derivedTemplate : Template :=
  [.objectClass .secretKey, .keyType .genericSecret, .valueLen 48, .token false,
    .sensitive false, .extractable true]

/-- The object of the shared secret is destroyed whether or not its value was read. -/
def deriveShared (s : VendorHsm τ) (ikHandle : CkHandle) (point : Bytes) :
    VendorHsm τ × Option Bytes :=
  let (token, rv, derived) := C.deriveKey s.token s.session ikHandle point derivedTemplate
  if rv ≠ ckrOk then ({ s with token }, none)
  else
    let (token, rv, value) := C.getValue token s.session derived 48
    let (token, _) := C.destroyObject token s.session derived
    ({ s with token },
      if rv ≠ ckrOk then none else some (overwrite (List.replicate 48 0) value))

def eciesDecrypt (s : VendorHsm τ) (ikHandle : CkHandle) (payload : Bytes) :
    VendorHsm τ × Throws (Option Bytes) :=
  if s.members.finalized then (s, .ok none)
  else if payload.length < SoftHsm.kPubLen + kIvLen + kTagLen then (s, .ok none)
  else
    let (s, shared) := deriveShared C s ikHandle (payload.take SoftHsm.kPubLen)
    match shared with
    | none => (s, .ok none)
    | some shared =>
      let aesKey := SoftHsm.deriveKey ssl shared
      if (SoftHsm.body payload).length < kTagLen then (s, .ok none)
      else
        (s, .ok (SoftHsm.gcmDecrypt ssl aesKey (SoftHsm.ivPart payload) (SoftHsm.ctPart payload)
          (SoftHsm.tagPart payload)))

inductive Call where
  | generateKey (type : KeyType) (label : String)
  | encrypt (kh : CkHandle) (plaintext : Bytes)
  | decrypt (kh : CkHandle) (ciphertext : Bytes)
  | wrapKey (wrappingKey keyToWrap : CkHandle)
  | unwrapKey (wrappingKey : CkHandle) (wrapped : Bytes)
  | exportRaw (kh : CkHandle)
  | importRaw (keyBytes : Bytes) (label : String)
  | destroyKey (kh : CkHandle)
  | importEcKeyDer (derPriv : Bytes)
  | eciesDecrypt (ikHandle : CkHandle) (payload : Bytes)
  | shutdown

inductive Result where
  | handle (r : Throws (Option CkHandle))
  | data (r : Throws (Option Bytes))
  | done (ok : Bool)

/-- The call gets as far as the function list without a look at `finalized_`. -/
def reaches (s : VendorHsm τ) : Call → Bool
  | .generateKey .. | .wrapKey .. | .unwrapKey .. => true
  | .encrypt .. => (s.ivs 0).isSome
  | .decrypt _ ciphertext => kIvLen + kTagLen ≤ ciphertext.length
  | _ => false

/-- The handle of an object. -/
def nonzero (h : CkHandle) : Option CkHandle := if h = 0 then none else some h

variable (bn2binpad : ssl.PrivKey → Option (Vector UInt8 48))

/-- A call on an instance whose function list is there, or that does not reach it. -/
def perform (s : VendorHsm τ) : Call → VendorHsm τ × Result
  | .generateKey type label => (generateKey C s type label).map id fun r => .handle (r.map some)
  | .encrypt kh plaintext => (encrypt C s kh plaintext).map id .data
  | .decrypt kh ciphertext => (decrypt C s kh ciphertext).map id .data
  | .wrapKey wrappingKey keyToWrap => (wrapKey C s wrappingKey keyToWrap).map id .data
  | .unwrapKey wrappingKey wrapped => (unwrapKey C s wrappingKey wrapped).map id .handle
  | .exportRaw kh => (exportRaw s kh).map id .data
  | .importRaw keyBytes label => (importRaw s keyBytes label).map id .handle
  | .destroyKey kh => (destroyKey C s kh).map id .done
  | .importEcKeyDer derPriv =>
    (importEcKeyDer C ssl bn2binpad s derPriv).map id fun h => .handle (.ok (nonzero h))
  | .eciesDecrypt ikHandle payload => (eciesDecrypt C ssl s ikHandle payload).map id .data
  | .shutdown => (shutdown C s, .done true)

/-- Nothing if the call follows the null pointer. -/
def call (s : VendorHsm τ) (c : Call) : Option (VendorHsm τ × Result) :=
  if s.members.fn = false ∧ reaches s c = true then none else some (perform C ssl bn2binpad s c)

def run (s : VendorHsm τ) : List Call → Option (VendorHsm τ × List (Call × Result))
  | [] => some (s, [])
  | c :: calls => do
    let (s, result) ← call C ssl bn2binpad s c
    let (s, results) ← run s calls
    return (s, (c, result) :: results)

/-- The handles that an instance has handed out and not destroyed, after one more call. -/
def handlesAfter (handles : Set CkHandle) : Call × Result → Set CkHandle
  | (.destroyKey kh, .done true) => handles \ {kh}
  | (.shutdown, _) => ∅
  | (_, .handle (.ok (some h))) => insert h handles
  | _ => handles

def handles (results : List (Call × Result)) : Set CkHandle := results.foldl handlesAfter ∅

variable {C ssl} (T : Token C)

/-- An instance that has not been shut down, and the handles that it has handed out. -/
structure Live (s₀ : SessionHandle) (handles : Set CkHandle) (s : VendorHsm τ) : Prop where
  session : s.session = s₀
  members : s.members = ⟨false, true⟩
  sound : (s.view T).Sound T.isPrivate
  isOpen : (s.view T).isOpen s₀ = true
  idle : (s.view T).active s₀ = none
  mem_iff (h : CkHandle) : h ∈ handles ↔ ∃ k, (s.view T).key h = some k ∧ k.session = s₀
  sensitive {h : CkHandle} {k : Key} : (s.view T).key h = some k → k.session = s₀ →
    k.template.Sensitive

/-- An instance that has been shut down. -/
structure Dead (s₀ : SessionHandle) (handles : Set CkHandle) (s : VendorHsm τ) : Prop where
  members : s.members = ⟨true, false⟩
  handles : handles = ∅
  gone {h : CkHandle} {k : Key} : (s.view T).key h = some k → k.session ≠ s₀

variable {T} {s₀ : SessionHandle} {handles : Set CkHandle} {s s' : VendorHsm τ}

theorem usage_sensitive (template : Template) (h : .sensitive false ∉ template) :
    (template ++ usage true).Sensitive := by
  refine ⟨by simp [usage], ?_⟩
  simpa [usage] using h

theorem ecTemplate_sensitive (privBytes : Bytes) : (ecTemplate privBytes).Sensitive := by
  simp [Template.Sensitive, ecTemplate]

theorem createEcKey_created (privBytes : Bytes) :
    Created T s (createEcKey C s privBytes).1 (ecTemplate privBytes)
      (fun value => .value value ∈ ecTemplate privBytes)
      (nonzero (createEcKey C s privBytes).2) := by
  have hc := T.createObject s.token s.session (ecTemplate privBytes)
  apply created_of_creates hc
  · intro hrv
    simp only [createEcKey, if_pos hrv]
    rfl
  · intro hrv
    obtain ⟨hfailed, -⟩ | ⟨-, -, hne, -⟩ := hc
    · exact absurd hrv hfailed
    · simp only [createEcKey, hrv, ne_eq, not_true_eq_false, if_false]
      exact if_neg hne

namespace Live

theorem of_key (hs : Live T s₀ handles s) (hcontinues : Continues s s')
    (hsound : (s'.view T).Sound T.isPrivate) (hkey : (s'.view T).key = (s.view T).key)
    (hopen : (s'.view T).isOpen = (s.view T).isOpen)
    (hactive : (s'.view T).active = (s.view T).active) : Live T s₀ handles s' where
  session := hcontinues.session.trans hs.session
  members := hcontinues.members.trans hs.members
  sound := hsound
  isOpen := by
    rw [hopen]
    exact hs.isOpen
  idle := by
    rw [hactive]
    exact hs.idle
  mem_iff h := by
    rw [hkey]
    exact hs.mem_iff h
  sensitive hk := hs.sensitive (hkey ▸ hk)

theorem of_view (hs : Live T s₀ handles s) (hcontinues : Continues s s')
    (hview : s'.view T = s.view T) : Live T s₀ handles s' := by
  refine hs.of_key hcontinues ?_ ?_ ?_ ?_
  · rw [hview]
    exact hs.sound
  · rw [hview]
  · rw [hview]
  · rw [hview]

/-- A key that a call creates is sensitive, and its handle is handed out. -/
theorem created (hs : Live T s₀ handles s) {template : Template} {values : Bytes → Prop}
    {handle : Option CkHandle} (hc : Created T s s' template values handle)
    (htemplate : template.Sensitive) : Live T s₀ (handles ∪ {h | handle = some h}) s' := by
  obtain ⟨hcontinues, ⟨rfl, hview⟩ | ⟨h, value, rfl, hne, hfresh, -, husable, hview⟩⟩ := hc
  · have hnone : handles ∪ {h | (none : Option CkHandle) = some h} = handles := by
      simp
    rw [hnone]
    exact hs.of_view hcontinues hview
  · have hkey : ∀ h' k, (s'.view T).key h' = some k ↔
        h' = h ∧ k = ⟨value, template, s.session⟩ ∨ h' ≠ h ∧ (s.view T).key h' = some k := by
      intro h' k
      rw [hview, View.create_key]
      by_cases hh : h' = h
      · subst hh
        simp [eq_comm]
      · simp [hh]
    refine ⟨hcontinues.session.trans hs.session, hcontinues.members.trans hs.members, ?_, ?_, ?_,
      fun h' => ?_, fun {h' k} hk hsession => ?_⟩
    · have hcreates : (s.view T).Creates T.isPrivate s.session template (fun _ => True)
          (s'.view T) ckrOk h := .inr ⟨rfl, husable, hne, hfresh, value, trivial, hview⟩
      exact hs.sound.creates hcreates
    · rw [hview]
      exact hs.isOpen
    · rw [hview]
      exact hs.idle
    · simp only [Set.mem_union, Set.mem_ofPred_eq, Option.some.injEq, hs.mem_iff h', hkey]
      constructor
      · rintro (⟨k, hk, hsession⟩ | rfl)
        · have hold : h' ≠ h := by
            rintro rfl
            exact hfresh (hs.sound.used hk)
          exact ⟨k, .inr ⟨hold, hk⟩, hsession⟩
        · exact ⟨_, .inl ⟨rfl, rfl⟩, hs.session⟩
      · rintro ⟨k, ⟨rfl, -⟩ | ⟨-, hk⟩, hsession⟩
        · exact .inr rfl
        · exact .inl ⟨k, hk, hsession⟩
    · obtain ⟨-, rfl⟩ | ⟨-, hk⟩ := (hkey h' k).mp hk
      · exact htemplate
      · exact hs.sensitive hk hsession

theorem destroyed (hs : Live T s₀ handles s) {h : CkHandle} (hcontinues : Continues s s')
    (hview : s'.view T = (s.view T).destroy h) : Live T s₀ (handles \ {h}) s' := by
  have hkey : ∀ h' k, (s'.view T).key h' = some k ↔ h' ≠ h ∧ (s.view T).key h' = some k := by
    intro h' k
    rw [hview, View.destroy_key]
    by_cases hh : h' = h
    · subst hh
      simp
    · simp [hh]
  refine ⟨hcontinues.session.trans hs.session, hcontinues.members.trans hs.members, ?_, ?_, ?_,
    fun h' => ?_, fun {h' k} hk hsession => hs.sensitive ((hkey h' k).mp hk).2 hsession⟩
  · rw [hview]
    exact hs.sound.destroy
  · rw [hview]
    exact hs.isOpen
  · rw [hview]
    exact hs.idle
  · rw [Set.mem_sdiff, Set.mem_singleton_iff, hs.mem_iff h']
    simp only [hkey]
    constructor
    · rintro ⟨⟨k, hk, hsession⟩, hne⟩
      exact ⟨k, ⟨hne, hk⟩, hsession⟩
    · rintro ⟨k, ⟨hne, hk⟩, hsession⟩
      exact ⟨⟨k, hk, hsession⟩, hne⟩

theorem encrypted (hs : Live T s₀ handles s) {kh : CkHandle} {plaintext : Bytes}
    {r : VendorHsm τ × Throws (Option Bytes)} (hr : Encrypts T s kh plaintext r) :
    Live T s₀ handles r.1 := by
  refine hs.of_view hr.continues ?_
  have hidle : (s.view T).active s.session = none := by
    rw [hs.session]
    exact hs.idle
  obtain hview | ⟨op, hview⟩ := hr.view
  · exact hview
  · exact hview.trans (View.setActive_setActive_none hidle)

/-- The object of a shared secret does not outlive the call. -/
theorem derivedShared (hs : Live T s₀ handles s) (ikHandle : CkHandle) (point : Bytes) :
    Live T s₀ handles (deriveShared C s ikHandle point).1 := by
  have hc := T.deriveKey s.token s.session ikHandle point derivedTemplate
  have hsound := hs.sound.creates hc
  unfold deriveShared
  generalize C.deriveKey s.token s.session ikHandle point derivedTemplate = r at hc hsound ⊢
  obtain ⟨t, rv, h⟩ := r
  obtain ⟨hrv, hview⟩ | ⟨hrv, husable, -, hfresh, value, -, hview⟩ := hc
  · dsimp only
    rw [if_pos hrv]
    exact hs.of_view ⟨rfl, rfl⟩ hview
  · have hread : T.view (C.getValue t s.session h 48).1 = T.view t := T.getValue t s.session h 48
    have husable' : (T.view (C.getValue t s.session h 48).1).Usable T.isPrivate s.session := by
      rw [hread, hview]
      exact husable
    have hthere : ((T.view (C.getValue t s.session h 48).1).key h).isSome := by
      rw [hread, hview, View.create_key, Function.update_self]
      rfl
    have hdestroyed : T.view
        (C.destroyObject (C.getValue t s.session h 48).1 s.session h).1 = (T.view t).destroy h := by
      obtain ⟨hfailed, -⟩ | ⟨-, hdone⟩ :=
        T.destroyObject (C.getValue t s.session h 48).1 s.session h
      · exact absurd (T.destroyObject_ok husable' hthere) hfailed
      · exact hdone.trans (congrArg (View.destroy · h) hread)
    have hnone : (s.view T).key h = none :=
      Option.eq_none_iff_forall_ne_some.mpr fun k hk => hfresh (hs.sound.used hk)
    have hsame : T.view (C.destroyObject (C.getValue t s.session h 48).1 s.session h).1 =
        { s.view T with used := insert h (s.view T).used } := by
      rw [hdestroyed, hview]
      exact View.create_destroy hnone
    dsimp only
    rw [if_neg (not_not_intro hrv)]
    refine hs.of_key ⟨rfl, rfl⟩ ?_ ?_ ?_ ?_
    · rw [Pkcs11Hsm.view, hdestroyed]
      exact hsound.destroy
    all_goals
      rw [Pkcs11Hsm.view, hsame]

theorem eciesDecrypted (hs : Live T s₀ handles s) (ikHandle : CkHandle) (payload : Bytes) :
    Live T s₀ handles (eciesDecrypt C ssl s ikHandle payload).1 := by
  have hderived := hs.derivedShared ikHandle (payload.take SoftHsm.kPubLen)
  unfold eciesDecrypt
  generalize deriveShared C s ikHandle (payload.take SoftHsm.kPubLen) = r at hderived ⊢
  obtain ⟨s', shared⟩ := r
  split
  · exact hs
  · split
    · exact hs
    · cases shared with
      | none => exact hderived
      | some shared =>
        dsimp only
        split
        · exact hderived
        · exact hderived

theorem importedEcKey (hs : Live T s₀ handles s)
    (bn2binpad : ssl.PrivKey → Option (Vector UInt8 48)) (derPriv : Bytes) :
    Live T s₀ (handles ∪ {h | nonzero (importEcKeyDer C ssl bn2binpad s derPriv).2 = some h})
      (importEcKeyDer C ssl bn2binpad s derPriv).1 := by
  have hnothing : handles ∪ {h | nonzero 0 = some h} = handles := by
    simp [nonzero]
  unfold importEcKeyDer
  split
  · rw [hnothing]
    exact hs
  · split
    · rw [hnothing]
      exact hs
    · exact hs.created (createEcKey_created _) (ecTemplate_sensitive _)

theorem shutdown (hs : Live T s₀ handles s) : Dead T s₀ ∅ (shutdown C s) := by
  have hne : s.session ≠ 0 := by
    intro hzero
    have hopen := hs.isOpen
    rw [← hs.session, hzero, hs.sound.invalid] at hopen
    cases hopen
  have hcall : VendorHsm.shutdown C s =
      { s with
        session := 0
        members := ⟨true, false⟩
        token := (C.finalize (C.closeSession (C.logout s.token s.session).1 s.session).1).1 } := by
    unfold VendorHsm.shutdown
    simp only [hs.members, hne, ne_eq, not_false_eq_true, and_self, Bool.false_eq_true, if_true,
      if_false]
  have hlogout : (T.view (C.logout s.token s.session).1).isOpen s.session = true := by
    have hopen : (s.view T).isOpen s.session = true := by
      rw [hs.session]
      exact hs.isOpen
    obtain ⟨-, hview⟩ | ⟨-, active, -, hview⟩ := T.logout s.token s.session
    · rw [hview]
      exact hopen
    · rw [hview]
      exact hopen
  -- The session takes its objects with it, whatever the other two calls do.
  have hclosed : ∀ h k, (T.view (C.closeSession (C.logout s.token s.session).1 s.session).1).key h =
      some k → k.session ≠ s.session := by
    intro h k hk
    obtain ⟨hfailed, -⟩ | ⟨-, loggedIn, -, -, hview⟩ :=
      T.closeSession (C.logout s.token s.session).1 s.session
    · exact absurd (T.closeSession_ok hlogout) hfailed
    · rw [hview, View.closed_key, Option.filter_eq_some_iff] at hk
      simpa using hk.2
  rw [hcall]
  refine ⟨rfl, rfl, fun {h k} hk => ?_⟩
  rw [← hs.session]
  obtain ⟨-, hview⟩ | ⟨-, hview⟩ :=
    T.finalize (C.closeSession (C.logout s.token s.session).1 s.session).1
  · rw [Pkcs11Hsm.view, hview] at hk
    exact hclosed h k hk
  · rw [Pkcs11Hsm.view, hview] at hk
    cases hk

end Live

theorem handlesAfter_handle {c : Call} (hc : c ≠ .shutdown) (r : Throws (Option CkHandle)) :
    handlesAfter handles (c, .handle r) = handles ∪ {h | r.handle = some h} := by
  rcases r with _ | _ | h
  · cases c <;> simp_all [handlesAfter, Throws.handle]
  · cases c <;> simp_all [handlesAfter, Throws.handle]
  · have hinsert : handles ∪ {h' | Throws.handle (.ok (some h)) = some h'} =
        insert h handles := by
      ext h'
      simp [Throws.handle, eq_comm]
    rw [hinsert]
    cases c <;> simp_all [handlesAfter]

theorem handlesAfter_data {c : Call} (hc : c ≠ .shutdown) (r : Throws (Option Bytes)) :
    handlesAfter handles (c, .data r) = handles := by
  cases c <;> simp_all [handlesAfter]

variable (T s₀)

/-- An instance and its handles in either part of its life. -/
def Inside (handles : Set CkHandle) (s : VendorHsm τ) : Prop :=
  Live T s₀ handles s ∨ Dead T s₀ handles s

variable {T s₀} (bn2binpad : ssl.PrivKey → Option (Vector UInt8 48))

theorem Live.perform (hs : Live T s₀ handles s) {c : Call} (hc : c ≠ .shutdown) :
    Live T s₀ (handlesAfter handles (c, (perform C ssl bn2binpad s c).2))
      (perform C ssl bn2binpad s c).1 := by
  cases c with
  | generateKey type label =>
    have hcreated := hs.created (generateKeyWith_created T s "C_GenerateKey rv=" true)
      (usage_sensitive _ (by simp))
    have hhandle : ∀ r : Throws CkHandle, Throws.handle (r.map some) = r.toOption := by
      rintro (_ | _) <;> rfl
    simpa only [VendorHsm.perform, generateKey, Prod.map, id, handlesAfter_handle hc, hhandle]
      using hcreated
  | encrypt kh plaintext =>
    simpa only [VendorHsm.perform, Prod.map, id, handlesAfter_data hc] using
      hs.encrypted (encrypt_encrypts T s kh plaintext)
  | decrypt kh ciphertext =>
    obtain ⟨plaintext, hcall⟩ := decrypt_pure T s kh ciphertext
    simpa only [VendorHsm.perform, hcall, Prod.map, id, handlesAfter_data hc] using hs
  | wrapKey wrappingKey keyToWrap =>
    obtain ⟨hcontinues, hview⟩ := wrapKey_view T s wrappingKey keyToWrap
    simpa only [VendorHsm.perform, Prod.map, id, handlesAfter_data hc] using
      hs.of_view hcontinues hview
  | unwrapKey wrappingKey wrapped =>
    have hcreated := hs.created (unwrapKeyWith_created T s true wrappingKey wrapped)
      (usage_sensitive _ (by simp))
    simpa only [VendorHsm.perform, unwrapKey, Prod.map, id, handlesAfter_handle hc]
      using hcreated
  | exportRaw kh =>
    simpa only [VendorHsm.perform, exportRaw, Prod.map, id, handlesAfter_data hc] using hs
  | importRaw keyBytes label =>
    have hnothing : handles ∪ {h | Throws.handle (.ok none) = some h} = handles := by
      simp [Throws.handle]
    simpa only [VendorHsm.perform, importRaw, Prod.map, id, handlesAfter_handle hc, hnothing]
      using hs
  | destroyKey kh =>
    have hguard : ¬ (s.members.finalized = true ∨ s.members.fn = false) := by
      rw [hs.members]
      simp
    simp only [VendorHsm.perform, destroyKey, if_neg hguard, Prod.map, id]
    obtain ⟨hcontinues, ⟨hfailed, hview⟩ | ⟨hdone, hview⟩⟩ := destroyObject_view T s kh
    · rw [hfailed]
      exact hs.of_view hcontinues hview
    · rw [hdone]
      exact hs.destroyed hcontinues hview
  | importEcKeyDer derPriv =>
    simpa only [VendorHsm.perform, Prod.map, id, handlesAfter_handle hc, Throws.handle] using
      hs.importedEcKey bn2binpad derPriv
  | eciesDecrypt ikHandle payload =>
    simpa only [VendorHsm.perform, Prod.map, id, handlesAfter_data hc] using
      hs.eciesDecrypted ikHandle payload
  | shutdown => exact absurd rfl hc

/-- After a shutdown the calls that do not reach the library create nothing. -/
theorem Dead.perform (hs : Dead T s₀ handles s) {c : Call} (hc : reaches s c = false) :
    Dead T s₀ (handlesAfter handles (c, (perform C ssl bn2binpad s c).2))
      (perform C ssl bn2binpad s c).1 := by
  have hfinalized : s.members.finalized = true := by
    rw [hs.members]
  cases c with
  | generateKey type label => cases hc
  | encrypt kh plaintext =>
    have hdrawn : s.ivs 0 = none := by
      simpa [reaches] using hc
    simp only [VendorHsm.perform, encrypt, hdrawn]
    exact ⟨hs.members, hs.handles, hs.gone⟩
  | decrypt kh ciphertext =>
    have hshort : ciphertext.length < kIvLen + kTagLen := by
      simpa [reaches] using hc
    simp only [VendorHsm.perform, decrypt, if_pos hshort]
    exact hs
  | wrapKey wrappingKey keyToWrap => cases hc
  | unwrapKey wrappingKey wrapped => cases hc
  | exportRaw kh => exact hs
  | importRaw keyBytes label => exact hs
  | destroyKey kh =>
    simp only [VendorHsm.perform, destroyKey, if_pos (Or.inl hfinalized)]
    exact hs
  | importEcKeyDer derPriv =>
    simp only [VendorHsm.perform, importEcKeyDer, if_pos hfinalized]
    exact hs
  | eciesDecrypt ikHandle payload =>
    simp only [VendorHsm.perform, eciesDecrypt, if_pos hfinalized]
    exact hs
  | shutdown =>
    simp only [VendorHsm.perform, VendorHsm.shutdown, if_pos hfinalized]
    exact ⟨hs.members, rfl, hs.gone⟩

theorem call_eq_none_iff {c : Call} : call C ssl bn2binpad s c = none ↔
    s.members.fn = false ∧ reaches s c = true := by
  unfold call
  split
  · rename_i hnull
    exact ⟨fun _ => hnull, fun _ => rfl⟩
  · rename_i hnot
    exact ⟨fun hnone => (by cases hnone), fun hnull => absurd hnull hnot⟩

variable {bn2binpad}

theorem Inside.call (hs : Inside T s₀ handles s) {c : Call} {result : Result}
    (hcall : call C ssl bn2binpad s c = some (s', result)) :
    Inside T s₀ (handlesAfter handles (c, result)) s' ∧
      (s'.members.fn = false ↔ s.members.fn = false ∨ c = .shutdown) := by
  have hreached : ¬ (s.members.fn = false ∧ reaches s c = true) := by
    intro hnull
    rw [(call_eq_none_iff bn2binpad).mpr hnull] at hcall
    cases hcall
  rw [VendorHsm.call, if_neg hreached, Option.some.injEq] at hcall
  have hstate : (perform C ssl bn2binpad s c).1 = s' := congrArg Prod.fst hcall
  have hresult : (perform C ssl bn2binpad s c).2 = result := congrArg Prod.snd hcall
  subst hstate hresult
  rcases hs with hlive | hdead
  · by_cases hc : c = .shutdown
    · subst hc
      have hshut := hlive.shutdown
      exact ⟨.inr hshut, by simp [perform, hshut.members]⟩
    · have hnext := hlive.perform bn2binpad hc
      exact ⟨.inl hnext, by simp [hnext.members, hlive.members, hc]⟩
  · have hfn : s.members.fn = false := by
      rw [hdead.members]
    have hnext := hdead.perform bn2binpad
      (Bool.eq_false_iff.mpr fun hreaches => hreached ⟨hfn, hreaches⟩)
    exact ⟨.inr hnext, by simp [hnext.members, hdead.members]⟩

theorem Inside.run (hs : Inside T s₀ handles s) {calls : List Call}
    {results : List (Call × Result)} (hrun : run C ssl bn2binpad s calls = some (s', results)) :
    Inside T s₀ (results.foldl handlesAfter handles) s' ∧
      (s'.members.fn = false ↔ s.members.fn = false ∨ .shutdown ∈ calls) := by
  induction calls generalizing s handles results with
  | nil =>
    cases hrun
    exact ⟨hs, by simp⟩
  | cons c calls ih =>
    simp only [VendorHsm.run, Option.bind_eq_bind, Option.bind_eq_some_iff] at hrun
    obtain ⟨⟨s₁, result⟩, hcall, ⟨s₂, results'⟩, hrest, hends⟩ := hrun
    cases hends
    obtain ⟨hinside, hfn⟩ := hs.call hcall
    obtain ⟨hinside', hfn'⟩ := ih hinside hrest
    refine ⟨hinside', hfn'.trans ?_⟩
    rw [hfn, List.mem_cons, or_assoc]
    simp only [eq_comm]

/-- A run ends early at a call that does. -/
theorem run_eq_none_iff {calls : List Call} : run C ssl bn2binpad s calls = none ↔
    ∃ before c after s' results, calls = before ++ c :: after ∧
      run C ssl bn2binpad s before = some (s', results) ∧ call C ssl bn2binpad s' c = none := by
  induction calls generalizing s with
  | nil => simp [run]
  | cons c calls ih =>
    cases hcall : call C ssl bn2binpad s c with
    | none =>
      simp only [run, hcall, Option.bind_eq_bind, Option.bind_none, true_iff]
      exact ⟨[], c, calls, s, [], rfl, rfl, hcall⟩
    | some r =>
      obtain ⟨s₁, result⟩ := r
      have hsplit : run C ssl bn2binpad s (c :: calls) = none ↔
          run C ssl bn2binpad s₁ calls = none := by
        simp only [run, hcall, Option.bind_eq_bind, Option.bind_some]
        cases run C ssl bn2binpad s₁ calls <;> simp
      rw [hsplit, ih]
      constructor
      · rintro ⟨before, c', after, s', results, rfl, hrun, hnone⟩
        refine ⟨c :: before, c', after, s', (c, result) :: results, rfl, ?_, hnone⟩
        simp only [run, hcall, hrun, Option.bind_eq_bind, Option.bind_some]
        rfl
      · rintro ⟨before, c', after, s', results, hcalls, hrun, hnone⟩
        cases before with
        | nil =>
          cases hcalls
          cases hrun
          rw [hcall] at hnone
          cases hnone
        | cons c₁ before =>
          cases hcalls
          simp only [run, hcall, Option.bind_eq_bind, Option.bind_some,
            Option.bind_eq_some_iff] at hrun
          obtain ⟨⟨s₂, results'⟩, hrest, hends⟩ := hrun
          cases hends
          exact ⟨before, c', after, _, results', rfl, hrest, hnone⟩

theorem Live.of_new {modulePath : String} {lib : VendorLibrary} {ivs : ℕ → Option (RandBytes 12)}
    {t t' : τ} {session : HsmSession VendorMembers} (hsound : (T.view t).Sound T.isPrivate)
    (h : new C modulePath lib ivs t = (t', .ok session)) :
    Live T session.session ∅ ⟨session, t'⟩ := by
  have hopened : ∃ t₀, T.view t₀ = T.view t ∧
      openUserSession C "" ⟨false, true⟩ ivs t₀ = (t', .ok session) := by
    unfold new at h
    split at h
    · cases h
    · have hinit := T.init t
      generalize C.init t = r at hinit h
      obtain ⟨t₁, rv⟩ := r
      dsimp only at h
      split at h
      · cases h
      · split at h
        · cases h
        · exact ⟨(C.getSlotList t₁ 16).1, (T.getSlotList t₁ 16).trans hinit, h⟩
  obtain ⟨t₀, hview₀, hopened⟩ := hopened
  obtain ⟨hne, hmembers, hclosed, hview⟩ := openUserSession_ok (T := T) hopened
  rw [hview₀] at hclosed hview
  have hview : Pkcs11Hsm.view T ⟨session, t'⟩ =
      { (T.view t).opened session.session with loggedIn := true } := hview
  have hnone : ∀ h k, (Pkcs11Hsm.view T ⟨session, t'⟩).key h = some k →
      k.session ≠ session.session := by
    intro h k hk hsession
    rw [hview] at hk
    have hopen := hsound.session hk
    rw [hsession, hclosed] at hopen
    cases hopen
  refine ⟨rfl, hmembers, ?_, ?_, ?_, fun h => ?_, fun hk hsession => absurd hsession (hnone _ _ hk)⟩
  · rw [hview]
    exact (hsound.opened hne).login
  · rw [hview]
    exact Function.update_self _ _ _
  · rw [hview]
    exact hsound.idle hclosed
  · constructor
    · intro hmem
      cases hmem
    · rintro ⟨k, hk, hsession⟩
      exact absurd hsession (hnone h k hk)

/-- On every token, whatever calls are made of an instance, the objects of its session are the
keys that it has handed out and not destroyed, and in no session can the value of one be read. In
particular a shared secret is gone when its decryption returns, and all are after a shutdown. A
call follows the null pointer exactly if it comes after a shutdown and reaches the library. -/
theorem keys_inside {modulePath : String} {lib : VendorLibrary} {ivs : ℕ → Option (RandBytes 12)}
    {t t' : τ} {session : HsmSession VendorMembers} (hsound : (T.view t).Sound T.isPrivate)
    (hnew : new C modulePath lib ivs t = (t', .ok session))
    (bn2binpad : ssl.PrivKey → Option (Vector UInt8 48)) (calls : List Call) :
    (∀ s results, run C ssl bn2binpad ⟨session, t'⟩ calls = some (s, results) →
      (∀ h, h ∈ VendorHsm.handles results ↔
        ∃ k, (s.view T).key h = some k ∧ k.session = session.session) ∧
      ∀ h ∈ VendorHsm.handles results, ∀ anySession room,
        (C.getValue s.token anySession h room).2.1 ≠ ckrOk) ∧
    (run C ssl bn2binpad ⟨session, t'⟩ calls = none ↔
      ∃ before c after s results, calls = before ++ c :: after ∧
        run C ssl bn2binpad ⟨session, t'⟩ before = some (s, results) ∧
        .shutdown ∈ before ∧ reaches s c = true) := by
  have hlive := Live.of_new hsound hnew
  have hstart : Inside T session.session ∅ ⟨session, t'⟩ := .inl hlive
  refine ⟨fun s results hrun => ?_, ?_⟩
  · obtain ⟨hs | hs, -⟩ := hstart.run hrun
    · refine ⟨hs.mem_iff, fun h hh anySession room => ?_⟩
      obtain ⟨k, hk, hsession⟩ := (hs.mem_iff h).mp hh
      exact T.getValue_sensitive hk (hs.sensitive hk hsession)
    · have hempty : VendorHsm.handles results = ∅ := hs.handles
      refine ⟨fun h => ?_, fun h hh => ?_⟩
      · rw [hempty]
        constructor
        · intro hmem
          cases hmem
        · rintro ⟨k, hk, hsession⟩
          exact absurd hsession (hs.gone hk)
      · rw [hempty] at hh
        cases hh
  · rw [run_eq_none_iff]
    have hshut : ∀ before s results, run C ssl bn2binpad ⟨session, t'⟩ before = some (s, results) →
        (s.members.fn = false ↔ .shutdown ∈ before) := by
      intro before s results hrun
      have hfn := (hstart.run hrun).2
      rw [hlive.members] at hfn
      simpa using hfn
    constructor
    · rintro ⟨before, c, after, s, results, hcalls, hrun, hnone⟩
      obtain ⟨hnull, hreaches⟩ := (call_eq_none_iff bn2binpad).mp hnone
      exact ⟨before, c, after, s, results, hcalls, hrun, (hshut _ _ _ hrun).mp hnull, hreaches⟩
    · rintro ⟨before, c, after, s, results, hcalls, hrun, hbefore, hreaches⟩
      exact ⟨before, c, after, s, results, hcalls, hrun,
        (call_eq_none_iff bn2binpad).mpr ⟨(hshut _ _ _ hrun).mpr hbefore, hreaches⟩⟩

set_option maxRecDepth 2000 in
/-- A key, an identity key and a decryption with it; and a call after a shutdown. -/
theorem keys_inside_listToken :
    let s : VendorHsm ListToken :=
      ⟨⟨1, fun _ => none, ⟨false, true⟩⟩, ⟨[], [true], fun _ => none, true⟩⟩
    let run := run ListToken.calls SoftHsm.toySsl (fun _ => none) s
    let calls : List Call := [.generateKey .aes256 "tek", .importEcKeyDer [],
      .eciesDecrypt 2 (List.replicate 125 0)]
    (run calls).isSome ∧
      (∀ s results, run calls = some (s, results) → ∀ h ∈ VendorHsm.handles results, ∀ room,
        (ListToken.calls.getValue s.token 1 h room).2.1 ≠ ckrOk) ∧
      run [.shutdown, .wrapKey 1 2] = none := by
  have hsound : (ListToken.view ⟨[], [], fun _ => none, false⟩).Sound true := by
    have hkey : ∀ h, ListToken.key ⟨[], [], fun _ => none, false⟩ h = none := by
      rintro (_ | _) <;> rfl
    refine ⟨fun hk => ?_, fun hk => ?_, fun _ hk => ?_, fun {s} _ => rfl, rfl⟩ <;>
    · have hsome := (hkey _).symm.trans hk
      cases hsome
  have hnew : new ListToken.calls "hsm.so" ⟨none, some ckrOk⟩ (fun _ => none)
      ⟨[], [], fun _ => none, false⟩ = (⟨[], [true], fun _ => none, true⟩,
        .ok ⟨1, fun _ => none, ⟨false, true⟩⟩) := rfl
  have hinside := fun calls =>
    keys_inside (T := ListToken.token) hsound hnew (fun _ : SoftHsm.toySsl.PrivKey => none) calls
  refine ⟨rfl, fun s results hrun h hh room => ?_, ?_⟩
  · exact ((hinside _).1 s results hrun).2 h hh 1 room
  · exact (hinside _).2.mpr
      ⟨[.shutdown], .wrapKey 1 2, [], _, _, rfl, rfl, List.mem_singleton_self _, rfl⟩

end VendorHsm
end Cirradio.Security
