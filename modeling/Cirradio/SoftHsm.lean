import Cirradio.KeyHandles
import Cirradio.Pkcs11Hsm
import Cirradio.Rendezvous

/-!
# The HSM of a node

`SoftHsm` makes its calls in a session of its own on a token that all instances share. Between two
calls no operation is active in the session, and every key of the token can be used for all that
the node uses keys for. So it keeps key objects as the rest of the node takes for granted.
-/

namespace Cirradio.Security
open Pkcs11 UncheckedCalls

universe u

/-- Of `SoftHsm` alone. Its `finalized_`, which `SoftHsm::shutdown` does not set, is false, and its
function list is there until it is destructed. -/
structure SoftMembers where
  ecKeys : CkHandle → Option Bytes
  nextEcHandle : CkHandle
  softFinalized : Bool

abbrev SoftHsm (τ : Type u) := Pkcs11Hsm SoftMembers τ

/-- Every call keeps the invariant. -/
structure IHsmEngine.Keeps {σ : Type u} (E : IHsmEngine σ) (I : σ → Prop) : Prop where
  generateKey (s : σ) (type : KeyType) (label : String) : I s → I (E.generateKey s type label).1
  encrypt (s : σ) (h : CkHandle) (plaintext : Bytes) : I s → I (E.encrypt s h plaintext).1
  decrypt (s : σ) (h : CkHandle) (ciphertext : Bytes) : I s → I (E.decrypt s h ciphertext).1
  wrapKey (s : σ) (kek h : CkHandle) : I s → I (E.wrapKey s kek h).1
  unwrapKey (s : σ) (kek : CkHandle) (wrapped : Bytes) : I s → I (E.unwrapKey s kek wrapped).1
  exportRaw (s : σ) (h : CkHandle) : I s → I (E.exportRaw s h).1
  importRaw (s : σ) (bytes : Bytes) (label : String) : I s → I (E.importRaw s bytes label).1
  destroyKey (s : σ) (h : CkHandle) : I s → I (E.destroyKey s h).1
  eciesDecrypt (s : σ) (h : CkHandle) (payload : Bytes) : I s → I (E.eciesDecrypt s h payload).1

/-- The engine in the states that meet an invariant. -/
def IHsmEngine.restrict {σ : Type u} (E : IHsmEngine σ) {I : σ → Prop} (hE : E.Keeps I) :
    IHsmEngine {s // I s} where
  generateKey s type label :=
    (⟨_, hE.generateKey s.1 type label s.2⟩, (E.generateKey s.1 type label).2)
  encrypt s h plaintext := (⟨_, hE.encrypt s.1 h plaintext s.2⟩, (E.encrypt s.1 h plaintext).2)
  decrypt s h ciphertext :=
    (⟨_, hE.decrypt s.1 h ciphertext s.2⟩, (E.decrypt s.1 h ciphertext).2)
  wrapKey s kek h := (⟨_, hE.wrapKey s.1 kek h s.2⟩, (E.wrapKey s.1 kek h).2)
  unwrapKey s kek wrapped :=
    (⟨_, hE.unwrapKey s.1 kek wrapped s.2⟩, (E.unwrapKey s.1 kek wrapped).2)
  exportRaw s h := (⟨_, hE.exportRaw s.1 h s.2⟩, (E.exportRaw s.1 h).2)
  importRaw s bytes label :=
    (⟨_, hE.importRaw s.1 bytes label s.2⟩, (E.importRaw s.1 bytes label).2)
  destroyKey s h := (⟨_, hE.destroyKey s.1 h s.2⟩, (E.destroyKey s.1 h).2)
  eciesDecrypt s h payload :=
    (⟨_, hE.eciesDecrypt s.1 h payload s.2⟩, (E.eciesDecrypt s.1 h payload).2)

namespace SoftHsm
open Pkcs11Hsm
variable {τ : Type u} (C : Cryptoki τ)

def importTemplate (keyBytes : Bytes) : Template :=
  [.objectClass .secretKey, .keyType .aes, .value keyBytes] ++ usage false

/-- The constructor, once the library is set up. -/
def new (ivs : ℕ → Option (RandBytes 12)) (t : τ) : τ × Throws (HsmSession SoftMembers) :=
  openUserSession C " user" ⟨fun _ => none, 0xEC000000, false⟩ ivs t

def shutdown (s : SoftHsm τ) : SoftHsm τ :=
  if s.members.softFinalized then s
  else
    let s := { s with
      members := { s.members with softFinalized := true, ecKeys := fun _ => none } }
    if s.session = 0 then s
    else
      let (token, _) := C.logout s.token s.session
      let (token, _) := C.closeSession token s.session
      { s with token, session := 0 }

def generateKey (s : SoftHsm τ) (_type : KeyType) (_label : String) :
    SoftHsm τ × Throws CkHandle :=
  generateKeyWith C "SoftHsm::generate_key rv=" false s

def unwrapKey (s : SoftHsm τ) (wrappingKey : CkHandle) (wrapped : Bytes) :
    SoftHsm τ × Throws (Option CkHandle) :=
  unwrapKeyWith C false s wrappingKey wrapped

/-- The buffer has the size of the first answer, and is returned whole. -/
def exportRaw (s : SoftHsm τ) (kh : CkHandle) : SoftHsm τ × Throws (Option Bytes) :=
  let (token, rv, valueLen) := C.getValueLength s.token s.session kh
  let s := { s with token }
  if rv ≠ ckrOk then (s, .ok none)
  else
    let (token, rv, value) := C.getValue s.token s.session kh valueLen
    let s := { s with token }
    if rv ≠ ckrOk then (s, .ok none)
    else (s, .ok (some (overwrite (List.replicate valueLen 0) value)))

def importRaw (s : SoftHsm τ) (keyBytes : Bytes) (_label : String) :
    SoftHsm τ × Throws (Option CkHandle) :=
  if keyBytes.length ≠ 32 then (s, .ok none)
  else
    let (token, rv, obj) := C.createObject s.token s.session (importTemplate keyBytes)
    ({ s with token }, .ok (if rv ≠ ckrOk then none else some obj))

def importEcKeyDer (s : SoftHsm τ) (derPriv : Bytes) : SoftHsm τ × CkHandle :=
  ({ s with members := { s.members with
      nextEcHandle := s.members.nextEcHandle + 1
      ecKeys := Function.update s.members.ecKeys s.members.nextEcHandle (some derPriv) } },
    s.members.nextEcHandle)

/-- The instance as an engine. -/
def engine (ssl : Evp) : IHsmEngine (SoftHsm τ) where
  generateKey := generateKey C
  encrypt := encrypt C
  decrypt := decrypt C
  wrapKey := wrapKey C
  unwrapKey := unwrapKey C
  exportRaw := exportRaw C
  importRaw := importRaw C
  destroyKey := destroyObject C
  eciesDecrypt s ikHandle payload :=
    (s, .ok (eciesDecrypt ssl s.members.ecKeys ikHandle payload).join)

variable {C} (T : Token C) (s s' : SoftHsm τ)

theorem generateKey_created (type : KeyType) (label : String) :
    Created T s (generateKey C s type label).1 (generateTemplate false)
      (fun value => value.length = kKeyLen) (generateKey C s type label).2.toOption :=
  generateKeyWith_created T s _ false

theorem unwrapKey_created (kek : CkHandle) (wrapped : Bytes) :
    Created T s (unwrapKey C s kek wrapped).1 (unwrapTemplate false)
      (fun value => ∃ k, (s.view T).key kek = some k ∧ T.unwrap k.value wrapped = some value)
      (unwrapKey C s kek wrapped).2.handle :=
  unwrapKeyWith_created T s false kek wrapped

theorem importRaw_created (keyBytes : Bytes) (label : String) :
    Created T s (importRaw C s keyBytes label).1 (importTemplate keyBytes)
      (fun value => value = keyBytes) (importRaw C s keyBytes label).2.handle := by
  by_cases hlength : keyBytes.length = 32
  · have hvalues : ∀ value, .value value ∈ importTemplate keyBytes → value = keyBytes :=
      fun value hvalue => by simpa [importTemplate, usage] using hvalue
    have hc := (T.createObject s.token s.session (importTemplate keyBytes)).imp hvalues
    have hcall : importRaw C s keyBytes label =
        ({ s with token := (C.createObject s.token s.session (importTemplate keyBytes)).1 },
          .ok (if (C.createObject s.token s.session (importTemplate keyBytes)).2.1 ≠ ckrOk then none
            else some (C.createObject s.token s.session (importTemplate keyBytes)).2.2)) :=
      if_neg (not_not_intro hlength)
    rw [hcall]
    exact created_of_creates hc (fun hrv => if_pos hrv) fun hrv => if_neg (not_not_intro hrv)
  · have hcall : importRaw C s keyBytes label = (s, .ok none) := if_pos hlength
    rw [hcall]
    exact ⟨⟨rfl, rfl⟩, .inl ⟨rfl, rfl⟩⟩

theorem exportRaw_view (kh : CkHandle) : Continues s (exportRaw C s kh).1 ∧
    (exportRaw C s kh).1.view T = s.view T := by
  have hlength := T.getValueLength s.token s.session kh
  unfold exportRaw
  generalize C.getValueLength s.token s.session kh = r at hlength ⊢
  obtain ⟨t, rv, n⟩ := r
  have hvalue := T.getValue t s.session kh n
  dsimp only
  split
  · exact ⟨⟨rfl, rfl⟩, hlength⟩
  · split
    · exact ⟨⟨rfl, rfl⟩, hvalue.trans hlength⟩
    · exact ⟨⟨rfl, rfl⟩, hvalue.trans hlength⟩

/-- What holds of an instance between two calls. -/
structure WellFormed : Prop where
  sound : (s.view T).Sound T.isPrivate
  idle : (s.view T).active s.session = none
  usage {h : CkHandle} {k : Key} : (s.view T).key h = some k → Pkcs11Hsm.usage false ⊆ k.template

namespace WellFormed
variable {T s} {s' : SoftHsm τ}

theorem of_view (hs : WellFormed T s) (hcontinues : Continues s s')
    (hview : s'.view T = s.view T) : WellFormed T s' := by
  refine ⟨?_, ?_, fun {h k} hk => ?_⟩
  · rw [hview]
    exact hs.sound
  · rw [hview, hcontinues.session]
    exact hs.idle
  · rw [hview] at hk
    exact hs.usage hk

theorem created (hs : WellFormed T s) {template : Template} {values : Bytes → Prop}
    {handle : Option CkHandle} (hc : Created T s s' template values handle)
    (htemplate : Pkcs11Hsm.usage false ⊆ template) : WellFormed T s' := by
  obtain ⟨hcontinues, ⟨-, hview⟩ | ⟨h, value, -, hne, hfresh, -, husable, hview⟩⟩ := hc
  · exact hs.of_view hcontinues hview
  · refine ⟨?_, ?_, fun {h' k} hk => ?_⟩
    · have hcreates : (s.view T).Creates T.isPrivate s.session template (fun _ => True)
          (s'.view T) ckrOk h := .inr ⟨rfl, husable, hne, hfresh, value, trivial, hview⟩
      exact hs.sound.creates hcreates
    · rw [hview, hcontinues.session]
      exact hs.idle
    · rw [hview, View.create_key] at hk
      by_cases hh : h' = h
      · subst hh
        rw [Function.update_self] at hk
        cases hk
        exact htemplate
      · rw [Function.update_of_ne hh] at hk
        exact hs.usage hk

theorem destroyed (hs : WellFormed T s) {h : CkHandle} (hcontinues : Continues s s')
    (hview : s'.view T = (s.view T).destroy h) : WellFormed T s' := by
  refine ⟨?_, ?_, fun {h' k} hk => ?_⟩
  · rw [hview]
    exact hs.sound.destroy
  · rw [hview, hcontinues.session]
    exact hs.idle
  · rw [hview, View.destroy_key] at hk
    by_cases hh : h' = h
    · subst hh
      rw [Function.update_self] at hk
      cases hk
    · rw [Function.update_of_ne hh] at hk
      exact hs.usage hk

theorem encrypted (hs : WellFormed T s) {kh : CkHandle} {plaintext : Bytes}
    {r : SoftHsm τ × Throws (Option Bytes)} (hr : Encrypts T s kh plaintext r) :
    WellFormed T r.1 := by
  refine hs.of_view hr.continues ?_
  obtain hview | ⟨op, hview⟩ := hr.view
  · exact hview
  · exact hview.trans (View.setActive_setActive_none hs.idle)

end WellFormed

theorem engine_keeps (ssl : Evp) : (engine C ssl).Keeps (WellFormed T) where
  generateKey s type label hs :=
    hs.created (generateKey_created T s type label) (List.subset_append_right _ _)
  encrypt s kh plaintext hs := hs.encrypted (encrypt_encrypts T s kh plaintext)
  decrypt s kh ciphertext hs := by
    obtain ⟨plaintext, hcall⟩ := decrypt_pure T s kh ciphertext
    have hsame : ((engine C ssl).decrypt s kh ciphertext).1 = s := congrArg Prod.fst hcall
    rw [hsame]
    exact hs
  wrapKey s kek h hs :=
    hs.of_view (wrapKey_view T s kek h).1 (wrapKey_view T s kek h).2
  unwrapKey s kek wrapped hs :=
    hs.created (unwrapKey_created T s kek wrapped) (List.subset_append_right _ _)
  exportRaw s kh hs := hs.of_view (exportRaw_view T s kh).1 (exportRaw_view T s kh).2
  importRaw s keyBytes label hs :=
    hs.created (importRaw_created T s keyBytes label) (List.subset_append_right _ _)
  destroyKey s kh hs := by
    obtain ⟨hcontinues, ⟨-, hview⟩ | ⟨-, hview⟩⟩ := destroyObject_view T s kh
    · exact hs.of_view hcontinues hview
    · exact hs.destroyed hcontinues hview
  eciesDecrypt _ _ _ hs := hs

/-- The engine of an instance between calls. -/
def hsm (ssl : Evp) : IHsmEngine {s // WellFormed T s} :=
  (engine C ssl).restrict (engine_keeps T ssl)

/-- The value behind a handle, in a session that can use it. -/
def keyValue (h : CkHandle) : Option Bytes :=
  if (s.view T).Usable T.isPrivate s.session then ((s.view T).key h).map (·.value) else none

variable {T s} {s' : SoftHsm τ}

theorem keyValue_eq_some_iff {h : CkHandle} {v : Bytes} : keyValue T s h = some v ↔
    (s.view T).Usable T.isPrivate s.session ∧ ∃ k, (s.view T).key h = some k ∧ k.value = v := by
  unfold keyValue
  split
  · rename_i husable
    simp [husable]
  · rename_i hnot
    simp [hnot]

theorem keyValue_eq_none {h : CkHandle} (hk : (s.view T).key h = none) :
    keyValue T s h = none := by
  rw [keyValue, hk]
  exact ite_self none

theorem keyValue_congr {h : CkHandle} (hkey : (s'.view T).key h = (s.view T).key h)
    (husable : (s'.view T).Usable T.isPrivate s'.session ↔
      (s.view T).Usable T.isPrivate s.session) : keyValue T s' h = keyValue T s h := by
  unfold keyValue
  rw [hkey]
  exact if_congr husable rfl rfl

theorem keyValue_of_view (hsession : s'.session = s.session) (hview : s'.view T = s.view T) :
    keyValue T s' = keyValue T s := by
  funext h
  apply keyValue_congr
  · rw [hview]
  · rw [hview, hsession]

theorem WellFormed.creates (hs : WellFormed T s) {template : Template}
    {values values' : Bytes → Prop} {handle : Option CkHandle}
    (hc : Created T s s' template values handle)
    (hvalues : (s.view T).Usable T.isPrivate s.session → ∀ value, values value → values' value) :
    Creates (keyValue T) s values' s' handle := by
  obtain ⟨⟨hsession, -⟩, ⟨rfl, hview⟩ | ⟨h, value, rfl, hne, hfresh, hvalue, husable, hview⟩⟩ := hc
  · exact keyValue_of_view hsession hview
  · have hnone : (s.view T).key h = none := by
      cases hk : (s.view T).key h with
      | none => rfl
      | some k => exact absurd (hs.sound.used hk) hfresh
    have husable' : (s'.view T).Usable T.isPrivate s'.session := by
      rw [hview, hsession]
      exact husable
    refine ⟨hne, ?_, value, hvalues husable value hvalue, ?_⟩
    · rw [keyValue, if_pos husable, hnone, Option.map_none]
    · funext h'
      rw [keyValue, if_pos husable', hview, View.create_key]
      by_cases hh : h' = h
      · subst hh
        rw [Function.update_self, Function.update_self, Option.map_some]
      · rw [Function.update_of_ne hh, Function.update_of_ne hh, keyValue, if_pos husable]

theorem keyValue_destroyObject (kh : CkHandle) :
    keyValue T (destroyObject C s kh).1 = Function.update (keyValue T s) kh none := by
  obtain ⟨⟨hsession, -⟩, ⟨hfailed, hview⟩ | ⟨-, hview⟩⟩ := destroyObject_view T s kh
  · rw [keyValue_of_view hsession hview]
    have hnone : keyValue T s kh = none := by
      rw [Option.eq_none_iff_forall_ne_some]
      intro v hv
      obtain ⟨husable, k, hk, -⟩ := keyValue_eq_some_iff.mp hv
      have hok := T.destroyObject_ok husable (Option.isSome_iff_exists.mpr ⟨k, hk⟩)
      rw [destroyObject, decide_eq_false_iff_not] at hfailed
      exact hfailed hok
    rw [← hnone, Function.update_eq_self]
  · funext h
    rw [keyValue, hview, hsession]
    by_cases hh : h = kh
    · subst hh
      rw [View.destroy_key, Function.update_self, Function.update_self]
      exact ite_self none
    · rw [View.destroy_key, Function.update_of_ne hh, Function.update_of_ne hh]
      rfl

theorem wrapKey_value {kek h : CkHandle} {wrapped : Bytes}
    (hok : (wrapKey C s kek h).2 = .ok (some wrapped)) :
    ∃ k v, keyValue T s kek = some k ∧ keyValue T s h = some v ∧ wrapped = T.wrap k v := by
  have hlength := T.wrapKeyLength s.token s.session kek h
  unfold wrapKey at hok
  generalize C.wrapKeyLength s.token s.session kek h = r at hlength hok
  obtain ⟨t, rv, n⟩ := r
  dsimp only at hok
  split at hok
  · cases hok
  · split at hok
    · cases hok
    · rename_i hrv
      obtain ⟨husable, k, v, hk, hv, hwrapped⟩ := T.wrapKey_value (not_not.mp hrv)
      rw [hlength] at husable hk hv
      cases hok
      exact ⟨k.value, v.value, keyValue_eq_some_iff.mpr ⟨husable, k, hk, rfl⟩,
        keyValue_eq_some_iff.mpr ⟨husable, v, hv, rfl⟩, hwrapped⟩

theorem WellFormed.wrapKey_ok (hs : WellFormed T s) {kek h : CkHandle} {k v : Bytes}
    (hk : keyValue T s kek = some k) (hv : keyValue T s h = some v) :
    (wrapKey C s kek h).2 = .ok (some (T.wrap k v)) := by
  obtain ⟨husable, k', hk', hkvalue⟩ := keyValue_eq_some_iff.mp hk
  obtain ⟨-, v', hv', hvvalue⟩ := keyValue_eq_some_iff.mp hv
  have hwrap : .wrap true ∈ k'.template := hs.usage hk' (by simp [Pkcs11Hsm.usage])
  have hextract : .extractable true ∈ v'.template := hs.usage hv' (by simp [Pkcs11Hsm.usage])
  have hlengthOk := T.wrapKeyLength_ok husable hk' hv' hwrap hextract
  have hlength := T.wrapKeyLength s.token s.session kek h
  unfold wrapKey
  generalize C.wrapKeyLength s.token s.session kek h = r at hlength hlengthOk ⊢
  obtain ⟨t, rv, n⟩ := r
  obtain ⟨rfl, rfl⟩ := Prod.mk.inj hlengthOk
  have hview : T.view t = s.view T := hlength
  rw [← hview] at husable hk' hv'
  have hrv := T.wrapKey_ok husable hk' hv' hwrap hextract le_rfl
  obtain ⟨-, k'', v'', hk'', hv'', hwrapped⟩ := T.wrapKey_value hrv
  obtain rfl : k'' = k' := Option.some.inj (hk''.symm.trans hk')
  obtain rfl : v'' = v' := Option.some.inj (hv''.symm.trans hv')
  dsimp only
  rw [if_neg (not_not_intro rfl), ← hkvalue, ← hvvalue]
  split
  · rename_i hfailed
    exact absurd hrv hfailed
  · exact congrArg (Except.ok ∘ some) hwrapped

/-- A key unwraps what is wrapped under it. -/
theorem WellFormed.unwrapKey_ok (hs : WellFormed T s) {kek : CkHandle} {k v wrapped : Bytes}
    (hk : keyValue T s kek = some k) (hv : T.unwrap k wrapped = some v) :
    ∃ h, (unwrapKey C s kek wrapped).2 = .ok (some h) ∧
      keyValue T (unwrapKey C s kek wrapped).1 h = some v := by
  obtain ⟨husable, k', hk', rfl⟩ := keyValue_eq_some_iff.mp hk
  have hunwrap : .unwrap true ∈ k'.template := hs.usage hk' (by simp [Pkcs11Hsm.usage])
  have hrv : (C.unwrapKey s.token s.session kek wrapped (unwrapTemplate false)).2.1 = ckrOk :=
    T.unwrapKey_ok husable hk' hunwrap (hv ▸ rfl)
  have hcall : (unwrapKey C s kek wrapped).2 =
      .ok (some (C.unwrapKey s.token s.session kek wrapped (unwrapTemplate false)).2.2) :=
    congrArg Except.ok (if_neg (not_not_intro hrv))
  have hc := unwrapKey_created T s kek wrapped
  rw [hcall] at hc
  obtain ⟨-, -, value, ⟨k'', hk'', hvalue⟩, hkey⟩ := hs.creates hc fun _ _ hvalue => hvalue
  obtain rfl : k'' = k' := Option.some.inj (hk''.symm.trans hk')
  refine ⟨_, hcall, ?_⟩
  rw [hkey, Function.update_self, ← hvalue, hv]

theorem exportRaw_value {kh : CkHandle} {raw : Bytes}
    (hok : (exportRaw C s kh).2 = .ok (some raw)) : keyValue T s kh = some raw := by
  have hlength := T.getValueLength s.token s.session kh
  have hlengthValue : (C.getValueLength s.token s.session kh).2.1 = ckrOk →
      ∃ k, (s.view T).key kh = some k ∧
        (C.getValueLength s.token s.session kh).2.2 = k.value.length := T.getValueLength_value
  unfold exportRaw at hok
  generalize C.getValueLength s.token s.session kh = r at hlength hlengthValue hok
  obtain ⟨t, rv, n⟩ := r
  dsimp only at hok
  split at hok
  · cases hok
  · rename_i hrv
    split at hok
    · cases hok
    · rename_i hrv'
      obtain ⟨k, hk, hn⟩ := hlengthValue (not_not.mp hrv)
      obtain ⟨husable, k', hk', hvalue, -⟩ := T.getValue_value (not_not.mp hrv')
      rw [hlength] at husable hk'
      obtain rfl : k' = k := Option.some.inj (hk'.symm.trans hk)
      have hraw : overwrite (List.replicate n 0) k'.value = k'.value := by
        have hn : n = k'.value.length := hn
        rw [overwrite, hn, List.drop_replicate, Nat.sub_self, List.replicate_zero,
          List.append_nil]
      cases hok
      refine keyValue_eq_some_iff.mpr ⟨husable, k', hk, ?_⟩
      exact (hraw.symm.trans (congrArg (overwrite (List.replicate n 0)) hvalue.symm))

theorem WellFormed.exportRaw_ok (hs : WellFormed T s) {kh : CkHandle} {v : Bytes}
    (hv : keyValue T s kh = some v) : (exportRaw C s kh).2 = .ok (some v) := by
  obtain ⟨husable, k, hk, -⟩ := keyValue_eq_some_iff.mp hv
  have hsensitive : .sensitive false ∈ k.template := hs.usage hk (by simp [Pkcs11Hsm.usage])
  have hextract : .extractable true ∈ k.template := hs.usage hk (by simp [Pkcs11Hsm.usage])
  have hlengthOk := T.getValueLength_ok husable hk hsensitive hextract
  obtain ⟨k', hk', hn⟩ := T.getValueLength_value hlengthOk
  obtain rfl : k' = k := Option.some.inj (hk'.symm.trans hk)
  have hview : T.view (C.getValueLength s.token s.session kh).1 = s.view T :=
    T.getValueLength s.token s.session kh
  rw [← hview] at husable hk
  have hrv := T.getValue_ok husable hk hsensitive hextract hn.ge
  have hraw : ∃ raw, (exportRaw C s kh).2 = .ok (some raw) := by
    unfold exportRaw
    generalize C.getValueLength s.token s.session kh = r at hlengthOk hrv ⊢
    obtain ⟨t, rv, n⟩ := r
    dsimp only
    rw [if_neg (not_not_intro hlengthOk)]
    split
    · rename_i hfailed
      exact absurd hrv hfailed
    · exact ⟨_, rfl⟩
  obtain ⟨raw, hraw⟩ := hraw
  rw [hraw, ← hv, ← exportRaw_value (T := T) hraw]

/-- What is encrypted under a key decrypts under that key, in every session. -/
theorem WellFormed.decrypt_ok (hs' : WellFormed T s') {kh kh' : CkHandle}
    {plaintext ciphertext v : Bytes} (hok : (encrypt C s kh plaintext).2 = .ok (some ciphertext))
    (hv : keyValue T s kh = some v) (hv' : keyValue T s' kh' = some v) :
    (decrypt C s' kh' ciphertext).2 = .ok (some plaintext) := by
  obtain ⟨iv, ct, k, rfl, hk, hlength, hopens⟩ := (encrypt_encrypts T s kh plaintext).sealed hok
  obtain ⟨-, k₁, hk₁, hvalue⟩ := keyValue_eq_some_iff.mp hv
  obtain ⟨husable, k', hk', hvalue'⟩ := keyValue_eq_some_iff.mp hv'
  obtain rfl : k = k₁ := Option.some.inj (hk.symm.trans hk₁)
  have hiv : iv.toList.length = Pkcs11Hsm.kIvLen := Vector.length_toList
  have hlong : ¬ (iv.toList ++ ct).length < Pkcs11Hsm.kIvLen + Pkcs11Hsm.kTagLen := by
    rw [List.length_append, hiv, hlength]
    omega
  have hdecrypt : .decrypt true ∈ k'.template := hs'.usage hk' (by simp [Pkcs11Hsm.usage])
  obtain ⟨result, hcall, hresult⟩ := decryptWith_pure T s' kh' iv.toList ct
  have hresult := hresult k' hk' husable hs'.idle hdecrypt hiv
  rw [decrypt, if_neg hlong, List.take_left' hiv, List.drop_left' hiv, hcall, hresult, hvalue',
    ← hvalue, hopens]

theorem new_ok {ivs : ℕ → Option (RandBytes 12)} {t t' : τ} {session : HsmSession SoftMembers}
    (h : new C ivs t = (t', .ok session)) : session.session ≠ 0 ∧
      session.members.softFinalized = false ∧ (T.view t).isOpen session.session = false ∧
      T.view t' = { (T.view t).opened session.session with loggedIn := true } := by
  obtain ⟨hne, hmembers, hopened⟩ := openUserSession_ok (T := T) h
  exact ⟨hne, congrArg SoftMembers.softFinalized hmembers, hopened⟩

theorem WellFormed.of_new {ivs : ℕ → Option (RandBytes 12)} {t t' : τ}
    {session : HsmSession SoftMembers} (hsound : (T.view t).Sound T.isPrivate)
    (husage : ∀ {h k}, (T.view t).key h = some k → Pkcs11Hsm.usage false ⊆ k.template)
    (h : new C ivs t = (t', .ok session)) : WellFormed T ⟨session, t'⟩ := by
  obtain ⟨hne, -, hclosed, hview⟩ := new_ok (T := T) h
  refine ⟨?_, ?_, fun {h k} hk => ?_⟩
  · rw [Pkcs11Hsm.view, hview]
    exact (hsound.opened hne).login
  · rw [Pkcs11Hsm.view, hview]
    exact hsound.idle hclosed
  · rw [Pkcs11Hsm.view, hview] at hk
    exact husage hk

/-- A shutdown ends the login for all sessions, and its own session. -/
theorem shutdown_view (hsound : (s.view T).Sound T.isPrivate)
    (hfinalized : s.members.softFinalized = false) (hne : s.session ≠ 0)
    (hopen : (s.view T).isOpen s.session = true) :
    (shutdown C s).session = 0 ∧ (shutdown C s).members.softFinalized = true ∧
      ∃ active, (∀ s', active s' = (s.view T).active s' ∨ active s' = none) ∧
        (shutdown C s).view T =
          ((s.view T).loggedOut T.isPrivate active).closed s.session false := by
  have hlogout : ∃ active, (∀ s', active s' = (s.view T).active s' ∨ active s' = none) ∧
      T.view (C.logout s.token s.session).1 = (s.view T).loggedOut T.isPrivate active := by
    obtain ⟨hrv, hview⟩ | ⟨-, hview⟩ := T.logout s.token s.session
    · have hout : (s.view T).loggedIn = false :=
        Bool.eq_false_iff.mpr fun hin => hrv (T.logout_ok hopen hin)
      have hkeys : (if T.isPrivate then fun _ => none else (s.view T).key) = (s.view T).key := by
        split
        · rename_i hprivate
          funext h
          cases hk : (s.view T).key h with
          | none => rfl
          | some k =>
            have hin := hsound.authorized hprivate hk
            rw [hout] at hin
            cases hin
        · rfl
      refine ⟨(s.view T).active, fun _ => .inl rfl, hview.trans ?_⟩
      rw [View.loggedOut, hkeys, ← hout]
      rfl
    · exact hview
  have hcall : shutdown C s =
      { s with
        members := { s.members with softFinalized := true, ecKeys := fun _ => none }
        token := (C.closeSession (C.logout s.token s.session).1 s.session).1
        session := 0 } := by
    unfold shutdown
    rw [if_neg (Bool.eq_false_iff.mp hfinalized)]
    exact if_neg hne
  obtain ⟨active, hactive, hview⟩ := hlogout
  have hopen' : (T.view (C.logout s.token s.session).1).isOpen s.session = true := by
    rw [hview]
    exact hopen
  rw [hcall]
  refine ⟨rfl, rfl, active, hactive, ?_⟩
  obtain ⟨hrv, -⟩ | ⟨-, loggedIn, hin, -, hclosed⟩ :=
    T.closeSession (C.logout s.token s.session).1 s.session
  · exact absurd (T.closeSession_ok hopen') hrv
  · rw [hview] at hin hclosed
    have hout : loggedIn = false := Bool.eq_false_iff.mpr fun hlogin => by cases hin hlogin
    rw [hout] at hclosed
    exact hclosed

end SoftHsm

namespace SoftHsm
open Node Pkcs11Hsm
variable {τ : Type} {C : Cryptoki τ} (T : Token C) (ssl : Evp)

/-- The key objects of an instance. -/
def keyObjects : KeyObjects (hsm T ssl) where
  key s := keyValue T s.1
  wrap := T.wrap
  unwrap := T.unwrap
  generateKey_creates s type label :=
    s.2.creates (generateKey_created T s.1 type label) fun _ _ _ => trivial
  importRaw_creates s keyBytes label :=
    s.2.creates (importRaw_created T s.1 keyBytes label) fun _ _ hvalue => hvalue
  unwrapKey_creates s kek wrapped :=
    s.2.creates (unwrapKey_created T s.1 kek wrapped) fun husable _ ⟨k, hk, hvalue⟩ =>
      ⟨k.value, keyValue_eq_some_iff.mpr ⟨husable, k, hk, rfl⟩, hvalue⟩
  wrapKey_key s kek h :=
    keyValue_of_view (wrapKey_view T s.1 kek h).1.session (wrapKey_view T s.1 kek h).2
  wrapKey_value := wrapKey_value
  destroyKey_key _ h := keyValue_destroyObject h

/-- Over every token an instance is the engine that the key managers and the nodes rely on. From
its construction on, between two calls, no operation is active in its session and each key can be
used for everything. Decryption leaves no trace. What is exported is the key, and every key can be
exported. What is encrypted under a key decrypts under it, and what is wrapped under a key can be
unwrapped under it, in whatever state and session it is then. -/
theorem hsm_laws :
    (∀ ivs t t' session, (T.view t).Sound T.isPrivate →
      (∀ h k, (T.view t).key h = some k → Pkcs11Hsm.usage false ⊆ k.template) →
      new C ivs t = (t', .ok session) → WellFormed T ⟨session, t'⟩) ∧
    DecryptsPurely (hsm T ssl) ∧ ExportsKeys (keyObjects T ssl) ∧
    OpensSealed (keyObjects T ssl) ∧
    (∀ s h v, (keyObjects T ssl).key s h = some v →
      ((hsm T ssl).exportRaw s h).2 = .ok (some v)) ∧
    ∀ s kek h k v, (keyObjects T ssl).key s kek = some k → (keyObjects T ssl).key s h = some v →
      ∃ wrapped, ((hsm T ssl).wrapKey s kek h).2 = .ok (some wrapped) ∧
        ∀ s' kek', (keyObjects T ssl).key s' kek' = some k →
          ∃ h', ((hsm T ssl).unwrapKey s' kek' wrapped).2 = .ok (some h') ∧
            (keyObjects T ssl).key ((hsm T ssl).unwrapKey s' kek' wrapped).1 h' = some v := by
  refine ⟨fun ivs t t' session hsound husage hnew => .of_new hsound (husage _ _) hnew,
    fun s h ciphertext => ?_, fun s h => ⟨?_, fun raw hraw => exportRaw_value hraw⟩, ?_,
    fun s h v hv => s.2.exportRaw_ok hv, fun s kek h k v hk hv => ?_⟩
  · obtain ⟨plaintext, hcall⟩ := decrypt_pure T s.1 h ciphertext
    have hstate : (decrypt C s.1 h ciphertext).1 = s.1 := congrArg Prod.fst hcall
    have hresult : (decrypt C s.1 h ciphertext).2 = .ok plaintext := congrArg Prod.snd hcall
    exact ⟨plaintext, Prod.ext (Subtype.ext hstate) hresult⟩
  · exact keyValue_of_view (exportRaw_view T s.1 h).1.session (exportRaw_view T s.1 h).2
  · intro s h plaintext ciphertext s' h' hok hlive hsame
    obtain ⟨v, hv⟩ := Option.isSome_iff_exists.mp hlive
    exact s'.2.decrypt_ok hok hv (hsame.trans hv)
  · refine ⟨_, s.2.wrapKey_ok hk hv, fun s' kek' hk' => ?_⟩
    obtain ⟨-, key, hkey, rfl⟩ := keyValue_eq_some_iff.mp hk
    obtain ⟨-, key', hkey', rfl⟩ := keyValue_eq_some_iff.mp hv
    exact s'.2.unwrapKey_ok hk' (T.unwrap_wrap hkey hkey')

/-- An instance is constructed and two keys are imported. What is encrypted under the first
decrypts under it, it can be exported, and it is wrapped under the second and unwrapped again. -/
theorem hsm_laws_listToken :
    let blank : ListToken := ⟨[], [], fun _ => none, false⟩
    let ivs := fun _ => some (Vector.replicate 12 9)
    ∃ session t', new ListToken.calls ivs blank = (t', .ok session) ∧
      ∃ hs : WellFormed ListToken.token ⟨session, t'⟩,
        let E := hsm ListToken.token toySsl
        let s₁ := (E.importRaw ⟨_, hs⟩ (List.replicate 32 1) "tek").1
        let s := (E.importRaw s₁ (List.replicate 32 2) "kek").1
        (∃ ct, (E.encrypt s 1 [1, 2, 3]).2 = .ok (some ct) ∧
          (E.decrypt (E.encrypt s 1 [1, 2, 3]).1 1 ct).2 = .ok (some [1, 2, 3])) ∧
        (E.exportRaw s 1).2 = .ok (some (List.replicate 32 1)) ∧
        ∃ wrapped, (E.wrapKey s 2 1).2 = .ok (some wrapped) ∧
          ∃ h, (E.unwrapKey s 2 wrapped).2 = .ok (some h) ∧
            (keyObjects ListToken.token toySsl).key (E.unwrapKey s 2 wrapped).1 h =
              some (List.replicate 32 1) := by
  obtain ⟨hnew, -, -, hopens, hexports, hwraps⟩ := hsm_laws ListToken.token toySsl
  have hkey : ∀ h, ListToken.key ⟨[], [], fun _ => none, false⟩ h = none := by
    rintro (_ | _) <;> rfl
  have hnone : ∀ {h k}, (ListToken.token.view ⟨[], [], fun _ => none, false⟩).key h = some k →
      False := by
    intro h k hk
    have hsome := (hkey h).symm.trans hk
    cases hsome
  have hs := hnew (fun _ => some (Vector.replicate 12 9)) ⟨[], [], fun _ => none, false⟩ _ _
    ⟨fun hk => (hnone hk).elim, fun hk => (hnone hk).elim, fun _ hk => (hnone hk).elim,
      fun _ => rfl, rfl⟩ (fun h k hk => (hnone hk).elim) rfl
  refine ⟨_, _, rfl, hs, ⟨_, rfl, hopens _ _ _ _ _ _ rfl rfl rfl⟩, hexports _ _ _ rfl, ?_⟩
  refine (hwraps _ 2 1 (List.replicate 32 2) (List.replicate 32 1) ?_ ?_).imp
    fun wrapped hwrapped => ⟨hwrapped.1, hwrapped.2 _ 2 ?_⟩
  all_goals rfl

end SoftHsm
end Cirradio.Security
