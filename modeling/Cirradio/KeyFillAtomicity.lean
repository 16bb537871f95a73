import Cirradio.KeyFillAuthentication
import Cirradio.KeyMaterial

/-!
# What a fill session leaves of the keys

A session installs the three keys of a block one after the other. Up to the block it
leaves the keys alone, however it ends; an engine that takes the first key and refuses
another leaves a radio with keys of two fills.
-/

namespace Cirradio.Security
open EarlyExit

universe u

namespace KeyManager
variable {σ : Type u} {E : IHsmEngine σ} {K : KeyObjects E}

/-- The same handles, the same objects and the same epoch. -/
structure SameKeys (K : KeyObjects E) (m m' : KeyManager σ) : Prop where
  handle : m'.handle = m.handle
  key : K.key m'.hsm = K.key m.hsm
  keyEpoch : m'.keyEpoch = m.keyEpoch

variable {m m' m'' : KeyManager σ}

theorem SameKeys.trans (h : SameKeys K m m') (h' : SameKeys K m' m'') : SameKeys K m m'' :=
  ⟨h'.handle.trans h.handle, h'.key.trans h.key, h'.keyEpoch.trans h.keyEpoch⟩

theorem SameKeys.material (h : SameKeys K m m') : material K m' = material K m := by
  unfold KeyManager.material
  rw [h.handle, h.key, h.keyEpoch]

theorem SameKeys.owns (h : SameKeys K m m') (hm : Owns K m) : Owns K m' :=
  (hm.of_handle_eq h.handle fun _ _ _ => congrFun h.key _).1

theorem importInto_error {slot : KeySlot} {label : String} {key : Bytes} {e : String}
    (h : importInto E slot label key m = (m', .error e)) : SameKeys K m m' := by
  have hcreates := K.importRaw_creates m.hsm key label
  unfold importInto importRawOrThrow at h
  generalize E.importRaw m.hsm key label = r at hcreates h
  rcases r with ⟨hsm, e' | _ | created⟩
  · cases h
    exact ⟨handle_hsm m hsm m.keyEpoch, hcreates, rfl⟩
  · cases h
    exact ⟨handle_hsm m hsm m.keyEpoch, hcreates, rfl⟩
  · cases h

theorem importInto_ok (K : KeyObjects E) {slot : KeySlot} {label : String} {key : Bytes}
    (h : importInto E slot label key m = (m', .ok ())) :
    ∃ created, K.key m.hsm created = none ∧
      m'.handle = Function.update m.handle slot (some created) := by
  have hcreates := K.importRaw_creates m.hsm key label
  unfold importInto importRawOrThrow at h
  generalize E.importRaw m.hsm key label = r at hcreates h
  rcases r with ⟨hsm, e' | _ | created⟩
  · cases h
  · cases h
  · cases h
    obtain ⟨-, hfresh, -⟩ := hcreates
    exact ⟨created, hfresh, (handle_assign _ slot created).trans
      (congrArg (Function.update · slot (some created)) (handle_hsm m hsm m.keyEpoch))⟩

end KeyManager

namespace KeyFillPort
open KeyManager

variable {σ : Type} {ssl : OpenSsl} {E : IHsmEngine σ} {p p' q q' : KeyFillPort σ}

/-- The frames of a session up to the encrypted block. -/
def exchange (ssl : OpenSsl) (deviceNonce : RandBytes 32) : Fill σ Bytes := do
  receiveHello
  sendNonce deviceNonce
  let gunPubkeyDer ← receiveIdentity
  sendDevAttest
  receiveGunAttest ssl gunPubkeyDer
  receiveKeyBlock ssl gunPubkeyDer

/-- The session up to the encrypted block. -/
def receiveBlock (ssl : OpenSsl) (deviceNonce : RandBytes 32) : Fill σ Bytes := do
  if (← get).fd < 0 then throw .refused
  modify clearSession
  exchange ssl deviceNonce

/-- What the session does with the encrypted block. -/
def installBlock (E : IHsmEngine σ) (eciesPayload : Bytes) : Fill σ Unit := do
  let plaintext ← decryptKeyBlock E eciesPayload
  loadKeys E plaintext
  sendAck

theorem session_eq (deviceNonce : RandBytes 32) :
    session ssl E deviceNonce = receiveBlock ssl deviceNonce >>= installBlock E := by
  unfold session receiveBlock exchange installBlock
  simp only [bind_assoc]
  congr 1
  funext p
  split
  · rfl
  · simp only [bind_assoc]

/-- The same key manager, and the same identity key. -/
def SameEngine (p p' : KeyFillPort σ) : Prop := p'.km = p.km ∧ p'.ikHandle = p.ikHandle

theorem SameEngine.refl (p : KeyFillPort σ) : SameEngine p p := ⟨rfl, rfl⟩

theorem SameEngine.trans {p p' p'' : KeyFillPort σ} (h : SameEngine p p')
    (h' : SameEngine p' p'') : SameEngine p p'' := ⟨h'.1.trans h.1, h'.2.trans h.2⟩

theorem sendFrame_sameEngine (type : FillMsgType) (payload : Bytes) (p : KeyFillPort σ) :
    SameEngine p (sendFrame type payload p).2 := by
  obtain ⟨writes, sent, heq⟩ := sendFrame_eq type payload p
  rw [heq]
  exact ⟨rfl, rfl⟩

section SameEngine
variable {α β : Type}

theorem keeps_get : Keeps SameEngine (get : Fill σ (KeyFillPort σ)) := .refl

theorem keeps_modify {f : KeyFillPort σ → KeyFillPort σ} (h : ∀ p, SameEngine p (f p)) :
    Keeps SameEngine (modify f : Fill σ Unit) := h

theorem keeps_nak : Keeps SameEngine (nak : Fill σ α) := fun p =>
  (sendFrame_sameEngine .nak [0xFF] p).trans ⟨rfl, rfl⟩

theorem keeps_then {x : Fill σ α} {f : α → Fill σ β} (hx : Keeps SameEngine x)
    (hf : ∀ a, Keeps SameEngine (f a)) : Keeps SameEngine (x >>= f) :=
  hx.bind (fun h h' => h.trans h') hf

theorem keeps_setState (state : FillState) : Keeps SameEngine (setState state : Fill σ Unit) :=
  keeps_modify fun _ => ⟨rfl, rfl⟩

theorem keeps_return (a : α) : Keeps SameEngine (pure a : Fill σ α) := keeps_pure .refl a

theorem keeps_throw (exit : FillExit) : Keeps SameEngine (throw exit : Fill σ α) := .refl

theorem keeps_sendOrRefuse (type : FillMsgType) (payload : Bytes) :
    Keeps SameEngine (sendOrRefuse type payload : Fill σ Unit) := by
  intro p
  have hsent := sendFrame_sameEngine type payload p
  unfold sendOrRefuse
  generalize sendFrame type payload p = r at hsent ⊢
  rcases r with ⟨_ | _, p'⟩
  · exact hsent
  · exact hsent

theorem keeps_expectFrame (type : FillMsgType) :
    Keeps SameEngine (expectFrame type : Fill σ Bytes) := by
  intro p
  have hset : ∀ incoming, SameEngine p { p with incoming } := fun _ => ⟨rfl, rfl⟩
  have hget : (get : Fill σ (KeyFillPort σ)) p = .ok p p := rfl
  unfold expectFrame
  rw [bind_of_ok hget]
  rcases if p.fd < 0 then (none, p.incoming) else recvFrame p.incoming with
    ⟨_ | frame, incoming⟩
  · exact (hset incoming).trans (keeps_nak _)
  · exact (hset incoming).trans (keeps_nak.ite (keeps_return frame.payload) _)

theorem keeps_receiveHello : Keeps SameEngine (receiveHello : Fill σ Unit) :=
  keeps_then (keeps_expectFrame .hello) fun _ =>
    keeps_nak.ite (keeps_then (keeps_modify fun _ => ⟨rfl, rfl⟩) fun _ => keeps_setState _)

theorem keeps_sendNonce (deviceNonce : RandBytes 32) :
    Keeps SameEngine (sendNonce deviceNonce : Fill σ Unit) :=
  keeps_then (keeps_modify fun _ => ⟨rfl, rfl⟩) fun _ =>
    keeps_then (keeps_sendOrRefuse _ _) fun _ => keeps_setState _

theorem keeps_receiveIdentity : Keeps SameEngine (receiveIdentity : Fill σ Bytes) :=
  keeps_then (keeps_expectFrame .identity) fun _ => keeps_then keeps_get fun _ =>
    keeps_nak.ite (keeps_then (keeps_setState _) fun _ => keeps_return _)

theorem keeps_sendDevAttest : Keeps SameEngine (sendDevAttest : Fill σ Unit) :=
  keeps_then keeps_get fun _ =>
    keeps_then (keeps_sendOrRefuse _ _) fun _ => keeps_setState _

theorem keeps_receiveGunAttest (gunPubkeyDer : Bytes) :
    Keeps SameEngine (receiveGunAttest ssl gunPubkeyDer : Fill σ Unit) :=
  keeps_then (keeps_expectFrame .gunAttest) fun _ => keeps_then keeps_get fun _ =>
    keeps_nak.ite (keeps_setState _)

theorem keeps_receiveKeyBlock (gunPubkeyDer : Bytes) :
    Keeps SameEngine (receiveKeyBlock ssl gunPubkeyDer : Fill σ Bytes) :=
  keeps_then (keeps_expectFrame .keyBlock) fun _ =>
    keeps_nak.ite (keeps_nak.ite (keeps_return _))

theorem keeps_exchange (deviceNonce : RandBytes 32) :
    Keeps SameEngine (exchange ssl deviceNonce : Fill σ Bytes) := by
  refine keeps_then keeps_receiveHello fun _ => ?_
  refine keeps_then (keeps_sendNonce deviceNonce) fun _ => ?_
  refine keeps_then keeps_receiveIdentity fun gunPubkeyDer => ?_
  refine keeps_then keeps_sendDevAttest fun _ => ?_
  exact keeps_then (keeps_receiveGunAttest gunPubkeyDer) fun _ =>
    keeps_receiveKeyBlock gunPubkeyDer

theorem keeps_receiveBlock (deviceNonce : RandBytes 32) :
    Keeps SameEngine (receiveBlock ssl deviceNonce : Fill σ Bytes) := by
  have hopen : Keeps SameEngine
      (modify clearSession >>= fun _ => exchange ssl deviceNonce : Fill σ Bytes) :=
    keeps_then (keeps_modify fun _ => ⟨rfl, rfl⟩) fun _ => keeps_exchange deviceNonce
  exact keeps_then keeps_get fun _ => .ite (keeps_then (keeps_throw _) fun _ => hopen) hopen

end SameEngine

/-- Decrypting a block leaves the key objects alone. -/
def EciesKeeps (K : KeyObjects E) : Prop :=
  ∀ s h payload, K.key (E.eciesDecrypt s h payload).1 = K.key s

section Block
variable {K : KeyObjects E}

theorem sameKeys_eciesDecrypt (hecies : EciesKeeps K) (m : KeyManager σ) (h : CkHandle)
    (payload : Bytes) : SameKeys K m { m with hsm := (E.eciesDecrypt m.hsm h payload).1 } :=
  ⟨handle_hsm m _ m.keyEpoch, hecies m.hsm h payload, rfl⟩

/-- A block that is not decrypted to 96 bytes changes no key. -/
theorem decryptKeyBlock_error (hecies : EciesKeeps K) {eciesPayload : Bytes} {exit : FillExit}
    (h : decryptKeyBlock E eciesPayload p = .error exit p') :
    SameKeys K p.km p'.km ∧ ∀ hsm plaintext,
      E.eciesDecrypt p.km.hsm p.ikHandle eciesPayload = (hsm, .ok (some plaintext)) →
        plaintext.length ≠ 96 := by
  have hsame := sameKeys_eciesDecrypt hecies p.km p.ikHandle eciesPayload
  have hnak : ∀ {km : KeyManager σ} {exit : FillExit},
      (nak : Fill σ Bytes) { p with km } = .error exit p' → p'.km = km := fun hexit =>
    (keeps_nak.error hexit).1
  rcases bind_eq_error.mp h with hget | ⟨_, _, hget, h⟩
  · cases hget
  cases hget
  rcases hdec : E.eciesDecrypt p.km.hsm p.ikHandle eciesPayload with ⟨hsm, what | _ | plain⟩
  all_goals
    rw [hdec] at h hsame
    rcases bind_eq_error.mp h with hset | ⟨_, _, hset, h⟩
    · cases hset
    cases hset
  · cases h
    exact ⟨hsame, fun _ _ heq => nomatch heq⟩
  · rw [hnak h]
    exact ⟨hsame, fun _ _ heq => nomatch heq⟩
  · dsimp only at h
    split_ifs at h with hlen
    · rw [hnak h]
      refine ⟨hsame, fun _ _ heq => ?_⟩
      cases heq
      exact hlen
    · cases h

theorem callKeyManager_error {call : KeyManager σ → KeyManager σ × Throws Unit}
    {exit : FillExit} (h : callKeyManager call p = .error exit p') :
    ∃ what, call p.km = (p'.km, .error what) ∧ exit = .threw what := by
  unfold callKeyManager at h
  rcases hcall : call p.km with ⟨km, what | ⟨⟩⟩
  · rw [hcall] at h
    cases h
    exact ⟨what, rfl, rfl⟩
  · rw [hcall] at h
    cases h

/-- The engine takes the KEK of a block, and refuses its TEK or its FHEK. -/
def PartlyRefused (E : IHsmEngine σ) (plaintext : Bytes) (km : KeyManager σ) : Prop :=
  (KeyManager.setKekRaw E (plaintext.take 32) km).2 = .ok () ∧
    ∀ km', ¬ KeysSet E plaintext km km'

/-- A block that is not installed has changed nothing if its KEK was refused, and has
replaced the KEK otherwise. -/
theorem loadKeys_error {plaintext : Bytes} {exit : FillExit} (hm : Owns K p.km)
    (h : loadKeys E plaintext p = .error exit p') :
    (∃ what, exit = .threw what) ∧
      ((SameKeys K p.km p'.km ∧ ¬ PartlyRefused E plaintext p.km) ∨
        (p'.km.handle ≠ p.km.handle ∧ PartlyRefused E plaintext p.km)) := by
  have hfresh : ∀ {created} {handle : KeySlot → Option CkHandle},
      K.key p.km.hsm created = none → handle .kek = some created → handle ≠ p.km.handle := by
    intro created handle hnone hkek heq
    rw [heq] at hkek
    exact hm.unheld_of_fresh hnone .kek hkek
  rcases bind_eq_error.mp h with hcall | ⟨_, p₁, hcall, h⟩
  · obtain ⟨what, hkek, rfl⟩ := callKeyManager_error hcall
    refine ⟨⟨what, rfl⟩, .inl ⟨importInto_error hkek, fun hpartly => ?_⟩⟩
    have hok := hpartly.1
    rw [hkek] at hok
    cases hok
  obtain ⟨km₁, hkek, rfl⟩ := callKeyManager_ok hcall
  obtain ⟨created, hnone, hhandle₁⟩ := importInto_ok K hkek
  have hpartly : (∀ km', ¬ KeysSet E plaintext p.km km') → PartlyRefused E plaintext p.km :=
    fun hnot => ⟨congrArg Prod.snd hkek, hnot⟩
  rcases bind_eq_error.mp h with hcall | ⟨_, p₂, hcall, h⟩
  · obtain ⟨what, htek, rfl⟩ := callKeyManager_error hcall
    refine ⟨⟨what, rfl⟩, .inr ⟨?_, hpartly ?_⟩⟩
    · apply hfresh hnone
      rw [(importInto_error htek (K := K)).handle, hhandle₁, Function.update_self]
    · rintro km' ⟨_, _, hkek', htek', -⟩
      cases hkek.symm.trans hkek'
      cases htek.symm.trans htek'
  obtain ⟨km₂, htek, rfl⟩ := callKeyManager_ok hcall
  obtain ⟨_, -, hhandle₂⟩ := importInto_ok K htek
  rcases bind_eq_error.mp h with hcall | ⟨_, p₃, hcall, h⟩
  · obtain ⟨what, hfhek, rfl⟩ := callKeyManager_error hcall
    refine ⟨⟨what, rfl⟩, .inr ⟨?_, hpartly ?_⟩⟩
    · apply hfresh hnone
      rw [(importInto_error hfhek (K := K)).handle, hhandle₂,
        Function.update_of_ne (by decide), hhandle₁, Function.update_self]
    · rintro km' ⟨_, _, hkek', htek', hfhek'⟩
      cases hkek.symm.trans hkek'
      cases htek.symm.trans htek'
      cases hfhek.symm.trans hfhek'
  · cases h

/-- The keys of a block. -/
def blockKeys (plaintext : Bytes) : KeySlot → Option Bytes
  | .kek => some (plaintext.take 32)
  | .tek => some ((plaintext.drop 32).take 32)
  | .fhek => some (plaintext.drop 64)

theorem KeysSet.material {plaintext : Bytes} {km km' : KeyManager σ} (hm : Owns K km)
    (h : KeysSet E plaintext km km') : (material K km').key = blockKeys plaintext := by
  obtain ⟨km₁, km₂, hkek, htek, hfhek⟩ := h
  have hinstalled : ∀ {slot label key} {m m' : KeyManager σ}, Owns K m →
      importInto E slot label key m = (m', .ok ()) →
      Owns K m' ∧ KeyManager.material K m' = (KeyManager.material K m).install slot key := by
    intro slot label key m m' hm hcall
    have hfills := hm.importInto slot label key
    rw [hcall] at hfills
    obtain ⟨howns, ⟨_, herror, -⟩ | ⟨-, _, rfl, hmat⟩⟩ := hfills
    · cases herror
    · exact ⟨howns, hmat⟩
  obtain ⟨hm₁, hmat₁⟩ := hinstalled hm hkek
  obtain ⟨hm₂, hmat₂⟩ := hinstalled hm₁ htek
  obtain ⟨-, hmat₃⟩ := hinstalled hm₂ hfhek
  rw [hmat₃, hmat₂, hmat₁]
  funext slot
  cases slot <;> rfl

/-- A session that returns true has put the keys of the block it received in the three
slots; one that returns false or throws has left handles, keys and epoch as they were. -/
structure AllOrNothing (K : KeyObjects E) (ssl : OpenSsl) (deviceNonce : RandBytes 32)
    (p : KeyFillPort σ) : Prop where
  all {p' : KeyFillPort σ} : runSession ssl E deviceNonce p = (p', .ok true) →
    ∃ (g : GunFrames) (hsm : σ) (plaintext : Bytes), receivedFrames 4 p.incoming = g.toList ∧
      E.eciesDecrypt p.km.hsm p.ikHandle g.eciesPayload = (hsm, .ok (some plaintext)) ∧
      plaintext.length = 96 ∧ (material K p'.km).key = blockKeys plaintext
  nothing {p' : KeyFillPort σ} {result : Throws Bool} :
    runSession ssl E deviceNonce p = (p', result) → result ≠ .ok true →
      p'.km.handle = p.km.handle ∧ material K p'.km = material K p.km

/-- The session gets as far as a decrypted block of 96 bytes, and the engine takes its KEK
and refuses its TEK or its FHEK. -/
def HalfFilled (ssl : OpenSsl) (E : IHsmEngine σ) (deviceNonce : RandBytes 32)
    (p : KeyFillPort σ) : Prop :=
  ∃ eciesPayload p₁ hsm plaintext, receiveBlock ssl deviceNonce p = .ok eciesPayload p₁ ∧
    E.eciesDecrypt p.km.hsm p.ikHandle eciesPayload = (hsm, .ok (some plaintext)) ∧
    plaintext.length = 96 ∧ PartlyRefused E plaintext { p.km with hsm }

theorem runSession_of_error {deviceNonce : RandBytes 32} {exit : FillExit}
    (h : session ssl E deviceNonce p = .error exit p') :
    ∃ result, runSession ssl E deviceNonce p = (p', result) ∧ result ≠ .ok true := by
  unfold runSession
  rw [h]
  cases exit with
  | refused => exact ⟨_, rfl, by decide⟩
  | threw what => exact ⟨_, rfl, fun heq => nomatch heq⟩

theorem allOrNothing_of_error {deviceNonce : RandBytes 32} {exit : FillExit}
    (h : session ssl E deviceNonce p = .error exit p') :
    AllOrNothing K ssl deviceNonce p ↔
      p'.km.handle = p.km.handle ∧ material K p'.km = material K p.km := by
  obtain ⟨result, hrun, hresult⟩ := runSession_of_error h
  constructor
  · exact fun hall => hall.nothing hrun hresult
  · refine fun hsame => ⟨fun htrue => ?_, fun hother _ => ?_⟩
    · cases hrun.symm.trans htrue
      exact absurd rfl hresult
    · cases hrun.symm.trans hother
      exact hsame

theorem allOrNothing_of_ok (hecies : EciesKeeps K) {deviceNonce : RandBytes 32}
    (hm : Owns K p.km) (h : session ssl E deviceNonce p = .ok () p') :
    AllOrNothing K ssl deviceNonce p := by
  have hrun : runSession ssl E deviceNonce p = (p', .ok true) := by
    unfold runSession
    rw [h]
  refine ⟨fun htrue => ?_, fun hother hresult => ?_⟩
  · obtain ⟨g, plaintext, hsm, hframes, -, -, -, -, heq, hlen, hset⟩ :=
      session_ok (session_of_runSession htrue)
    have hsame := sameKeys_eciesDecrypt hecies p.km p.ikHandle g.eciesPayload
    rw [heq] at hsame
    exact ⟨g, hsm, plaintext, hframes, heq, hlen, hset.material (hsame.owns hm)⟩
  · cases hrun.symm.trans hother
    exact absurd rfl hresult

theorem session_of_installBlock_error {deviceNonce : RandBytes 32} {eciesPayload : Bytes}
    {p₁ : KeyFillPort σ} {exit : FillExit}
    (hblock : receiveBlock ssl deviceNonce p = .ok eciesPayload p₁)
    (h : installBlock E eciesPayload p₁ = .error exit p') :
    session ssl E deviceNonce p = .error exit p' := by
  rw [session_eq]
  exact bind_eq_error.mpr (.inr ⟨eciesPayload, p₁, hblock, h⟩)

theorem halfFilled_iff {deviceNonce : RandBytes 32} {eciesPayload plaintext : Bytes}
    {p₁ : KeyFillPort σ} {hsm : σ}
    (hblock : receiveBlock ssl deviceNonce p = .ok eciesPayload p₁)
    (heq : E.eciesDecrypt p.km.hsm p.ikHandle eciesPayload = (hsm, .ok (some plaintext)))
    (hlen : plaintext.length = 96) :
    HalfFilled ssl E deviceNonce p ↔ PartlyRefused E plaintext { p.km with hsm } := by
  constructor
  · rintro ⟨_, _, hsm', plaintext', hok, heq', -, hpartly⟩
    cases hblock.symm.trans hok
    cases heq.symm.trans heq'
    exact hpartly
  · exact fun hpartly => ⟨_, _, hsm, plaintext, hblock, heq, hlen, hpartly⟩

theorem allOrNothing_of_no_block {deviceNonce : RandBytes 32} {exit : FillExit}
    {p₁ : KeyFillPort σ} (hblock : receiveBlock ssl deviceNonce p = .error exit p₁) :
    AllOrNothing K ssl deviceNonce p ∧ ¬ HalfFilled ssl E deviceNonce p := by
  have hsession : session ssl E deviceNonce p = .error exit p₁ := by
    rw [session_eq]
    exact bind_eq_error.mpr (.inl hblock)
  have hkm : p₁.km = p.km := ((keeps_receiveBlock deviceNonce).error hblock).1
  constructor
  · rw [allOrNothing_of_error hsession, hkm]
    exact ⟨rfl, rfl⟩
  · rintro ⟨_, _, _, _, hok, -⟩
    cases hblock.symm.trans hok

theorem allOrNothing_of_not_decrypted (hecies : EciesKeeps K) {deviceNonce : RandBytes 32}
    {eciesPayload : Bytes} {exit : FillExit} {p₁ p₂ : KeyFillPort σ}
    (hblock : receiveBlock ssl deviceNonce p = .ok eciesPayload p₁)
    (hdecrypt : decryptKeyBlock E eciesPayload p₁ = .error exit p₂) :
    AllOrNothing K ssl deviceNonce p ∧ ¬ HalfFilled ssl E deviceNonce p := by
  obtain ⟨hkm, hik⟩ := (keeps_receiveBlock deviceNonce).ok hblock
  obtain ⟨hsame, hnot⟩ := decryptKeyBlock_error hecies hdecrypt
  rw [hkm] at hsame
  rw [hkm, hik] at hnot
  constructor
  · rw [allOrNothing_of_error
      (session_of_installBlock_error hblock (bind_eq_error.mpr (.inl hdecrypt)))]
    exact ⟨hsame.handle, hsame.material⟩
  · rintro ⟨_, _, hsm, plaintext, hok, heq, hlen, -⟩
    cases hblock.symm.trans hok
    exact hnot hsm plaintext heq hlen

/-- A fill is all or nothing exactly if the engine does not take the KEK of the block and
then refuse another of its keys. -/
theorem allOrNothing_iff_not_halfFilled (hecies : EciesKeeps K) (ssl : OpenSsl)
    (deviceNonce : RandBytes 32) (hm : Owns K p.km) :
    AllOrNothing K ssl deviceNonce p ↔ ¬ HalfFilled ssl E deviceNonce p := by
  cases hblock : receiveBlock ssl deviceNonce p with
  | error exit p₁ =>
    obtain ⟨hall, hnot⟩ := allOrNothing_of_no_block hblock (K := K)
    exact iff_of_true hall hnot
  | ok eciesPayload p₁ =>
    cases hdecrypt : decryptKeyBlock E eciesPayload p₁ with
    | error exit p₂ =>
      obtain ⟨hall, hnot⟩ := allOrNothing_of_not_decrypted hecies hblock hdecrypt
      exact iff_of_true hall hnot
    | ok plaintext p₂ =>
      obtain ⟨hkm, hik⟩ := (keeps_receiveBlock deviceNonce).ok hblock
      obtain ⟨hsm, heq, hlen, rfl⟩ := decryptKeyBlock_ok hdecrypt
      rw [hkm, hik] at heq
      rw [hkm] at hdecrypt
      have hsame := sameKeys_eciesDecrypt hecies p.km p.ikHandle eciesPayload
      rw [heq] at hsame
      rw [halfFilled_iff hblock heq hlen]
      cases hload : loadKeys E plaintext { p₁ with km := { p.km with hsm } } with
      | error exit p₃ =>
        have hinstall : installBlock E eciesPayload p₁ = .error exit p₃ :=
          bind_eq_error.mpr (.inr ⟨plaintext, _, hdecrypt, bind_eq_error.mpr (.inl hload)⟩)
        rw [allOrNothing_of_error (session_of_installBlock_error hblock hinstall)]
        obtain ⟨-, ⟨hsame', hnot⟩ | ⟨hchanged, hpartly⟩⟩ := loadKeys_error (hsame.owns hm) hload
        · have hall := hsame.trans hsame'
          exact iff_of_true ⟨hall.handle, hall.material⟩ hnot
        · exact iff_of_false (fun h => hchanged (h.1.trans hsame.handle.symm))
            (not_not.mpr hpartly)
      | ok u p₃ =>
        obtain ⟨km, hset, rfl⟩ := loadKeys_ok hload
        obtain ⟨p₄, hinstall⟩ : ∃ p₄, installBlock E eciesPayload p₁ = .ok () p₄ :=
          ⟨_, bind_eq_ok.mpr ⟨plaintext, _, hdecrypt, bind_eq_ok.mpr ⟨u, _, hload, rfl⟩⟩⟩
        have hok : session ssl E deviceNonce p = .ok () p₄ := by
          rw [session_eq]
          exact bind_eq_ok.mpr ⟨eciesPayload, p₁, hblock, hinstall⟩
        exact iff_of_true (allOrNothing_of_ok hecies hm hok) fun hpartly => hpartly.2 km hset

/-- A fill is all or nothing, whatever the peer does and the engine refuses. -/
def FillsAtomically : Prop :=
  ∀ (σ : Type) (E : IHsmEngine σ) (K : KeyObjects E), EciesKeeps K →
    ∀ (ssl : OpenSsl) (deviceNonce : RandBytes 32) (p : KeyFillPort σ), Owns K p.km →
      AllOrNothing K ssl deviceNonce p

/-- The table, but no TEK is imported. -/
def tekRefusingHsm : IHsmEngine (List (Option Bytes)) :=
  { tableHsm with
    importRaw := fun s bytes label =>
      if label = "tek" then (s, .ok none) else tableHsm.importRaw s bytes label }

def tekRefusingKeys : KeyObjects tekRefusingHsm where
  key := tableKey
  wrap := tableKeys.wrap
  unwrap := tableKeys.unwrap
  generateKey_creates := tableKeys.generateKey_creates
  importRaw_creates s bytes label := by
    unfold tekRefusingHsm
    simp only
    split
    · rfl
    · exact tableKeys.importRaw_creates s bytes label
  unwrapKey_creates := tableKeys.unwrapKey_creates
  wrapKey_key := tableKeys.wrapKey_key
  wrapKey_value := tableKeys.wrapKey_value
  destroyKey_key := tableKeys.destroyKey_key

theorem tekRefusingKeys_ecies : EciesKeeps tekRefusingKeys := by
  intro s h payload
  change tableKey (tableHsm.eciesDecrypt s h payload).1 = tableKey s
  unfold tableHsm
  simp only
  split <;> rfl

theorem allOrNothing_iff_unsignedPeer :
    AllOrNothing tekRefusingKeys xorSsl (Vector.replicate 32 5) unsignedPeer ↔
      ¬ HalfFilled xorSsl tekRefusingHsm (Vector.replicate 32 5) unsignedPeer :=
  allOrNothing_iff_not_halfFilled tekRefusingKeys_ecies xorSsl _ (owns_new [])

set_option maxRecDepth 4000 in
theorem tekRefusing_threw :
    ((runSession xorSsl tekRefusingHsm (Vector.replicate 32 5) unsignedPeer).1.km.kek,
      (runSession xorSsl tekRefusingHsm (Vector.replicate 32 5) unsignedPeer).2) =
      (some 1, .error "HSM does not support import_raw (production HSM path)") :=
  rfl

theorem not_fillsAtomically : ¬ FillsAtomically := by
  intro h
  have hthrew := tekRefusing_threw
  have hall := h _ _ _ tekRefusingKeys_ecies xorSsl (Vector.replicate 32 5) unsignedPeer
    (owns_new [])
  generalize hrun : runSession xorSsl tekRefusingHsm (Vector.replicate 32 5) unsignedPeer = r
    at hthrew
  rcases r with ⟨p', result⟩
  obtain ⟨hkek, rfl⟩ := Prod.mk.inj hthrew
  obtain ⟨hhandle, -⟩ := hall.nothing hrun (fun heq => nomatch heq)
  have hnone : p'.km.kek = none := congrFun hhandle .kek
  rw [hkek] at hnone
  cases hnone

end Block

end KeyFillPort
end Cirradio.Security
