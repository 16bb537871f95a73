import Cirradio.KeyMaterial

/-!
# Key operations that fail

Each operation obtains what it needs from the engine before it touches a handle or the
epoch. So an operation that fails, at whichever call of the engine, leaves handles, epoch
and key objects as they were, and a message that is accepted replaces both keys.
-/

namespace Cirradio.Security
namespace KeyManager

universe u
variable {σ : Type u} {E : IHsmEngine σ}

/-- The replies of an operation that throws or rejects its message. -/
def Reply.failed : Reply → Bool
  | .threw _ => true
  | .processed accepted => !accepted
  | _ => false

/-- The same handles and epoch, and an engine with the same key objects. -/
structure Untouched (E : IHsmEngine σ) (m m' : KeyManager σ) : Prop where
  handle : m'.handle = m.handle
  keyEpoch : m'.keyEpoch = m.keyEpoch
  objects (K : KeyObjects E) : K.key m'.hsm = K.key m.hsm

/-- The keys of a newer message are installed, both of them, under the same KEK. -/
structure Replaced (E : IHsmEngine σ) (msg : OtarMessage) (m m' : KeyManager σ) : Prop where
  newer : m.keyEpoch < m'.keyEpoch
  keyEpoch : m'.keyEpoch = msg.keyEpoch
  handles : ∃ kek tek fhek hsm₁ hsm₂, m.kek = some kek ∧
    E.unwrapKey m.hsm kek msg.wrappedTek = (hsm₁, .ok (some tek)) ∧
    E.unwrapKey hsm₁ kek msg.wrappedFhek = (hsm₂, .ok (some fhek)) ∧
    m'.kek = some kek ∧ m'.tek = some tek ∧ m'.fhek = some fhek
  material (K : KeyObjects E) (hm : Owns K m) : ∃ kek tek fhek,
    (material K m).key .kek = some kek ∧ K.unwrap kek msg.wrappedTek = some tek ∧
      K.unwrap kek msg.wrappedFhek = some fhek ∧
      (KeyManager.material K m').key = Function.update
        (Function.update (KeyManager.material K m).key .tek (some tek)) .fhek (some fhek)

section Engine
variable {m : KeyManager σ}

theorem Untouched.refl (m : KeyManager σ) : Untouched E m m := ⟨rfl, rfl, fun _ => rfl⟩

theorem Untouched.engine {hsm : σ} (h : ∀ K : KeyObjects E, K.key hsm = K.key m.hsm) :
    Untouched E m { m with hsm } := ⟨handle_hsm m hsm m.keyEpoch, rfl, h⟩

theorem key_reset_of_creates (K : KeyObjects E) {s s' : σ} {values : Bytes → Prop}
    {created : Option CkHandle} (hc : Creates K.key s values s' created) :
    K.key (E.reset s' created) = K.key s := by
  cases created with
  | none => exact hc
  | some h =>
    obtain ⟨hne, hfresh, v, -, hkey⟩ := hc
    rw [IHsmEngine.reset, if_neg hne, K.destroyKey_key, hkey, Function.update_idem, ← hfresh,
      Function.update_eq_self]

theorem key_reset_congr (K : KeyObjects E) {s s' : σ} (h : K.key s = K.key s')
    (held : Option CkHandle) : K.key (E.reset s held) = K.key (E.reset s' held) := by
  cases held with
  | none => exact h
  | some a =>
    simp only [IHsmEngine.reset]
    split_ifs
    · exact h
    · rw [K.destroyKey_key, K.destroyKey_key, h]

end Engine

section Operations
variable {m : KeyManager σ}

theorem generateInto_failed {slot : KeySlot} {label what : String}
    (h : (generateInto E slot label m).2 = .error what) :
    Untouched E m (generateInto E slot label m).1 := by
  have hc := fun K : KeyObjects E => K.generateKey_creates m.hsm .aes256 label
  unfold generateInto at h ⊢
  generalize E.generateKey m.hsm .aes256 label = r at h hc ⊢
  rcases r with ⟨hsm, e | handle⟩
  · exact .engine hc
  · cases h

theorem importInto_failed {slot : KeySlot} {label what : String} {key : Bytes}
    (h : (importInto E slot label key m).2 = .error what) :
    Untouched E m (importInto E slot label key m).1 := by
  have hc := fun K : KeyObjects E => K.importRaw_creates m.hsm key label
  unfold importInto importRawOrThrow at h ⊢
  generalize E.importRaw m.hsm key label = r at h hc ⊢
  rcases r with ⟨hsm, e | _ | handle⟩
  · exact .engine hc
  · exact .engine hc
  · cases h

theorem rotateTek_failed {what : String} (h : (rotateTek E m).2 = .error what) :
    Untouched E m (rotateTek E m).1 := by
  have hfailed : ∀ e, (generateInto E .tek "tek" m).2 = .error e →
      Untouched E m (generateInto E .tek "tek" m).1 := fun _ => generateInto_failed
  unfold rotateTek at h ⊢
  generalize generateInto E .tek "tek" m = r at h hfailed ⊢
  rcases r with ⟨m', e | ⟨⟩⟩
  · exact hfailed e rfl
  · cases h

theorem generateOtarMessage_failed {what : String}
    (h : (generateOtarMessage E m).2 = .error what) :
    Untouched E m (generateOtarMessage E m).1 := by
  obtain ⟨hsm, kek, tek, fhek, epoch⟩ := m
  unfold generateOtarMessage at h ⊢
  rcases kek with _ | kek
  · exact .refl _
  rcases tek with _ | tek
  · exact .refl _
  rcases fhek with _ | fhek
  · exact .refl _
  have hk₁ := fun K : KeyObjects E => K.wrapKey_key hsm kek tek
  dsimp only at h ⊢
  generalize E.wrapKey hsm kek tek = r₁ at h hk₁ ⊢
  rcases r₁ with ⟨hsm₁, e | wt⟩
  · exact .engine hk₁
  have hk₂ := fun K : KeyObjects E => (K.wrapKey_key hsm₁ kek fhek).trans (hk₁ K)
  dsimp only at h ⊢
  generalize E.wrapKey hsm₁ kek fhek = r₂ at h hk₂ ⊢
  rcases r₂ with ⟨hsm₂, e | wf⟩
  · exact .engine hk₂
  rcases wt with _ | wt
  · exact .engine hk₂
  rcases wf with _ | wf
  · exact .engine hk₂
  · cases h

theorem failed_of_threw {α : Type} {ok : α → Reply} {r : KeyManager σ × Throws α}
    (hok : ∀ a, (ok a).failed = false) (h : ∀ what, r.2 = .error what → Untouched E m r.1) :
    (r.map id (Reply.ofThrows ok)).2.failed = true →
      Untouched E m (r.map id (Reply.ofThrows ok)).1 := by
  rcases r with ⟨m', e | a⟩
  · exact fun _ => h e rfl
  · intro hfailed
    rw [Prod.map_snd, Reply.ofThrows, hok] at hfailed
    cases hfailed

/-- What a message that is not accepted has made the engine create is destroyed again. -/
theorem processOtarMessage_failed {msg : OtarMessage}
    (h : (processOtarMessage E msg m).2 ≠ .ok true) :
    Untouched E m (processOtarMessage E msg m).1 := by
  obtain ⟨hsm, kek, tek, fhek, epoch⟩ := m
  unfold processOtarMessage at h ⊢
  rcases kek with _ | kek
  · exact .refl _
  dsimp only at h ⊢
  split_ifs at h ⊢ with hle
  · exact .refl _
  have hc₁ := fun K : KeyObjects E => K.unwrapKey_creates hsm kek msg.wrappedTek
  generalize E.unwrapKey hsm kek msg.wrappedTek = r₁ at h hc₁ ⊢
  rcases r₁ with ⟨hsm₁, e | t⟩
  · exact .engine hc₁
  have hc₂ := fun K : KeyObjects E => K.unwrapKey_creates hsm₁ kek msg.wrappedFhek
  dsimp only at h ⊢
  generalize E.unwrapKey hsm₁ kek msg.wrappedFhek = r₂ at h hc₂ ⊢
  rcases r₂ with ⟨hsm₂, e | f⟩
  · refine .engine fun K => ?_
    have hkept : K.key hsm₂ = K.key hsm₁ := hc₂ K
    rw [key_reset_congr K hkept]
    exact key_reset_of_creates K (hc₁ K)
  · have hboth : ∀ K : KeyObjects E, K.key (E.reset (E.reset hsm₂ f) t) = K.key hsm := by
      intro K
      have hkept : K.key (E.reset hsm₂ f) = K.key hsm₁ := key_reset_of_creates K (hc₂ K)
      rw [key_reset_congr K hkept]
      exact key_reset_of_creates K (hc₁ K)
    rcases t with _ | t
    · exact .engine hboth
    rcases f with _ | f
    · exact .engine hboth
    · exact absurd rfl h

/-- Both handles that the engine has returned are in their slots. -/
theorem processOtarMessage_handles {msg : OtarMessage}
    (h : (processOtarMessage E msg m).2 = .ok true) :
    m.keyEpoch < msg.keyEpoch ∧ (processOtarMessage E msg m).1.keyEpoch = msg.keyEpoch ∧
      ∃ kek tek fhek hsm₁ hsm₂, m.kek = some kek ∧
        E.unwrapKey m.hsm kek msg.wrappedTek = (hsm₁, .ok (some tek)) ∧
        E.unwrapKey hsm₁ kek msg.wrappedFhek = (hsm₂, .ok (some fhek)) ∧
        (processOtarMessage E msg m).1.kek = some kek ∧
        (processOtarMessage E msg m).1.tek = some tek ∧
        (processOtarMessage E msg m).1.fhek = some fhek := by
  obtain ⟨hsm, kek, tek, fhek, epoch⟩ := m
  unfold processOtarMessage at h ⊢
  rcases kek with _ | kek
  · cases h
  dsimp only at h ⊢
  split_ifs at h ⊢ with hle
  · cases h
  rcases h₁ : E.unwrapKey hsm kek msg.wrappedTek with ⟨hsm₁, e | t⟩
  · rw [h₁] at h
    cases h
  rw [h₁] at h
  dsimp only at h ⊢
  rcases h₂ : E.unwrapKey hsm₁ kek msg.wrappedFhek with ⟨hsm₂, e | f⟩
  · rw [h₂] at h
    cases h
  rw [h₂] at h
  rcases t with _ | t
  · cases h
  rcases f with _ | f
  · cases h
  exact ⟨UInt32.not_le.mp hle, rfl, kek, t, f, hsm₁, hsm₂, rfl, h₁, h₂, rfl, rfl, rfl⟩

theorem processOtarMessage_replaced {msg : OtarMessage}
    (h : (processOtarMessage E msg m).2 = .ok true) :
    Replaced E msg m (processOtarMessage E msg m).1 := by
  obtain ⟨hnewer, hepoch, hhandles⟩ := processOtarMessage_handles h
  refine ⟨hepoch ▸ hnewer, hepoch, hhandles, fun K hm => ?_⟩
  obtain ⟨-, ⟨hno, -⟩ | ⟨-, kek, tek, fhek, hkek, -, htek, hfhek, hmat⟩⟩ :=
    hm.processOtarMessage (E := E) msg
  · exact absurd h hno
  · exact ⟨kek, tek, fhek, hkek, htek, hfhek, congrArg KeyMaterial.key hmat⟩

/-- Whichever calls of the engine fail, an operation that throws or rejects its message
leaves handles, epoch and key objects as they were, and a message that is accepted replaces
TEK and FHEK together and moves the epoch up to its own. -/
theorem step_atomic (E : IHsmEngine σ) (m : KeyManager σ) (op : Op) :
    ((step E m op).2.failed = true → Untouched E m (step E m op).1) ∧
      ∀ msg, op = .processOtarMessage msg → (step E m op).2 = .processed true →
        Replaced E msg m (step E m op).1 := by
  constructor
  · cases op with
    | initializeKek => exact failed_of_threw (fun _ => rfl) fun _ => generateInto_failed
    | setKekRaw kek => exact failed_of_threw (fun _ => rfl) fun _ => importInto_failed
    | generateTek => exact failed_of_threw (fun _ => rfl) fun _ => generateInto_failed
    | generateFhek => exact failed_of_threw (fun _ => rfl) fun _ => generateInto_failed
    | rotateTek => exact failed_of_threw (fun _ => rfl) fun _ => rotateTek_failed
    | setTekRaw tek => exact failed_of_threw (fun _ => rfl) fun _ => importInto_failed
    | setFhekRaw fhek => exact failed_of_threw (fun _ => rfl) fun _ => importInto_failed
    | generateOtarMessage =>
      exact failed_of_threw (fun _ => rfl) fun _ => generateOtarMessage_failed
    | processOtarMessage msg =>
      intro hfailed
      refine processOtarMessage_failed fun hok => ?_
      simp only [step, Prod.map_snd, hok] at hfailed
      cases hfailed
    | zeroize =>
      intro hfailed
      cases hfailed
  · rintro msg rfl hreply
    refine processOtarMessage_replaced ?_
    simp only [step, Prod.map_snd] at hreply
    generalize (processOtarMessage E msg m).2 = r at hreply
    rcases r with e | accepted
    · cases hreply
    · cases hreply
      rfl

end Operations

end KeyManager
end Cirradio.Security
