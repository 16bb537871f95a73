import Cirradio.KeyHandles

/-!
# Invariants of held handles

A key manager destroys only handles that it holds, and holds only handles that the engine has given
it. So what every call of the engine keeps, as long as handles of one kind alone are destroyed, and
makes handles of that kind alone, every member function of the manager keeps.
-/

namespace Cirradio.Security

universe u
variable {σ : Type u}

/-- A call keeps the invariant and what holds of handles, which holds of the handle it creates. -/
structure Admits (I : σ → Prop) (R : σ → CkHandle → Prop) (s s' : σ)
    (created : Option CkHandle) : Prop where
  invariant : I s'
  kept {h : CkHandle} : R s h → R s' h
  fresh {h : CkHandle} : created = some h → R s' h

/-- Every call keeps the invariant and the property, if handles are destroyed that have it. -/
structure HandleInvariant (E : IHsmEngine σ) (I : σ → Prop) (R : σ → CkHandle → Prop) :
    Prop where
  generateKey {s : σ} (hs : I s) (type : KeyType) (label : String) :
    Admits I R s (E.generateKey s type label).1 (E.generateKey s type label).2.toOption
  unwrapKey {s : σ} (hs : I s) (kek : CkHandle) (wrapped : Bytes) :
    Admits I R s (E.unwrapKey s kek wrapped).1 (E.unwrapKey s kek wrapped).2.handle
  importRaw {s : σ} (hs : I s) (bytes : Bytes) (label : String) :
    Admits I R s (E.importRaw s bytes label).1 (E.importRaw s bytes label).2.handle
  encrypt {s : σ} (hs : I s) (h : CkHandle) (plaintext : Bytes) :
    Admits I R s (E.encrypt s h plaintext).1 none
  decrypt {s : σ} (hs : I s) (h : CkHandle) (ciphertext : Bytes) :
    Admits I R s (E.decrypt s h ciphertext).1 none
  wrapKey {s : σ} (hs : I s) (kek h : CkHandle) : Admits I R s (E.wrapKey s kek h).1 none
  exportRaw {s : σ} (hs : I s) (h : CkHandle) : Admits I R s (E.exportRaw s h).1 none
  destroyKey {s : σ} (hs : I s) {h : CkHandle} (hh : R s h) :
    Admits I R s (E.destroyKey s h).1 none

namespace KeyManager

/-- The invariant holds, and the property of every handle held. -/
structure Holds (I : σ → Prop) (R : σ → CkHandle → Prop) (m : KeyManager σ) : Prop where
  invariant : I m.hsm
  held {slot : KeySlot} {h : CkHandle} : m.handle slot = some h → R m.hsm h

namespace Holds
variable {E : IHsmEngine σ} {I : σ → Prop} {R : σ → CkHandle → Prop} {m : KeyManager σ}

theorem admits (hm : Holds I R m) {hsm : σ} {created : Option CkHandle}
    (ha : Admits I R m.hsm hsm created) : Holds I R { m with hsm } := by
  refine ⟨ha.invariant, fun {slot h} hs => ?_⟩
  rw [handle_hsm] at hs
  exact ha.kept (hm.held hs)

theorem set_keyEpoch (hm : Holds I R m) (epoch : UInt32) :
    Holds I R { m with keyEpoch := epoch } := by
  refine ⟨hm.invariant, fun {slot h} hs => ?_⟩
  rw [handle_hsm] at hs
  exact hm.held hs

theorem reset_admits (hE : HandleInvariant E I R) {s : σ} (hs : I s) {old : Option CkHandle}
    (hold : ∀ h, old = some h → R s h) : Admits I R s (E.reset s old) none := by
  have hsame : Admits I R s s none := ⟨hs, fun hh => hh, fun hh => by cases hh⟩
  cases old with
  | none => exact hsame
  | some h =>
    simp only [IHsmEngine.reset]
    split_ifs
    · exact hsame
    · exact hE.destroyKey hs (hold h rfl)

/-- A slot gets a handle with the property, or none, and the object it held is destroyed. -/
theorem replace (hE : HandleInvariant E I R) (hm : Holds I R m) {m' : KeyManager σ}
    {slot : KeySlot} {new : Option CkHandle} (hnew : ∀ h, new = some h → R m.hsm h)
    (hh : m'.handle = Function.update m.handle slot new)
    (hhsm : m'.hsm = E.reset m.hsm (m.handle slot)) : Holds I R m' := by
  have ha := reset_admits hE hm.invariant fun h (hs : m.handle slot = some h) => hm.held hs
  rw [← hhsm] at ha
  refine ⟨ha.invariant, fun {slot' h} hs => ?_⟩
  rw [hh] at hs
  by_cases hslot : slot' = slot
  · subst hslot
    rw [Function.update_self] at hs
    exact ha.kept (hnew h hs)
  · rw [Function.update_of_ne hslot] at hs
    exact ha.kept (hm.held hs)

theorem assign (hE : HandleInvariant E I R) (hm : Holds I R m) (slot : KeySlot) {h : CkHandle}
    (hh : R m.hsm h) : Holds I R (m.assign E slot h) := by
  refine replace hE hm ?_ (m.handle_assign (E := E) slot h) rfl
  rintro h' ⟨⟩
  exact hh

theorem resetHandle (hE : HandleInvariant E I R) (hm : Holds I R m) (slot : KeySlot) :
    Holds I R (m.resetHandle E slot) :=
  replace hE hm (fun _ he => by cases he) (m.handle_resetHandle slot) rfl

variable (hE : HandleInvariant E I R) (hm : Holds I R m)
include hE hm

theorem generateInto (slot : KeySlot) (label : String) :
    Holds I R (generateInto E slot label m).1 := by
  have ha := hE.generateKey hm.invariant .aes256 label
  unfold KeyManager.generateInto
  generalize E.generateKey m.hsm .aes256 label = r at ha ⊢
  rcases r with ⟨s, e | h⟩
  · exact hm.admits ha
  · exact assign hE (hm.admits ha) slot (ha.fresh rfl)

theorem importInto (slot : KeySlot) (label : String) (key : Bytes) :
    Holds I R (importInto E slot label key m).1 := by
  have ha := hE.importRaw hm.invariant key label
  unfold KeyManager.importInto importRawOrThrow
  generalize E.importRaw m.hsm key label = r at ha ⊢
  rcases r with ⟨s, e | _ | h⟩
  · exact hm.admits ha
  · exact hm.admits ha
  · exact assign hE (hm.admits ha) slot (ha.fresh rfl)

theorem rotateTek : Holds I R (m.rotateTek E).1 := by
  have hgen := generateInto hE hm .tek "tek"
  unfold KeyManager.rotateTek
  generalize KeyManager.generateInto E .tek "tek" m = r at hgen ⊢
  rcases r with ⟨m', e | ⟨⟩⟩
  · exact hgen
  · exact hgen.set_keyEpoch _

theorem generateOtarMessage : Holds I R (m.generateOtarMessage E).1 := by
  obtain ⟨s, kek, tek, fhek, epoch⟩ := m
  unfold KeyManager.generateOtarMessage
  rcases kek with _ | kek
  · exact hm
  rcases tek with _ | tek
  · exact hm
  rcases fhek with _ | fhek
  · exact hm
  have h₁ := hm.admits (hE.wrapKey hm.invariant kek tek)
  dsimp only at h₁ ⊢
  generalize E.wrapKey s kek tek = r₁ at h₁ ⊢
  rcases r₁ with ⟨s₁, e | wt⟩
  · exact h₁
  have h₂ := h₁.admits (hE.wrapKey h₁.invariant kek fhek)
  dsimp only at h₂ ⊢
  generalize E.wrapKey s₁ kek fhek = r₂ at h₂ ⊢
  rcases r₂ with ⟨s₂, e | wf⟩
  · exact h₂
  rcases wt with _ | wt
  · exact h₂
  rcases wf with _ | wf
  · exact h₂
  · exact h₂.set_keyEpoch _

/-- A key that has been unwrapped is installed or destroyed. -/
theorem processOtarMessage (msg : OtarMessage) : Holds I R (m.processOtarMessage E msg).1 := by
  obtain ⟨s, kek, tek, fhek, epoch⟩ := m
  unfold KeyManager.processOtarMessage
  rcases kek with _ | kek
  · exact hm
  dsimp only
  split_ifs
  · exact hm
  have ha₁ := hE.unwrapKey hm.invariant kek msg.wrappedTek
  dsimp only at ha₁ ⊢
  generalize E.unwrapKey s kek msg.wrappedTek = r₁ at ha₁ ⊢
  rcases r₁ with ⟨s₁, e | t⟩
  · exact hm.admits ha₁
  have h₁ := hm.admits ha₁
  have ha₂ := hE.unwrapKey h₁.invariant kek msg.wrappedFhek
  dsimp only at ha₂ ⊢
  generalize E.unwrapKey s₁ kek msg.wrappedFhek = r₂ at ha₂ ⊢
  rcases r₂ with ⟨s₂, e | f⟩
  · have h₂ := h₁.admits ha₂
    exact h₂.admits (reset_admits hE h₂.invariant fun h hh => ha₂.kept (ha₁.fresh hh))
  · have h₂ := h₁.admits ha₂
    have hdropped : Holds I R
        ⟨E.reset (E.reset s₂ f) t, some kek, tek, fhek, epoch⟩ := by
      have hf := reset_admits hE h₂.invariant fun h hh => ha₂.fresh hh
      exact (h₂.admits hf).admits
        (reset_admits hE hf.invariant fun h hh => hf.kept (ha₂.kept (ha₁.fresh hh)))
    rcases t with _ | t
    · exact hdropped
    rcases f with _ | f
    · exact hdropped
    · have ht := assign hE h₂ .tek (ha₂.kept (ha₁.fresh rfl))
      have hreset := reset_admits hE h₂.invariant fun h hh =>
        h₂.held (show KeyManager.handle _ .tek = some h from hh)
      exact (assign hE ht .fhek (hreset.kept (ha₂.fresh rfl))).set_keyEpoch _

theorem zeroize : Holds I R (m.zeroize E) :=
  (resetHandle hE (resetHandle hE (resetHandle hE hm .kek) .tek) .fhek).set_keyEpoch 0

theorem exportKey (slot : KeySlot) (missing declined : String) :
    Holds I R (exportKey E slot missing declined m).1 := by
  unfold KeyManager.exportKey
  split
  · exact hm
  · rename_i h hh
    have hexported := hm.admits (hE.exportRaw hm.invariant h)
    generalize E.exportRaw m.hsm h = r at hexported ⊢
    rcases r with ⟨s, e | _ | raw⟩
    · exact hexported
    · exact hexported
    · exact hexported

theorem step (op : Op) : Holds I R (step E m op).1 := by
  cases op with
  | initializeKek => exact generateInto hE hm .kek "kek"
  | setKekRaw kek => exact importInto hE hm .kek "kek" kek
  | generateTek => exact generateInto hE hm .tek "tek"
  | generateFhek => exact generateInto hE hm .fhek "fhek"
  | rotateTek => exact rotateTek hE hm
  | setTekRaw tek => exact importInto hE hm .tek "tek" tek
  | setFhekRaw fhek => exact importInto hE hm .fhek "fhek" fhek
  | generateOtarMessage => exact generateOtarMessage hE hm
  | processOtarMessage msg => exact processOtarMessage hE hm msg
  | zeroize => exact zeroize hE hm

/-- Every member function keeps the invariant and the property. -/
theorem call (c : MemberCall) : Holds I R (call E m c).1 := by
  cases c with
  | op op => exact step hE hm op
  | encryptWithTek plaintext =>
    simp only [KeyManager.call, KeyManager.encryptWithTek]
    split
    · exact hm
    · exact hm.admits (hE.encrypt hm.invariant _ plaintext)
  | decryptWithTek ciphertext =>
    simp only [KeyManager.call, KeyManager.decryptWithTek]
    split
    · exact hm
    · exact hm.admits (hE.decrypt hm.invariant _ ciphertext)
  | exportFhekForFpga => exact exportKey hE hm .fhek _ _
  | exportTekForDistribution => exact exportKey hE hm .tek _ _

end Holds
end KeyManager
end Cirradio.Security
