import Cirradio.KeyManager

/-!
# Key material

What a key manager is for, apart from handles: it holds at most one key in each slot
and an epoch, and changes them in the ways `KeyMaterial.Moves` lists. A manager that
owns its key objects refines this.
-/

namespace Cirradio.Security

universe u

namespace KeyManager

inductive Op where
  | initializeKek
  | setKekRaw (kek : Bytes)
  | generateTek
  | generateFhek
  | rotateTek
  | setTekRaw (tek : Bytes)
  | setFhekRaw (fhek : Bytes)
  | generateOtarMessage
  | processOtarMessage (msg : OtarMessage)
  | zeroize
  deriving DecidableEq, Repr

inductive Reply where
  | done
  | message (msg : OtarMessage)
  | processed (accepted : Bool)
  | threw (what : String)
  deriving DecidableEq, Repr

/-- The reply that reports the result of a call. -/
def Reply.ofThrows {α : Type} (ok : α → Reply) : Throws α → Reply
  | .ok a => ok a
  | .error e => .threw e

variable {σ : Type u} (E : IHsmEngine σ)

def step (m : KeyManager σ) : Op → KeyManager σ × Reply
  | .initializeKek => (m.initializeKek E).map id (.ofThrows fun _ => .done)
  | .setKekRaw kek => (m.setKekRaw E kek).map id (.ofThrows fun _ => .done)
  | .generateTek => (m.generateTek E).map id (.ofThrows fun _ => .done)
  | .generateFhek => (m.generateFhek E).map id (.ofThrows fun _ => .done)
  | .rotateTek => (m.rotateTek E).map id (.ofThrows fun _ => .done)
  | .setTekRaw tek => (m.setTekRaw E tek).map id (.ofThrows fun _ => .done)
  | .setFhekRaw fhek => (m.setFhekRaw E fhek).map id (.ofThrows fun _ => .done)
  | .generateOtarMessage => (m.generateOtarMessage E).map id (.ofThrows .message)
  | .processOtarMessage msg => (m.processOtarMessage E msg).map id (.ofThrows .processed)
  | .zeroize => (m.zeroize E, .done)

/-- The slot that an operation fills with a key the engine draws. -/
def Op.generates : Op → Option KeySlot
  | .initializeKek => some .kek
  | .generateTek => some .tek
  | .generateFhek => some .fhek
  | _ => none

/-- The slot that an operation fills, and the given key. -/
def Op.imports : Op → Option (KeySlot × Bytes)
  | .setKekRaw kek => some (.kek, kek)
  | .setTekRaw tek => some (.tek, tek)
  | .setFhekRaw fhek => some (.fhek, fhek)
  | _ => none

end KeyManager

open KeyManager

structure KeyMaterial where
  key : KeySlot → Option Bytes
  epoch : UInt32

namespace KeyMaterial

def install (s : KeyMaterial) (slot : KeySlot) (v : Bytes) : KeyMaterial :=
  { s with key := Function.update s.key slot (some v) }

/-- Everything an operation can do to the keys and the epoch, and what it replies. -/
inductive Moves (wrap : Bytes → Bytes → Bytes) (unwrap : Bytes → Bytes → Option Bytes)
    (s : KeyMaterial) : Op → KeyMaterial → Reply → Prop where
  | threw {op} (e : String) (hop : op ≠ .zeroize) : Moves wrap unwrap s op s (.threw e)
  | generated {op slot} (v : Bytes) (hop : op.generates = some slot) :
      Moves wrap unwrap s op (s.install slot v) .done
  | imported {op slot v} (hop : op.imports = some (slot, v)) :
      Moves wrap unwrap s op (s.install slot v) .done
  | rotated (v : Bytes) :
      Moves wrap unwrap s .rotateTek { s.install .tek v with epoch := s.epoch + 1 } .done
  | wrapped {kek tek fhek} (hkek : s.key .kek = some kek) (htek : s.key .tek = some tek)
      (hfhek : s.key .fhek = some fhek) :
      Moves wrap unwrap s .generateOtarMessage { s with epoch := s.epoch + 1 }
        (.message ⟨s.epoch + 1, wrap kek tek, wrap kek fhek⟩)
  | accepted {msg kek tek fhek} (hkek : s.key .kek = some kek) (hlt : s.epoch < msg.keyEpoch)
      (htek : unwrap kek msg.wrappedTek = some tek)
      (hfhek : unwrap kek msg.wrappedFhek = some fhek) :
      Moves wrap unwrap s (.processOtarMessage msg)
        { (s.install .tek tek).install .fhek fhek with epoch := msg.keyEpoch }
        (.processed true)
  | rejected {msg} : Moves wrap unwrap s (.processOtarMessage msg) s (.processed false)
  | zeroized : Moves wrap unwrap s .zeroize ⟨fun _ => none, 0⟩ .done

end KeyMaterial

namespace KeyManager
variable {σ : Type u} {E : IHsmEngine σ}

/-- The values behind the handles. -/
def material (K : KeyObjects E) (m : KeyManager σ) : KeyMaterial :=
  ⟨fun slot => (m.handle slot).bind (K.key m.hsm), m.keyEpoch⟩

/-- Every handle held refers to a key object, and no object is held twice. -/
structure Owns (K : KeyObjects E) (m : KeyManager σ) : Prop where
  live {slot : KeySlot} {h : CkHandle} : m.handle slot = some h → (K.key m.hsm h).isSome
  distinct {slot slot' : KeySlot} {h : CkHandle} :
    m.handle slot = some h → m.handle slot' = some h → slot = slot'

/-- No slot holds the handle. -/
def Unheld (m : KeyManager σ) (h : CkHandle) : Prop := ∀ slot, m.handle slot ≠ some h

variable {K : KeyObjects E} {m : KeyManager σ}

/-- If each object is in one slot at most, and another one is put in a slot, it is so again. -/
theorem distinct_update
    (hdistinct : ∀ {slot slot' : KeySlot} {h : CkHandle},
      m.handle slot = some h → m.handle slot' = some h → slot = slot')
    {slot slot₁ slot₂ : KeySlot} {new : Option CkHandle} {h : CkHandle}
    (hnew : ∀ h, new = some h → m.Unheld h)
    (hs₁ : Function.update m.handle slot new slot₁ = some h)
    (hs₂ : Function.update m.handle slot new slot₂ = some h) : slot₁ = slot₂ := by
  by_cases h₁ : slot₁ = slot
  · by_cases h₂ : slot₂ = slot
    · rw [h₁, h₂]
    · subst h₁
      rw [Function.update_self] at hs₁
      rw [Function.update_of_ne h₂] at hs₂
      exact absurd hs₂ (hnew h hs₁ slot₂)
  · rw [Function.update_of_ne h₁] at hs₁
    by_cases h₂ : slot₂ = slot
    · subst h₂
      rw [Function.update_self] at hs₂
      exact absurd hs₁ (hnew h hs₂ slot₁)
    · rw [Function.update_of_ne h₂] at hs₂
      exact hdistinct hs₁ hs₂

theorem owns_new (hsm : σ) : Owns K (new hsm) := by
  have hnone : ∀ slot, (new hsm).handle slot = none := by
    intro slot
    cases slot <;> rfl
  constructor
  · intro slot h hs
    rw [hnone] at hs
    cases hs
  · intro slot slot' h hs
    rw [hnone] at hs
    cases hs

@[simp] theorem handle_hsm (m : KeyManager σ) (hsm : σ) (epoch : UInt32) :
    handle ⟨hsm, m.kek, m.tek, m.fhek, epoch⟩ = m.handle := by
  funext slot
  cases slot <;> rfl

/-- The objects and the keys of two managers that hold the same handles agree when the
objects behind these handles do. -/
theorem Owns.of_handle_eq (hm : Owns K m) {m' : KeyManager σ} (hh : m'.handle = m.handle)
    (hkeys : ∀ slot h, m.handle slot = some h → K.key m'.hsm h = K.key m.hsm h) :
    Owns K m' ∧ (material K m').key = (material K m).key := by
  refine ⟨⟨?_, ?_⟩, ?_⟩
  · intro slot h hs
    rw [hh] at hs
    rw [hkeys slot h hs]
    exact hm.live hs
  · intro slot slot' h hs hs'
    rw [hh] at hs hs'
    exact hm.distinct hs hs'
  · funext slot
    simp only [material, hh]
    cases hs : m.handle slot with
    | none => rfl
    | some h => exact hkeys slot h hs

theorem Owns.engine_call (hm : Owns K m) {hsm : σ}
    (hkeys : ∀ slot h, m.handle slot = some h → K.key hsm h = K.key m.hsm h) :
    Owns K { m with hsm } ∧ material K { m with hsm } = material K m := by
  obtain ⟨howns, hkey⟩ := hm.of_handle_eq (handle_hsm m hsm m.keyEpoch) hkeys
  exact ⟨howns, congrArg (KeyMaterial.mk · m.keyEpoch) hkey⟩

theorem Owns.set_keyEpoch (hm : Owns K m) (epoch : UInt32) :
    Owns K { m with keyEpoch := epoch } ∧
      material K { m with keyEpoch := epoch } = { material K m with epoch := epoch } := by
  obtain ⟨howns, hkey⟩ := hm.of_handle_eq (handle_hsm m m.hsm epoch) fun _ _ _ => rfl
  exact ⟨howns, congrArg (KeyMaterial.mk · epoch) hkey⟩

theorem Owns.unheld_of_fresh (hm : Owns K m) {h : CkHandle} (hfresh : K.key m.hsm h = none) :
    m.Unheld h := by
  intro slot hs
  have hlive := hm.live hs
  rw [hfresh] at hlive
  cases hlive

/-- A call that may create an object changes nothing here, and what it created is not
held yet. -/
theorem Owns.creates (hm : Owns K m) {values : Bytes → Prop} {hsm : σ}
    {created : Option CkHandle} (hc : Creates K.key m.hsm values hsm created) :
    (Owns K { m with hsm } ∧ material K { m with hsm } = material K m) ∧
      ∀ h, created = some h → Unheld { m with hsm } h ∧
        K.key m.hsm h = none ∧ ∃ v, values v ∧ K.key hsm h = some v := by
  cases created with
  | none =>
    have hkey : K.key hsm = K.key m.hsm := hc
    exact ⟨hm.engine_call fun _ h _ => congrFun hkey h, fun h he => by cases he⟩
  | some h =>
    obtain ⟨-, hfresh, v, hv, hkey⟩ := hc
    have hunheld := hm.unheld_of_fresh hfresh
    refine ⟨hm.engine_call ?_, ?_⟩
    · intro slot h' hs
      have hne : h' ≠ h := fun he => hunheld slot (he ▸ hs)
      rw [hkey, Function.update_of_ne hne]
    · rintro h' ⟨⟩
      refine ⟨?_, hfresh, v, hv, by rw [hkey, Function.update_self]⟩
      intro slot
      rw [handle_hsm]
      exact hunheld slot

theorem Owns.destroyed (hm : Owns K m) {held : Option CkHandle}
    (hunheld : ∀ h, held = some h → m.Unheld h) :
    Owns K { m with hsm := E.reset m.hsm held } ∧
      material K { m with hsm := E.reset m.hsm held } = material K m := by
  refine hm.engine_call fun slot h hs => K.reset_key m.hsm ?_
  intro hheld
  exact hunheld h hheld slot hs

/-- A slot gets a handle that no slot holds, or none, and the object it held is
destroyed, and no other. -/
theorem Owns.replace (hm : Owns K m) {m' : KeyManager σ} {slot : KeySlot}
    {held : Option CkHandle}
    (hnew : ∀ h, held = some h → m.Unheld h ∧ (K.key m.hsm h).isSome)
    (hh : m'.handle = Function.update m.handle slot held)
    (hhsm : m'.hsm = E.reset m.hsm (m.handle slot)) :
    Owns K m' ∧ (material K m').key =
      Function.update (material K m).key slot (held.bind (K.key m.hsm)) := by
  have hother : ∀ h, m.handle slot ≠ some h → K.key m'.hsm h = K.key m.hsm h := by
    intro h hne
    rw [hhsm]
    exact K.reset_key m.hsm hne
  have hself : ∀ h, held = some h → K.key m'.hsm h = K.key m.hsm h :=
    fun h he => hother h ((hnew h he).1 slot)
  have hkept : ∀ slot' h, slot' ≠ slot → m.handle slot' = some h →
      K.key m'.hsm h = K.key m.hsm h :=
    fun slot' h hne hs => hother h fun hs' => hne (hm.distinct hs hs')
  refine ⟨⟨?_, ?_⟩, ?_⟩
  · intro slot' h hs
    rw [hh] at hs
    by_cases hslot : slot' = slot
    · subst hslot
      rw [Function.update_self] at hs
      rw [hself h hs]
      exact (hnew h hs).2
    · rw [Function.update_of_ne hslot] at hs
      rw [hkept slot' h hslot hs]
      exact hm.live hs
  · intro slot₁ slot₂ h hs₁ hs₂
    rw [hh] at hs₁ hs₂
    exact distinct_update hm.distinct (fun h he => (hnew h he).1) hs₁ hs₂
  · funext slot'
    simp only [material, hh]
    by_cases hslot : slot' = slot
    · subst hslot
      rw [Function.update_self, Function.update_self]
      cases hs : held with
      | none => rfl
      | some h => exact hself h hs
    · rw [Function.update_of_ne hslot, Function.update_of_ne hslot]
      cases hs : m.handle slot' with
      | none => rfl
      | some h => exact hkept slot' h hslot hs

theorem Owns.assign (hm : Owns K m) (slot : KeySlot) {h : CkHandle} {v : Bytes}
    (hunheld : m.Unheld h) (hv : K.key m.hsm h = some v) :
    Owns K (m.assign E slot h) ∧
      material K (m.assign E slot h) = (material K m).install slot v := by
  have hnew : ∀ h', some h = some h' → m.Unheld h' ∧ (K.key m.hsm h').isSome := by
    rintro h' ⟨⟩
    exact ⟨hunheld, hv ▸ rfl⟩
  obtain ⟨howns, hkey⟩ := hm.replace hnew (m.handle_assign (E := E) slot h) rfl
  refine ⟨howns, ?_⟩
  rw [Option.bind_some, hv] at hkey
  have hepoch : (m.assign E slot h).keyEpoch = m.keyEpoch := m.assign_keyEpoch slot h
  exact congrArg₂ KeyMaterial.mk hkey hepoch

theorem Unheld.assign_key {h h' : CkHandle} (hunheld : m.Unheld h) (slot : KeySlot) :
    K.key (m.assign E slot h').hsm h = K.key m.hsm h := K.reset_key m.hsm (hunheld slot)

theorem Unheld.assign {h h' : CkHandle} (hunheld : m.Unheld h) (slot : KeySlot)
    (hne : h' ≠ h) : Unheld (m.assign E slot h') h := by
  intro slot'
  rw [handle_assign]
  by_cases hslot : slot' = slot
  · subst hslot
    rw [Function.update_self]
    exact fun he => hne (Option.some.inj he)
  · rw [Function.update_of_ne hslot]
    exact hunheld slot'

theorem Owns.resetHandle (hm : Owns K m) (slot : KeySlot) :
    Owns K (m.resetHandle E slot) :=
  (hm.replace (fun _ he => by cases he) (m.handle_resetHandle slot) rfl).1

/-- The outcome of filling a slot: the call threw and the keys are as before, or one of
the values is in the slot. -/
def Fills (K : KeyObjects E) (m : KeyManager σ) (slot : KeySlot) (values : Bytes → Prop)
    (r : KeyManager σ × Throws Unit) : Prop :=
  Owns K r.1 ∧
    ((∃ e, r.2 = .error e ∧ material K r.1 = material K m) ∨
      r.2 = .ok () ∧ ∃ v, values v ∧ material K r.1 = (material K m).install slot v)

theorem Owns.generateInto (hm : Owns K m) (slot : KeySlot) (label : String) :
    Fills K m slot (fun _ => True) (generateInto E slot label m) := by
  have hc := K.generateKey_creates m.hsm .aes256 label
  unfold KeyManager.generateInto
  generalize E.generateKey m.hsm .aes256 label = r at hc ⊢
  obtain ⟨⟨howns, hmat⟩, hnew⟩ := hm.creates hc
  rcases r with ⟨hsm, e | h⟩
  · exact ⟨howns, .inl ⟨e, rfl, hmat⟩⟩
  · obtain ⟨hunheld, -, v, hvalue, hv⟩ := hnew h rfl
    obtain ⟨howns', hmat'⟩ := howns.assign slot hunheld hv
    exact ⟨howns', .inr ⟨rfl, v, hvalue, by rw [hmat', hmat]⟩⟩

theorem Owns.importInto (hm : Owns K m) (slot : KeySlot) (label : String) (key : Bytes) :
    Fills K m slot (fun v => v = key) (importInto E slot label key m) := by
  have hc := K.importRaw_creates m.hsm key label
  unfold KeyManager.importInto importRawOrThrow
  generalize E.importRaw m.hsm key label = r at hc ⊢
  obtain ⟨⟨howns, hmat⟩, hnew⟩ := hm.creates hc
  rcases r with ⟨hsm, e | _ | h⟩
  · exact ⟨howns, .inl ⟨e, rfl, hmat⟩⟩
  · exact ⟨howns, .inl ⟨_, rfl, hmat⟩⟩
  · obtain ⟨hunheld, -, v, hvalue, hv⟩ := hnew h rfl
    obtain ⟨howns', hmat'⟩ := howns.assign slot hunheld hv
    exact ⟨howns', .inr ⟨rfl, v, hvalue, by rw [hmat', hmat]⟩⟩

theorem Owns.rotateTek (hm : Owns K m) :
    Owns K (m.rotateTek E).1 ∧
      ((∃ e, (m.rotateTek E).2 = .error e ∧ material K (m.rotateTek E).1 = material K m) ∨
        (m.rotateTek E).2 = .ok () ∧ ∃ v, material K (m.rotateTek E).1 =
          { (material K m).install .tek v with epoch := (material K m).epoch + 1 }) := by
  obtain ⟨howns, hcases⟩ := hm.generateInto .tek "tek" (E := E)
  unfold KeyManager.rotateTek
  generalize KeyManager.generateInto E .tek "tek" m = r at howns hcases ⊢
  rcases r with ⟨m', e | ⟨⟩⟩
  · rcases hcases with ⟨e', he, hmat⟩ | ⟨hok, -⟩
    · exact ⟨howns, .inl ⟨e, rfl, hmat⟩⟩
    · cases hok
  · rcases hcases with ⟨e', he, -⟩ | ⟨-, v, -, hmat⟩
    · cases he
    · obtain ⟨howns', hmat'⟩ := howns.set_keyEpoch (m'.keyEpoch + 1)
      refine ⟨howns', .inr ⟨rfl, v, ?_⟩⟩
      have hepoch : m'.keyEpoch = (material K m).epoch := congrArg KeyMaterial.epoch hmat
      have hmat : material K m' = (material K m).install .tek v := hmat
      rw [hmat', hmat, hepoch]

theorem Owns.generateOtarMessage (hm : Owns K m) :
    Owns K (m.generateOtarMessage E).1 ∧
      ((∃ e, (m.generateOtarMessage E).2 = .error e ∧
          material K (m.generateOtarMessage E).1 = material K m) ∨
        ∃ kek tek fhek, (material K m).key .kek = some kek ∧
          (material K m).key .tek = some tek ∧ (material K m).key .fhek = some fhek ∧
          (m.generateOtarMessage E).2 =
            .ok ⟨m.keyEpoch + 1, K.wrap kek tek, K.wrap kek fhek⟩ ∧
          material K (m.generateOtarMessage E).1 =
            { material K m with epoch := (material K m).epoch + 1 }) := by
  obtain ⟨hsm, kek, tek, fhek, epoch⟩ := m
  unfold KeyManager.generateOtarMessage
  rcases kek with _ | kek
  · exact ⟨hm, .inl ⟨_, rfl, rfl⟩⟩
  rcases tek with _ | tek
  · exact ⟨hm, .inl ⟨_, rfl, rfl⟩⟩
  rcases fhek with _ | fhek
  · exact ⟨hm, .inl ⟨_, rfl, rfl⟩⟩
  have hkey₁ := K.wrapKey_key hsm kek tek
  have hval₁ := @KeyObjects.wrapKey_value _ _ K hsm kek tek
  dsimp only
  generalize E.wrapKey hsm kek tek = r₁ at hkey₁ hval₁ ⊢
  rcases r₁ with ⟨hsm₁, e | wt⟩
  · obtain ⟨howns, hmat⟩ := hm.engine_call fun _ h _ => congrFun hkey₁ h
    exact ⟨howns, .inl ⟨e, rfl, hmat⟩⟩
  have hkey₂ := K.wrapKey_key hsm₁ kek fhek
  have hval₂ := @KeyObjects.wrapKey_value _ _ K hsm₁ kek fhek
  dsimp only
  generalize E.wrapKey hsm₁ kek fhek = r₂ at hkey₂ hval₂ ⊢
  have hkey : K.key r₂.1 = K.key hsm := hkey₂.trans hkey₁
  obtain ⟨howns, hmat⟩ := hm.engine_call fun _ h _ => congrFun hkey h
  rcases r₂ with ⟨hsm₂, e | wf⟩
  · exact ⟨howns, .inl ⟨e, rfl, hmat⟩⟩
  rcases wt with _ | wt
  · exact ⟨howns, .inl ⟨_, rfl, hmat⟩⟩
  rcases wf with _ | wf
  · exact ⟨howns, .inl ⟨_, rfl, hmat⟩⟩
  obtain ⟨k, t, hk, ht, rfl⟩ := hval₁ rfl
  obtain ⟨k', f, hk', hf, rfl⟩ := hval₂ rfl
  -- the second wrap sees the objects of the first
  rw [show K.key hsm₁ = K.key hsm from hkey₁] at hk' hf
  cases hk.symm.trans hk'
  obtain ⟨howns', hmat'⟩ := howns.set_keyEpoch (epoch + 1)
  exact ⟨howns', .inr ⟨k, t, f, hk, ht, hf, rfl, hmat'.trans (by rw [hmat]; rfl)⟩⟩

/-- Two calls that may create an object, one after the other. -/
theorem Owns.creates_pair (hm : Owns K m) {values₁ values₂ : Bytes → Prop} {hsm₁ hsm₂ : σ}
    {created₁ created₂ : Option CkHandle} (hc₁ : Creates K.key m.hsm values₁ hsm₁ created₁)
    (hc₂ : Creates K.key hsm₁ values₂ hsm₂ created₂) :
    (Owns K { m with hsm := hsm₂ } ∧ material K { m with hsm := hsm₂ } = material K m) ∧
      (∀ h, created₁ = some h → Unheld { m with hsm := hsm₂ } h ∧
        ∃ v, values₁ v ∧ K.key hsm₂ h = some v) ∧
      ∀ h, created₂ = some h → Unheld { m with hsm := hsm₂ } h ∧
        (∃ v, values₂ v ∧ K.key hsm₂ h = some v) ∧ created₁ ≠ some h := by
  obtain ⟨⟨howns₁, hmat₁⟩, hnew₁⟩ := hm.creates hc₁
  obtain ⟨⟨howns₂, hmat₂⟩, hnew₂⟩ := howns₁.creates hc₂
  have hne : ∀ h, created₂ = some h → created₁ ≠ some h := by
    intro h he₂ he₁
    obtain ⟨-, -, v, -, hv⟩ := hnew₁ h he₁
    obtain ⟨-, hfresh, -⟩ := hnew₂ h he₂
    cases hfresh.symm.trans hv
  refine ⟨⟨howns₂, hmat₂.trans hmat₁⟩, ?_, ?_⟩
  · intro h he
    obtain ⟨hunheld, -, v, hvalue, hv⟩ := hnew₁ h he
    refine ⟨hunheld, v, hvalue, ?_⟩
    -- the second object is another one
    cases created₂ with
    | none =>
      have hkey₂ : K.key hsm₂ = K.key hsm₁ := hc₂
      rw [hkey₂]
      exact hv
    | some h₂ =>
      obtain ⟨-, -, _, -, hkey₂⟩ := hc₂
      have hother : h ≠ h₂ := fun heq => hne h₂ rfl (heq ▸ he)
      rw [hkey₂, Function.update_of_ne hother]
      exact hv
  · intro h he
    obtain ⟨hunheld, -, hvalue⟩ := hnew₂ h he
    exact ⟨hunheld, hvalue, hne h he⟩

theorem Owns.destroyed_pair (hm : Owns K m) {held₁ held₂ : Option CkHandle}
    (hunheld₁ : ∀ h, held₁ = some h → m.Unheld h)
    (hunheld₂ : ∀ h, held₂ = some h → m.Unheld h) :
    Owns K { m with hsm := E.reset (E.reset m.hsm held₂) held₁ } ∧
      material K { m with hsm := E.reset (E.reset m.hsm held₂) held₁ } = material K m := by
  obtain ⟨howns, hmat⟩ := hm.destroyed hunheld₂
  obtain ⟨howns', hmat'⟩ := howns.destroyed hunheld₁
  exact ⟨howns', hmat'.trans hmat⟩

theorem Owns.assign_pair (hm : Owns K m) {tek fhek : CkHandle} {t f : Bytes}
    (htek : m.Unheld tek) (ht : K.key m.hsm tek = some t) (hfhek : m.Unheld fhek)
    (hf : K.key m.hsm fhek = some f) (hne : tek ≠ fhek) (epoch : UInt32) :
    Owns K { KeyManager.assign E (KeyManager.assign E m .tek tek) .fhek fhek with
        keyEpoch := epoch } ∧
      material K { KeyManager.assign E (KeyManager.assign E m .tek tek) .fhek fhek with
          keyEpoch := epoch } =
        { ((material K m).install .tek t).install .fhek f with epoch := epoch } := by
  obtain ⟨howns₁, hmat₁⟩ := hm.assign .tek htek ht
  obtain ⟨howns₂, hmat₂⟩ :=
    howns₁.assign .fhek (hfhek.assign .tek hne) ((hfhek.assign_key .tek).trans hf)
  obtain ⟨howns₃, hmat₃⟩ := howns₂.set_keyEpoch epoch
  exact ⟨howns₃, by rw [hmat₃, hmat₂, hmat₁]⟩

theorem Owns.processOtarMessage (hm : Owns K m) (msg : OtarMessage) :
    Owns K (m.processOtarMessage E msg).1 ∧
      ((m.processOtarMessage E msg).2 ≠ .ok true ∧
          material K (m.processOtarMessage E msg).1 = material K m ∨
        (m.processOtarMessage E msg).2 = .ok true ∧
          ∃ kek tek fhek, (material K m).key .kek = some kek ∧
            m.keyEpoch < msg.keyEpoch ∧ K.unwrap kek msg.wrappedTek = some tek ∧
            K.unwrap kek msg.wrappedFhek = some fhek ∧
            material K (m.processOtarMessage E msg).1 =
              { ((material K m).install .tek tek).install .fhek fhek with
                epoch := msg.keyEpoch }) := by
  obtain ⟨hsm, kek, tek, fhek, epoch⟩ := m
  unfold KeyManager.processOtarMessage
  rcases kek with _ | kek
  · exact ⟨hm, .inl ⟨by simp, rfl⟩⟩
  dsimp only
  split_ifs with hle
  · exact ⟨hm, .inl ⟨by simp, rfl⟩⟩
  have hc₁ := K.unwrapKey_creates hsm kek msg.wrappedTek
  generalize E.unwrapKey hsm kek msg.wrappedTek = r₁ at hc₁ ⊢
  obtain ⟨⟨howns₁, hmat₁⟩, -⟩ := hm.creates hc₁
  rcases r₁ with ⟨hsm₁, e | h₁⟩
  · exact ⟨howns₁, .inl ⟨by simp, hmat₁⟩⟩
  have hc₂ := K.unwrapKey_creates hsm₁ kek msg.wrappedFhek
  dsimp only
  generalize E.unwrapKey hsm₁ kek msg.wrappedFhek = r₂ at hc₂ ⊢
  obtain ⟨⟨howns₂, hmat₂⟩, hnew₁, hnew₂⟩ := hm.creates_pair hc₁ hc₂
  have hun₁ : ∀ h, h₁ = some h → Unheld ⟨r₂.1, some kek, tek, fhek, epoch⟩ h :=
    fun h he => (hnew₁ h he).1
  rcases r₂ with ⟨hsm₂, e | h₂⟩
  · obtain ⟨howns, hmat⟩ := howns₂.destroyed hun₁
    exact ⟨howns, .inl ⟨by simp, hmat.trans hmat₂⟩⟩
  -- with both calls back, what was unwrapped is destroyed or moved into the slots
  obtain ⟨howns, hmat⟩ := howns₂.destroyed_pair hun₁ fun h he => (hnew₂ h he).1
  rcases h₁ with _ | h₁
  · exact ⟨howns, .inl ⟨by simp, hmat.trans hmat₂⟩⟩
  rcases h₂ with _ | h₂
  · exact ⟨howns, .inl ⟨by simp, hmat.trans hmat₂⟩⟩
  obtain ⟨hunheld₁, t, ⟨k, hk, ht⟩, hv₁⟩ := hnew₁ h₁ rfl
  obtain ⟨hunheld₂, ⟨f, ⟨k', hk', hf⟩, hv₂⟩, hne⟩ := hnew₂ h₂ rfl
  have hsame : K.key hsm₁ kek = K.key hsm kek :=
    congrFun (congrArg KeyMaterial.key hmat₁) .kek
  cases hk.symm.trans (hsame.symm.trans hk')
  obtain ⟨howns₃, hmat₃⟩ := howns₂.assign_pair hunheld₁ hv₁ hunheld₂ hv₂
    (fun he => hne (congrArg some he)) msg.keyEpoch
  have hmat₂ : material K ⟨hsm₂, some kek, tek, fhek, epoch⟩ =
      material K ⟨hsm, some kek, tek, fhek, epoch⟩ := hmat₂
  rw [hmat₂] at hmat₃
  exact ⟨howns₃, .inr ⟨rfl, k, t, f, hk, UInt32.not_le.mp hle, ht, hf, hmat₃⟩⟩

theorem Owns.zeroize (hm : Owns K m) :
    Owns K (m.zeroize E) ∧ material K (m.zeroize E) = ⟨fun _ => none, 0⟩ := by
  obtain ⟨howns, hmat⟩ := (((hm.resetHandle .kek (E := E)).resetHandle .tek
    (E := E)).resetHandle .fhek (E := E)).set_keyEpoch 0
  refine ⟨howns, hmat.trans ?_⟩
  simp only [material, KeyMaterial.mk.injEq, and_true]
  funext slot
  cases slot <;> rfl

theorem Fills.moves {op : Op} {slot : KeySlot} {values : Bytes → Prop}
    {r : KeyManager σ × Throws Unit} (h : Fills K m slot values r) (hop : op ≠ .zeroize)
    (hmoves : ∀ v, values v →
      (material K m).Moves K.wrap K.unwrap op ((material K m).install slot v) .done) :
    Owns K r.1 ∧ (material K m).Moves K.wrap K.unwrap op (material K r.1)
      (Reply.ofThrows (fun _ => .done) r.2) := by
  obtain ⟨howns, ⟨e, he, hmat⟩ | ⟨hok, v, hvalue, hmat⟩⟩ := h
  · refine ⟨howns, ?_⟩
    rw [he, hmat]
    exact .threw e hop
  · refine ⟨howns, ?_⟩
    rw [hok, hmat]
    exact hmoves v hvalue

/-- One operation on a manager that owns its objects is a move of its key material, and
it still owns them. -/
theorem step_moves (hm : Owns K m) (op : Op) :
    Owns K (step E m op).1 ∧
      (material K m).Moves K.wrap K.unwrap op (material K (step E m op).1)
        (step E m op).2 := by
  have himp : ∀ {op slot key}, op.imports = some (slot, key) → ∀ v, v = key →
      (material K m).Moves K.wrap K.unwrap op ((material K m).install slot v) .done := by
    rintro op slot key hop v rfl
    exact .imported hop
  cases op with
  | initializeKek =>
    exact (hm.generateInto .kek "kek").moves (by simp) fun v _ => .generated v rfl
  | setKekRaw kek => exact (hm.importInto .kek "kek" kek).moves (by simp) (himp rfl)
  | generateTek =>
    exact (hm.generateInto .tek "tek").moves (by simp) fun v _ => .generated v rfl
  | generateFhek =>
    exact (hm.generateInto .fhek "fhek").moves (by simp) fun v _ => .generated v rfl
  | setTekRaw tek => exact (hm.importInto .tek "tek" tek).moves (by simp) (himp rfl)
  | setFhekRaw fhek => exact (hm.importInto .fhek "fhek" fhek).moves (by simp) (himp rfl)
  | rotateTek =>
    obtain ⟨howns, ⟨e, he, hmat⟩ | ⟨hok, v, hmat⟩⟩ := hm.rotateTek (E := E)
    · refine ⟨howns, ?_⟩
      simp only [step, Prod.map_fst, Prod.map_snd, id, hmat, he]
      exact .threw e (by simp)
    · refine ⟨howns, ?_⟩
      simp only [step, Prod.map_fst, Prod.map_snd, id, hmat, hok]
      exact .rotated v
  | generateOtarMessage =>
    obtain ⟨howns, ⟨e, he, hmat⟩ | ⟨kek, tek, fhek, hkek, htek, hfhek, hok, hmat⟩⟩ :=
      hm.generateOtarMessage (E := E)
    · refine ⟨howns, ?_⟩
      simp only [step, Prod.map_fst, Prod.map_snd, id, hmat, he]
      exact .threw e (by simp)
    · refine ⟨howns, ?_⟩
      simp only [step, Prod.map_fst, Prod.map_snd, id, hmat, hok]
      exact .wrapped hkek htek hfhek
  | processOtarMessage msg =>
    obtain ⟨howns, ⟨hno, hmat⟩ | ⟨hok, kek, tek, fhek, hkek, hlt, htek, hfhek, hmat⟩⟩ :=
      hm.processOtarMessage msg (E := E)
    · refine ⟨howns, ?_⟩
      simp only [step, Prod.map_fst, Prod.map_snd, id, hmat]
      rcases hr : (m.processOtarMessage E msg).2 with e | _ | _
      · exact .threw e (by simp)
      · exact .rejected
      · exact absurd hr hno
    · refine ⟨howns, ?_⟩
      simp only [step, Prod.map_fst, Prod.map_snd, id, hmat, hok]
      exact .accepted hkek hlt htek hfhek
  | zeroize =>
    obtain ⟨howns, hmat⟩ := hm.zeroize (E := E)
    refine ⟨howns, ?_⟩
    simp only [step, hmat]
    exact .zeroized

/-- A manager accepts a newer message whose blobs unwrap under its KEK. -/
theorem Owns.processOtarMessage_accepts (hm : Owns K m) (hK : K.Unwraps) {msg : OtarMessage}
    {kek tek fhek : Bytes} (hkek : (material K m).key .kek = some kek)
    (hlt : m.keyEpoch < msg.keyEpoch) (htek : K.unwrap kek msg.wrappedTek = some tek)
    (hfhek : K.unwrap kek msg.wrappedFhek = some fhek) :
    (m.processOtarMessage E msg).2 = .ok true := by
  obtain ⟨hsm, hkekHandle, tekHandle, fhekHandle, epoch⟩ := m
  rcases hkekHandle with _ | h
  · cases hkek
  have hkek : K.key hsm h = some kek := hkek
  have hc₁ := K.unwrapKey_creates hsm h msg.wrappedTek
  have hsome₁ := hK.unwrapKey_isSome hkek htek
  have hnle : ¬ msg.keyEpoch ≤ epoch := UInt32.not_le.mpr hlt
  simp only [KeyManager.processOtarMessage, if_neg hnle]
  generalize E.unwrapKey hsm h msg.wrappedTek = r₁ at hc₁ hsome₁ ⊢
  rcases r₁ with ⟨hsm₁, e | _ | h₁⟩
  · cases hsome₁
  · cases hsome₁
  have hkek₁ : K.key hsm₁ h = some kek :=
    (congrFun (congrArg KeyMaterial.key (hm.creates hc₁).1.2) .kek).trans hkek
  have hsome₂ := hK.unwrapKey_isSome hkek₁ hfhek
  dsimp only
  generalize E.unwrapKey hsm₁ h msg.wrappedFhek = r₂ at hsome₂ ⊢
  rcases r₂ with ⟨hsm₂, e | _ | h₂⟩
  · cases hsome₂
  · cases hsome₂
  · rfl

end KeyManager
end Cirradio.Security
