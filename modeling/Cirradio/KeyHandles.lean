import Cirradio.CallRuns
import Cirradio.KeyMaterial
import Cirradio.Ledgers

/-!
# Handles of key objects

The engine of a manager keeps a ledger of the key objects that it hands out and is told to
destroy. Handles are moved and never copied, so the objects that are still to be destroyed
are exactly those whose handles the manager holds.
-/

namespace Cirradio.Security
open Ledgers CallRuns

universe u
variable {σ : Type u}

abbrev KeyLedger := List (Entry CkHandle)

/-- The entry for a call that hands out a handle, none for one that does not. -/
def handedOut (h : Option CkHandle) : KeyLedger := h.toList.map .created

/-- The engine, with a ledger beside its state. -/
def IHsmEngine.logged (E : IHsmEngine σ) : IHsmEngine (σ × KeyLedger) where
  generateKey s type label :=
    let r := E.generateKey s.1 type label
    ((r.1, s.2 ++ handedOut r.2.toOption), r.2)
  encrypt s h plaintext := ((E.encrypt s.1 h plaintext).map (·, s.2) id)
  decrypt s h ciphertext := ((E.decrypt s.1 h ciphertext).map (·, s.2) id)
  wrapKey s kek h := ((E.wrapKey s.1 kek h).map (·, s.2) id)
  unwrapKey s kek wrapped :=
    let r := E.unwrapKey s.1 kek wrapped
    ((r.1, s.2 ++ handedOut r.2.handle), r.2)
  exportRaw s h := ((E.exportRaw s.1 h).map (·, s.2) id)
  importRaw s bytes label :=
    let r := E.importRaw s.1 bytes label
    ((r.1, s.2 ++ handedOut r.2.handle), r.2)
  destroyKey s h := ((E.destroyKey s.1 h).map (·, s.2 ++ [.destroyed h]) id)
  eciesDecrypt s h payload := ((E.eciesDecrypt s.1 h payload).map (·, s.2) id)

variable (E : IHsmEngine σ) (s : σ × KeyLedger)

theorem logged_generateKey (type : KeyType) (label : String) :
    E.logged.generateKey s type label = (((E.generateKey s.1 type label).1,
      s.2 ++ handedOut (E.generateKey s.1 type label).2.toOption),
      (E.generateKey s.1 type label).2) := rfl

theorem logged_unwrapKey (kek : CkHandle) (wrapped : Bytes) :
    E.logged.unwrapKey s kek wrapped = (((E.unwrapKey s.1 kek wrapped).1,
      s.2 ++ handedOut (E.unwrapKey s.1 kek wrapped).2.handle),
      (E.unwrapKey s.1 kek wrapped).2) := rfl

theorem logged_importRaw (bytes : Bytes) (label : String) :
    E.logged.importRaw s bytes label = (((E.importRaw s.1 bytes label).1,
      s.2 ++ handedOut (E.importRaw s.1 bytes label).2.handle),
      (E.importRaw s.1 bytes label).2) := rfl

theorem logged_wrapKey (kek h : CkHandle) : E.logged.wrapKey s kek h =
    (((E.wrapKey s.1 kek h).1, s.2), (E.wrapKey s.1 kek h).2) := rfl

/-- A call that hands out a handle that was not in use before, and not zero, or none. -/
def HandsOut (used : σ → Set CkHandle) (s s' : σ) : Option CkHandle → Prop
  | some h => h ≠ 0 ∧ h ∉ used s ∧ insert h (used s) ⊆ used s'
  | none => used s ⊆ used s'

/-- An engine whose handles are fresh: each is new among those ever handed out. -/
structure FreshHandles (E : IHsmEngine σ) where
  used : σ → Set CkHandle
  generateKey (s : σ) (type : KeyType) (label : String) :
    HandsOut used s (E.generateKey s type label).1 (E.generateKey s type label).2.toOption
  unwrapKey (s : σ) (kek : CkHandle) (wrapped : Bytes) :
    HandsOut used s (E.unwrapKey s kek wrapped).1 (E.unwrapKey s kek wrapped).2.handle
  importRaw (s : σ) (bytes : Bytes) (label : String) :
    HandsOut used s (E.importRaw s bytes label).1 (E.importRaw s bytes label).2.handle
  encrypt (s : σ) (h : CkHandle) (plaintext : Bytes) : used s ⊆ used (E.encrypt s h plaintext).1
  decrypt (s : σ) (h : CkHandle) (ciphertext : Bytes) :
    used s ⊆ used (E.decrypt s h ciphertext).1
  wrapKey (s : σ) (kek h : CkHandle) : used s ⊆ used (E.wrapKey s kek h).1
  exportRaw (s : σ) (h : CkHandle) : used s ⊆ used (E.exportRaw s h).1
  destroyKey (s : σ) (h : CkHandle) : used s ⊆ used (E.destroyKey s h).1

namespace KeyManager

inductive MemberCall where
  | op (op : Op)
  | encryptWithTek (plaintext : Bytes)
  | decryptWithTek (ciphertext : Bytes)
  | exportFhekForFpga
  | exportTekForDistribution
  deriving DecidableEq, Repr

/-- The manager after a call of any member function. -/
def call (E : IHsmEngine σ) (m : KeyManager σ) : MemberCall → KeyManager σ × Unit
  | .op op => ((step E m op).1, ())
  | .encryptWithTek plaintext => ((m.encryptWithTek E plaintext).1, ())
  | .decryptWithTek ciphertext => ((m.decryptWithTek E ciphertext).1, ())
  | .exportFhekForFpga => ((m.exportFhekForFpga E).1, ())
  | .exportTekForDistribution => ((m.exportTekForDistribution E).1, ())

/-- The destructor: the handles are destroyed in the reverse order of their declaration. -/
def destruct (E : IHsmEngine σ) (m : KeyManager σ) : KeyManager σ :=
  ((m.resetHandle E .fhek).resetHandle E .tek).resetHandle E .kek

def held (m : KeyManager σ) : Set CkHandle := {h | ∃ slot, m.handle slot = some h}

/-- The handles that are held once a slot has got another one, or none. -/
theorem mem_held_update {m m' : KeyManager σ} {slot : KeySlot} {new : Option CkHandle}
    (hh : m'.handle = Function.update m.handle slot new) {a : CkHandle} :
    a ∈ m'.held ↔ new = some a ∨ ∃ slot' ≠ slot, m.handle slot' = some a := by
  unfold held
  rw [hh]
  constructor
  · rintro ⟨slot', he⟩
    by_cases hslot : slot' = slot
    · subst hslot
      rw [Function.update_self] at he
      exact .inl he
    · rw [Function.update_of_ne hslot] at he
      exact .inr ⟨slot', hslot, he⟩
  · rintro (he | ⟨slot', hslot, he⟩)
    · exact ⟨slot, by rwa [Function.update_self]⟩
    · exact ⟨slot', by rwa [Function.update_of_ne hslot]⟩

/-- The live objects are those of the slots, one each, and those whose handles are in hand
while an operation runs. -/
structure Accounts {E : IHsmEngine σ} (F : FreshHandles E) (m : KeyManager (σ × KeyLedger))
    (inHand : Set CkHandle) : Prop where
  balanced : Balanced m.hsm.2 (m.held ∪ inHand)
  distinct {slot slot' : KeySlot} {h : CkHandle} :
    m.handle slot = some h → m.handle slot' = some h → slot = slot'
  unheld {h : CkHandle} : h ∈ inHand → h ∉ m.held
  used {h : CkHandle} : h ∈ created m.hsm.2 → h ≠ 0 ∧ h ∈ F.used m.hsm.1

namespace Accounts
variable {E : IHsmEngine σ} {F : FreshHandles E} {m : KeyManager (σ × KeyLedger)}
  {inHand : Set CkHandle} {h : CkHandle}

theorem new (F : FreshHandles E) (s : σ) : Accounts F (new (s, [])) ∅ := by
  have hnone : (KeyManager.new (s, ([] : KeyLedger))).held = ∅ := by
    refine Set.eq_empty_of_forall_notMem fun h hh => ?_
    obtain ⟨slot, hslot⟩ := hh
    cases slot <;> cases hslot
  refine ⟨?_, ?_, fun hh => absurd hh (Set.notMem_empty _), fun hh => absurd hh List.not_mem_nil⟩
  · rw [hnone, Set.union_empty]
    exact .nil
  · intro slot slot' h hs _
    cases slot <;> cases hs

@[simp] theorem held_hsm (m : KeyManager (σ × KeyLedger)) (hsm : σ × KeyLedger)
    (epoch : UInt32) : held ⟨hsm, m.kek, m.tek, m.fhek, epoch⟩ = m.held := by
  unfold held
  rw [handle_hsm]

theorem ne_zero (ha : Accounts F m inHand) (hh : h ∈ m.held ∪ inHand) : h ≠ 0 :=
  (ha.used (ha.balanced.mem_created hh)).1

theorem quiet (ha : Accounts F m inHand) {s : σ} (hused : F.used m.hsm.1 ⊆ F.used s) :
    Accounts F { m with hsm := (s, m.hsm.2) } inHand := by
  refine ⟨?_, ?_, ?_, fun hh => ⟨(ha.used hh).1, hused (ha.used hh).2⟩⟩
  · rw [held_hsm]
    exact ha.balanced
  · rw [handle_hsm]
    exact ha.distinct
  · rw [held_hsm]
    exact ha.unheld

theorem set_keyEpoch (ha : Accounts F m inHand) (epoch : UInt32) :
    Accounts F { m with keyEpoch := epoch } inHand := by
  refine ⟨?_, ?_, ?_, ha.used⟩
  · rw [held_hsm]
    exact ha.balanced
  · rw [handle_hsm]
    exact ha.distinct
  · rw [held_hsm]
    exact ha.unheld

theorem handsOut_none (ha : Accounts F m inHand) {s : σ}
    (hout : HandsOut F.used m.hsm.1 s none) :
    Accounts F { m with hsm := (s, m.hsm.2 ++ handedOut none) } inHand := by
  have hlog : m.hsm.2 ++ handedOut none = m.hsm.2 := List.append_nil _
  rw [hlog]
  exact ha.quiet hout

/-- A handle that is handed out is in hand. -/
theorem handsOut_some (ha : Accounts F m inHand) {s : σ}
    (hout : HandsOut F.used m.hsm.1 s (some h)) :
    h ∉ inHand ∧
      Accounts F { m with hsm := (s, m.hsm.2 ++ handedOut (some h)) } (insert h inHand) := by
  obtain ⟨hne, hfresh, hused⟩ := hout
  have hnew : h ∉ created m.hsm.2 := fun hc => hfresh (ha.used hc).2
  have hlive : h ∉ m.held ∪ inHand := fun hh => hnew (ha.balanced.mem_created hh)
  refine ⟨fun hh => hlive (.inr hh), ?_, ?_, ?_, ?_⟩
  · rw [held_hsm, Set.union_insert]
    exact ha.balanced.create hnew
  · rw [handle_hsm]
    exact ha.distinct
  · rw [held_hsm]
    rintro h' (rfl | hh')
    · exact fun hh => hlive (.inl hh)
    · exact ha.unheld hh'
  · intro h' hh'
    rw [handedOut, Option.toList_some, List.map_singleton, created_create, List.mem_append,
      List.mem_singleton] at hh'
    rcases hh' with hh' | rfl
    · exact ⟨(ha.used hh').1, hused (Set.mem_insert_of_mem _ (ha.used hh').2)⟩
    · exact ⟨hne, hused (Set.mem_insert _ _)⟩

/-- What destroying an object that is held or in hand leaves. -/
theorem reset (ha : Accounts F m inHand) (old : Option CkHandle)
    (hold : ∀ h, old = some h → h ∈ m.held ∪ inHand) :
    Balanced (E.logged.reset m.hsm old).2 ((m.held ∪ inHand) \ {h | old = some h}) ∧
      ∀ h ∈ created (E.logged.reset m.hsm old).2,
        h ≠ 0 ∧ h ∈ F.used (E.logged.reset m.hsm old).1 := by
  cases old with
  | none =>
    have hnone : (m.held ∪ inHand) \ {h | none = some h} = m.held ∪ inHand := by
      ext a
      simp
    rw [hnone]
    exact ⟨ha.balanced, fun h hh => ha.used hh⟩
  | some h =>
    have hheld := hold h rfl
    have hset : {h' | some h = some h'} = {h} := by
      ext a
      simp [eq_comm]
    have hreset : E.logged.reset m.hsm (some h) =
        ((E.destroyKey m.hsm.1 h).1, m.hsm.2 ++ [.destroyed h]) := by
      rw [IHsmEngine.reset, if_neg (ha.ne_zero hheld)]
      rfl
    rw [hreset, hset]
    refine ⟨ha.balanced.destroy hheld, fun h' hh' => ?_⟩
    rw [created_destroy] at hh'
    exact ⟨(ha.used hh').1, F.destroyKey _ _ (ha.used hh').2⟩

/-- An object that is in hand may be destroyed. -/
theorem discard (hnot : h ∉ inHand) (ha : Accounts F m (insert h inHand)) :
    Accounts F { m with hsm := E.logged.reset m.hsm (some h) } inHand := by
  obtain ⟨hbal, hused⟩ := ha.reset (some h) (by rintro h' ⟨⟩; exact .inr (.inl rfl))
  have hset : (m.held ∪ insert h inHand) \ {h' | some h = some h'} = m.held ∪ inHand := by
    ext a
    have hkept : a ∈ m.held → h ≠ a := fun hh he => ha.unheld (.inl he.symm) hh
    have hother : a ∈ inHand → h ≠ a := fun hin he => hnot (he ▸ hin)
    simp only [Set.mem_sdiff, Set.mem_union, Set.mem_insert_iff, Set.mem_ofPred_eq,
      Option.some.injEq]
    tauto
  rw [hset] at hbal
  refine ⟨?_, ?_, ?_, fun hh => hused _ hh⟩
  · rw [held_hsm]
    exact hbal
  · rw [handle_hsm]
    exact ha.distinct
  · rw [held_hsm]
    exact fun hh => ha.unheld (.inr hh)

/-- A slot gets a handle that is in hand, or none, and the object it held is destroyed. -/
theorem replace (ha : Accounts F m inHand) {m' : KeyManager (σ × KeyLedger)} {slot : KeySlot}
    {new : Option CkHandle} (hnew : ∀ h, new = some h → h ∈ inHand)
    (hh : m'.handle = Function.update m.handle slot new)
    (hhsm : m'.hsm = E.logged.reset m.hsm (m.handle slot)) :
    Accounts F m' (inHand \ {h | new = some h}) := by
  obtain ⟨hbal, hused⟩ := ha.reset (m.handle slot) fun h he => .inl ⟨slot, he⟩
  have hset : (m.held ∪ inHand) \ {h | m.handle slot = some h} =
      m'.held ∪ inHand \ {h | new = some h} := by
    ext a
    rw [Set.mem_union, mem_held_update hh]
    constructor
    · rintro ⟨⟨slot', he⟩ | hin, hne⟩
      · exact .inl (.inr ⟨slot', fun hslot => hne (hslot ▸ he), he⟩)
      · by_cases he : new = some a
        · exact .inl (.inl he)
        · exact .inr ⟨hin, he⟩
    · rintro ((he | ⟨slot', hslot, he⟩) | ⟨hin, -⟩)
      · exact ⟨.inr (hnew a he), fun hold => ha.unheld (hnew a he) ⟨slot, hold⟩⟩
      · exact ⟨.inl ⟨slot', he⟩, fun hold => hslot (ha.distinct he hold)⟩
      · exact ⟨.inr hin, fun hold => ha.unheld hin ⟨slot, hold⟩⟩
  rw [hset, ← hhsm] at hbal
  rw [← hhsm] at hused
  refine ⟨hbal, ?_, ?_, fun hc => hused _ hc⟩
  · intro slot₁ slot₂ h hs₁ hs₂
    rw [hh] at hs₁ hs₂
    exact distinct_update ha.distinct (fun h he slot' hs => ha.unheld (hnew h he) ⟨slot', hs⟩)
      hs₁ hs₂
  · rintro a ⟨hin, hne⟩ ha'
    rcases (mem_held_update hh).mp ha' with he | ⟨slot', -, he⟩
    · exact hne he
    · exact ha.unheld hin ⟨slot', he⟩

theorem assign (hnot : h ∉ inHand) (ha : Accounts F m (insert h inHand)) (slot : KeySlot) :
    Accounts F (m.assign E.logged slot h) inHand := by
  have hnew : ∀ h', some h = some h' → h' ∈ insert h inHand := by
    rintro h' ⟨⟩
    exact .inl rfl
  have hassign := ha.replace hnew (m.handle_assign (E := E.logged) slot h) rfl
  have hset : insert h inHand \ {h' | some h = some h'} = inHand := by
    ext a
    have hother : a ∈ inHand → h ≠ a := fun hin he => hnot (he ▸ hin)
    simp only [Set.mem_sdiff, Set.mem_insert_iff, Set.mem_ofPred_eq, Option.some.injEq]
    tauto
  rwa [hset] at hassign

theorem resetHandle (ha : Accounts F m ∅) (slot : KeySlot) :
    Accounts F (m.resetHandle E.logged slot) ∅ := by
  have hnew : ∀ h, none = some h → h ∈ (∅ : Set CkHandle) := fun h he => by cases he
  have hreset := ha.replace hnew (m.handle_resetHandle (E := E.logged) slot) rfl
  have hset : (∅ : Set CkHandle) \ {h | none = some h} = ∅ :=
    Set.eq_empty_of_forall_notMem fun _ hh => hh.1
  rwa [hset] at hreset

variable (ha : Accounts F m ∅)
include ha

theorem generateInto (slot : KeySlot) (label : String) :
    Accounts F (generateInto E.logged slot label m).1 ∅ := by
  have hout := F.generateKey m.hsm.1 .aes256 label
  unfold KeyManager.generateInto
  rw [logged_generateKey]
  generalize E.generateKey m.hsm.1 .aes256 label = r at hout ⊢
  rcases r with ⟨s, e | h⟩
  · exact ha.handsOut_none hout
  · obtain ⟨hnot, hin⟩ := ha.handsOut_some hout
    exact hin.assign hnot slot

theorem importInto (slot : KeySlot) (label : String) (key : Bytes) :
    Accounts F (importInto E.logged slot label key m).1 ∅ := by
  have hout := F.importRaw m.hsm.1 key label
  unfold KeyManager.importInto importRawOrThrow
  rw [logged_importRaw]
  generalize E.importRaw m.hsm.1 key label = r at hout ⊢
  rcases r with ⟨s, e | _ | h⟩
  · exact ha.handsOut_none hout
  · exact ha.handsOut_none hout
  · obtain ⟨hnot, hin⟩ := ha.handsOut_some hout
    exact hin.assign hnot slot

theorem rotateTek : Accounts F (m.rotateTek E.logged).1 ∅ := by
  have hgen := ha.generateInto .tek "tek"
  unfold KeyManager.rotateTek
  generalize KeyManager.generateInto E.logged .tek "tek" m = r at hgen ⊢
  rcases r with ⟨m', e | ⟨⟩⟩
  · exact hgen
  · exact hgen.set_keyEpoch _

theorem generateOtarMessage : Accounts F (m.generateOtarMessage E.logged).1 ∅ := by
  obtain ⟨⟨s, log⟩, kek, tek, fhek, epoch⟩ := m
  unfold KeyManager.generateOtarMessage
  rcases kek with _ | kek
  · exact ha
  rcases tek with _ | tek
  · exact ha
  rcases fhek with _ | fhek
  · exact ha
  dsimp only
  rw [logged_wrapKey]
  have h₁ := ha.quiet (F.wrapKey s kek tek)
  generalize E.wrapKey s kek tek = r₁ at h₁ ⊢
  rcases r₁ with ⟨s₁, e | wt⟩
  · exact h₁
  dsimp only
  rw [logged_wrapKey]
  have h₂ := h₁.quiet (F.wrapKey s₁ kek fhek)
  dsimp only at h₂ ⊢
  generalize E.wrapKey s₁ kek fhek = r₂ at h₂ ⊢
  rcases r₂ with ⟨s₂, e | wf⟩
  · exact h₂
  rcases wt with _ | wt
  · exact h₂
  rcases wf with _ | wf
  · exact h₂
  · exact h₂.set_keyEpoch _

/-- A key that has been unwrapped is installed or destroyed, whatever becomes of the other. -/
theorem processOtarMessage (msg : OtarMessage) :
    Accounts F (m.processOtarMessage E.logged msg).1 ∅ := by
  obtain ⟨⟨s, log⟩, kek, tek, fhek, epoch⟩ := m
  unfold KeyManager.processOtarMessage
  rcases kek with _ | kek
  · exact ha
  dsimp only
  split_ifs
  · exact ha
  have hout₁ := F.unwrapKey s kek msg.wrappedTek
  rw [logged_unwrapKey]
  dsimp only at hout₁ ⊢
  generalize E.unwrapKey s kek msg.wrappedTek = r₁ at hout₁ ⊢
  rcases r₁ with ⟨s₁, e | _ | t⟩
  · exact ha.handsOut_none hout₁
  · have h₁ := ha.handsOut_none hout₁
    have hout₂ := F.unwrapKey s₁ kek msg.wrappedFhek
    dsimp only
    rw [logged_unwrapKey]
    dsimp only at hout₂ ⊢
    generalize E.unwrapKey s₁ kek msg.wrappedFhek = r₂ at hout₂ ⊢
    rcases r₂ with ⟨s₂, e | _ | f⟩
    · exact h₁.handsOut_none hout₂
    · exact h₁.handsOut_none hout₂
    · obtain ⟨hnot, hin⟩ := h₁.handsOut_some hout₂
      exact hin.discard hnot
  · obtain ⟨hnot₁, h₁⟩ := ha.handsOut_some hout₁
    have hout₂ := F.unwrapKey s₁ kek msg.wrappedFhek
    dsimp only
    rw [logged_unwrapKey]
    dsimp only at hout₂ ⊢
    generalize E.unwrapKey s₁ kek msg.wrappedFhek = r₂ at hout₂ ⊢
    rcases r₂ with ⟨s₂, e | _ | f⟩
    · exact (h₁.handsOut_none hout₂).discard hnot₁
    · exact (h₁.handsOut_none hout₂).discard hnot₁
    · obtain ⟨hnot₂, h₂⟩ := h₁.handsOut_some hout₂
      rw [Set.insert_comm] at h₂
      have hnot : t ∉ insert f (∅ : Set CkHandle) := by
        rintro (rfl | hmem)
        · exact hnot₂ (.inl rfl)
        · exact hmem
      exact ((h₂.assign hnot .tek).assign (Set.notMem_empty f) .fhek).set_keyEpoch _

theorem zeroize : Accounts F (m.zeroize E.logged) ∅ :=
  (((ha.resetHandle .kek).resetHandle .tek).resetHandle .fhek).set_keyEpoch 0

theorem destruct : Accounts F (m.destruct E.logged) ∅ :=
  ((ha.resetHandle .fhek).resetHandle .tek).resetHandle .kek

theorem encryptWithTek (plaintext : Bytes) :
    Accounts F (m.encryptWithTek E.logged plaintext).1 ∅ := by
  unfold KeyManager.encryptWithTek
  split
  · exact ha
  · exact ha.quiet (F.encrypt _ _ _)

theorem decryptWithTek (ciphertext : Bytes) :
    Accounts F (m.decryptWithTek E.logged ciphertext).1 ∅ := by
  unfold KeyManager.decryptWithTek
  split
  · exact ha
  · exact ha.quiet (F.decrypt _ _ _)

theorem exportKey (slot : KeySlot) (missing declined : String) :
    Accounts F (exportKey E.logged slot missing declined m).1 ∅ := by
  unfold KeyManager.exportKey
  split
  · exact ha
  · rename_i h hh
    have hquiet := ha.quiet (F.exportRaw m.hsm.1 h)
    have hlogged : E.logged.exportRaw m.hsm h =
        (((E.exportRaw m.hsm.1 h).1, m.hsm.2), (E.exportRaw m.hsm.1 h).2) := rfl
    rw [hlogged]
    generalize E.exportRaw m.hsm.1 h = r at hquiet ⊢
    rcases r with ⟨s, e | _ | raw⟩
    · exact hquiet
    · exact hquiet
    · exact hquiet

theorem call (c : MemberCall) : Accounts F (m.call E.logged c).1 ∅ := by
  cases c with
  | op op =>
    cases op with
    | initializeKek => exact ha.generateInto .kek "kek"
    | setKekRaw kek => exact ha.importInto .kek "kek" kek
    | generateTek => exact ha.generateInto .tek "tek"
    | generateFhek => exact ha.generateInto .fhek "fhek"
    | rotateTek => exact ha.rotateTek
    | setTekRaw tek => exact ha.importInto .tek "tek" tek
    | setFhekRaw fhek => exact ha.importInto .fhek "fhek" fhek
    | generateOtarMessage => exact ha.generateOtarMessage
    | processOtarMessage msg => exact ha.processOtarMessage msg
    | zeroize => exact ha.zeroize
  | encryptWithTek plaintext => exact ha.encryptWithTek plaintext
  | decryptWithTek ciphertext => exact ha.decryptWithTek ciphertext
  | exportFhekForFpga => exact ha.exportKey .fhek _ _
  | exportTekForDistribution => exact ha.exportKey .tek _ _

omit ha in
theorem live_eq (ha : Accounts F m ∅) : live m.hsm.2 = m.held := by
  rw [ha.balanced.live_eq, Set.union_empty]

end Accounts

section Runs
variable {E : IHsmEngine σ}

theorem accounts_after (F : FreshHandles E) (s : σ) (calls : List MemberCall) :
    Accounts F (after (call E.logged) (new (s, [])) calls) ∅ :=
  invariant_after _ _ (fun m => Accounts F m ∅) (.new F s) (fun _ c ha => ha.call c) calls

theorem held_zeroize (E : IHsmEngine σ) (m : KeyManager σ) : (m.zeroize E).held = ∅ := by
  refine Set.eq_empty_of_forall_notMem fun h hh => ?_
  obtain ⟨slot, hslot⟩ := hh
  cases slot <;> cases hslot

theorem held_destruct (E : IHsmEngine σ) (m : KeyManager σ) : (m.destruct E).held = ∅ := by
  refine Set.eq_empty_of_forall_notMem fun h hh => ?_
  obtain ⟨slot, hslot⟩ := hh
  cases slot <;> cases hslot

/-- On an engine whose handles are fresh, after every sequence of calls of the member functions:
the key objects that were created and not destroyed are those behind the handles held, no
handle was destroyed twice, or without having been created, or is held and destroyed, and
nothing is left after `zeroize` or the destructor. -/
theorem no_key_leaked {E : IHsmEngine σ} (F : FreshHandles E) (s : σ) (calls : List MemberCall) :
    let m := after (call E.logged) (new (s, [])) calls
    live m.hsm.2 = m.held ∧ (destroyed m.hsm.2).Nodup ∧
      (∀ h ∈ destroyed m.hsm.2, h ∈ created m.hsm.2 ∧ h ∉ m.held) ∧
      live (m.zeroize E.logged).hsm.2 = ∅ ∧ live (m.destruct E.logged).hsm.2 = ∅ := by
  intro m
  have ha : Accounts F m ∅ := accounts_after F s calls
  refine ⟨ha.live_eq, ha.balanced.destroyed_nodup, fun h hd => ⟨?_, fun hheld => ?_⟩, ?_, ?_⟩
  · exact ha.balanced.destroyed_created h hd
  · exact ha.balanced.not_mem_destroyed (.inl hheld) hd
  · rw [ha.zeroize.live_eq, held_zeroize]
  · rw [ha.destruct.live_eq, held_destruct]

/-- The table counts the objects ever created. -/
def tableFresh : FreshHandles tableHsm where
  used s := {h | h ≤ s.length}
  generateKey s _ _ := by
    refine ⟨Nat.succ_ne_zero _, Nat.not_succ_le_self _, ?_⟩
    rintro h (rfl | hh)
    · simp [tableHsm]
    · exact Nat.le_trans hh (by simp [tableHsm])
  unwrapKey s kek wrapped := by
    cases hv : (tableKey s kek).bind fun k => tableUnwrap k wrapped with
    | none => simp [tableHsm, hv, Throws.handle, HandsOut]
    | some v =>
      simp only [tableHsm, hv, Throws.handle]
      refine ⟨Nat.succ_ne_zero _, Nat.not_succ_le_self _, ?_⟩
      rintro h (rfl | hh)
      · simp
      · exact Nat.le_trans hh (by simp)
  importRaw s bytes _ := by
    by_cases hlen : bytes.length = 32
    · simp only [tableHsm, hlen, ne_eq, not_true_eq_false, if_false, Throws.handle]
      refine ⟨Nat.succ_ne_zero _, Nat.not_succ_le_self _, ?_⟩
      rintro h (rfl | hh)
      · simp
      · exact Nat.le_trans hh (by simp)
    · simp [tableHsm, hlen, Throws.handle, HandsOut]
  encrypt _ _ _ := subset_rfl
  decrypt _ _ _ := subset_rfl
  wrapKey _ _ _ := subset_rfl
  exportRaw _ _ := subset_rfl
  destroyKey s h := by
    cases h with
    | zero => exact subset_rfl
    | succ i => exact fun h hh => Nat.le_trans hh (Nat.le_of_eq List.length_set.symm)

/-- Of two TEKs the second is left. -/
theorem no_key_leaked_rotated :
    live (after (call tableHsm.logged) (new ([], [])) [.op .generateTek, .op .rotateTek]).hsm.2 =
      {2} := by
  rw [(no_key_leaked tableFresh [] [.op .generateTek, .op .rotateTek]).1]
  ext h
  constructor
  · rintro ⟨slot, hslot⟩
    cases slot <;> cases hslot
    rfl
  · rintro rfl
    exact ⟨.tek, rfl⟩

end Runs

end KeyManager
end Cirradio.Security
