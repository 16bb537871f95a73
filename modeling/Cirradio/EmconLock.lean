import Cirradio.TdmaMac

/-!
# The EMCON lock

A control write with the lock bit is meant to forbid every later raise of the level
until the unlock magic is written. A control write without that bit takes the lock off
again, whether or not its level is accepted, and the fourth level allows less than the
levels below it; apart from these the lock holds.
-/

namespace Cirradio.Fpga
namespace TdmaMac
open CallRuns

/-- Some slot bitmap lets the amplifier on in the slot at the level. -/
def Permits (level : BitVec 2) (slot : BitVec 5) : Prop :=
  ∃ x : TdmaMacIn, x.currentSlot = slot ∧ paEnable level x = true

/-- The level in force before the input at a position. -/
def levelAt (inputs : List TdmaMacIn) (i : ℕ) : BitVec 2 :=
  (after step reset (inputs.take i)).emconLevel

/-- The input at a position is a control write. -/
def ControlAt (inputs : List TdmaMacIn) (i : ℕ) (x : TdmaMacIn) : Prop :=
  inputs[i]? = some x ∧ x.emconCtrlWr = true

/-- No input after the one position, up to the other, writes the unlock magic. -/
def NoMagic (inputs : List TdmaMacIn) (i j : ℕ) : Prop :=
  ∀ k, i < k → k ≤ j → ∀ x, inputs[k]? = some x → magicWrite x = false

/-- A control write takes its level from the data it writes, as the registers wire it. -/
def Wired (x : TdmaMacIn) : Prop :=
  x.emconCtrlWr = true → x.emconLevel = x.axiWdata.setWidth 2

instance : DecidablePred Wired := fun x =>
  inferInstanceAs (Decidable (x.emconCtrlWr = true → x.emconLevel = x.axiWdata.setWidth 2))

/-- After a control write with the lock bit, until the next unlock magic, no control write
allows transmission in a slot in which the level before it forbade it. -/
def LockHolds (inputs : List TdmaMacIn) : Prop :=
  ∀ i j x y, ControlAt inputs i x → x.axiWdata.getLsbD 2 = true → i < j →
    ControlAt inputs j y → NoMagic inputs i j →
    ∀ slot, Permits (levelAt inputs (j + 1)) slot → Permits (levelAt inputs j) slot

/-- The control write would put the fourth level in force. -/
def PutsSilent (s : TdmaMac) (x : TdmaMacIn) : Prop :=
  x.emconLevel = 3#2 ∧ (s.emconLevel = 3#2 ∨ s.lock = false ∨ s.unlockPending = true)

/-- Every control write after one with the lock bit, until the next unlock magic, carries
the lock bit too, and the first does not put the fourth level in force. -/
structure KeepsLock (inputs : List TdmaMacIn) : Prop where
  relocks : ∀ i j x y, ControlAt inputs i x → x.axiWdata.getLsbD 2 = true → i < j →
    ControlAt inputs j y → NoMagic inputs i j → y.axiWdata.getLsbD 2 = true
  notSilent : ∀ i x, ControlAt inputs i x → x.axiWdata.getLsbD 2 = true →
    ¬ PutsSilent (after step reset (inputs.take i)) x

theorem level_cases (level : BitVec 2) :
    level = 0#2 ∨ level = 1#2 ∨ level = 2#2 ∨ level = 3#2 := by
  revert level
  decide

theorem not_silent_lt (level : BitVec 2) : ¬ 3#2 < level := by
  revert level
  decide

theorem eq_silent_of_le {level : BitVec 2} (h : 3#2 ≤ level) : level = 3#2 := by
  revert level
  decide

theorem exists_txSlot (slot : BitVec 5) :
    ∃ x : TdmaMacIn, x.currentSlot = slot ∧ txSlot x = true := by
  refine ⟨⟨BitVec.allOnes 32, slot, 0, false, false, 0, 0⟩, rfl, ?_⟩
  have hslot : slot.toNat < 32 := slot.isLt
  rw [txSlot, BitVec.getLsbD_allOnes, decide_eq_true hslot]

theorem permits_iff (level : BitVec 2) (slot : BitVec 5) :
    Permits level slot ↔ level = 2#2 ∨ level = 1#2 ∧ slot = 0 := by
  obtain ⟨x, hx, hown⟩ := exists_txSlot slot
  rcases level_cases level with rfl | rfl | rfl | rfl
  · simp [Permits]
  · constructor
    · rintro ⟨y, rfl, hy⟩
      rw [paEnable_beacon, Bool.and_eq_true, beq_iff_eq] at hy
      exact .inr ⟨rfl, hy.2⟩
    · rintro (h | ⟨-, rfl⟩)
      · cases h
      · exact ⟨x, hx, by simp [hown, hx]⟩
  · exact ⟨fun _ => .inl rfl, fun _ => ⟨x, hx, hown⟩⟩
  · simp [Permits]

theorem Permits.mono {level level' : BitVec 2} {slot : BitVec 5} (h : Permits level' slot)
    (hle : level' ≤ level) (hne : level ≠ 3#2) : Permits level slot := by
  rw [permits_iff] at h ⊢
  rcases level_cases level with rfl | rfl | rfl | rfl
  · rcases h with rfl | ⟨rfl, -⟩ <;> exact absurd hle (by decide)
  · rcases h with rfl | ⟨-, hslot⟩
    · exact absurd hle (by decide)
    · exact .inr ⟨rfl, hslot⟩
  · exact .inl rfl
  · exact absurd rfl hne

/-- The lock is on, no token is held, and the fourth level is not in force. -/
structure Locked (s : TdmaMac) : Prop where
  lock : s.lock = true
  noToken : s.unlockPending = false
  notSilent : s.emconLevel ≠ 3#2

theorem Locked.of_lock_write {s : TdmaMac} {x : TdmaMacIn} (hctrl : x.emconCtrlWr = true)
    (hlock : x.axiWdata.getLsbD 2 = true) (hsilent : ¬ PutsSilent s x) :
    Locked (next s x) := by
  refine ⟨by simp [next, lockNext, hctrl, hlock], by simp [next, unlockPendingNext, hctrl], ?_⟩
  intro h
  apply hsilent
  simp only [next, emconLevelNext, hctrl, if_true] at h
  split_ifs at h with hraise hopen
  · refine ⟨h, .inr ?_⟩
    simpa using hopen
  · rw [h] at hraise
    exact absurd hraise (not_silent_lt _)
  · refine ⟨h, .inl (eq_silent_of_le ?_)⟩
    rw [h] at hraise
    exact BitVec.not_lt.mp hraise

/-- While the lock is on, an input that keeps it on does not raise the level. -/
theorem Locked.next {s : TdmaMac} {x : TdmaMacIn} (h : Locked s)
    (hrelock : x.emconCtrlWr = true → x.axiWdata.getLsbD 2 = true)
    (hmagic : magicWrite x = false) :
    Locked (next s x) ∧ (TdmaMac.next s x).emconLevel ≤ s.emconLevel := by
  have hle : emconLevelNext s x ≤ s.emconLevel := by
    unfold emconLevelNext
    split_ifs with hctrl hraise hopen
    · simp [h.lock, h.noToken] at hopen
    · exact BitVec.le_refl _
    · exact BitVec.not_lt.mp hraise
    · exact BitVec.le_refl _
  refine ⟨⟨?_, ?_, ?_⟩, hle⟩
  · simp only [TdmaMac.next, lockNext]
    split_ifs with hctrl
    · exact hrelock hctrl
    · exact h.lock
  · simp [TdmaMac.next, unlockPendingNext, hmagic, h.noToken]
  · intro hsilent
    exact h.notSilent (eq_silent_of_le (hsilent ▸ hle))

/-- The lock stays on from the control write that sets it to the next unlock magic. -/
theorem KeepsLock.locked {inputs : List TdmaMacIn} (h : KeepsLock inputs) {i j : ℕ}
    {x : TdmaMacIn} (hx : ControlAt inputs i x) (hlock : x.axiWdata.getLsbD 2 = true)
    (hij : i < j) (hj : j ≤ inputs.length) (hmagic : NoMagic inputs i (j - 1)) :
    Locked (after step reset (inputs.take j)) := by
  induction j with
  | zero => omega
  | succ j ih =>
    obtain ⟨y, hy⟩ : ∃ y, inputs[j]? = some y := ⟨_, List.getElem?_eq_getElem (by omega)⟩
    rw [after_take_succ _ _ hy]
    rcases Nat.lt_or_eq_of_le (Nat.le_of_lt_succ hij) with hlt | rfl
    · have hbefore : NoMagic inputs i (j - 1) := fun k hik hk => hmagic k hik (by omega)
      refine ((ih hlt (by omega) hbefore).next ?_ (hmagic j hlt (Nat.le_refl _) y hy)).1
      intro hctrl
      exact h.relocks i j x y hx hlock hlt ⟨hy, hctrl⟩ hmagic
    · cases hy.symm.trans hx.1
      exact .of_lock_write hx.2 hlock (h.notSilent i x hx hlock)

/-- In a run that keeps the lock on, no control write widens the transmit permission
before the next unlock magic. -/
theorem emcon_lock_holds (inputs : List TdmaMacIn) (h : KeepsLock inputs) :
    LockHolds inputs := by
  intro i j x y hx hlock hij hy hmagic slot hpermits
  have hj : j < inputs.length := (List.getElem?_eq_some_iff.mp hy.1).1
  have hbefore : NoMagic inputs i (j - 1) := fun k hik hk => hmagic k hik (by omega)
  have hlocked := h.locked hx hlock hij (Nat.le_of_lt hj) hbefore
  have hle : levelAt inputs (j + 1) ≤ levelAt inputs j := by
    rw [levelAt, after_take_succ _ _ hy.1]
    refine (hlocked.next ?_ (hmagic j hij (Nat.le_refl _) y hy.1)).2
    intro _
    exact h.relocks i j x y hx hlock hij hy hmagic
  exact hpermits.mono hle hlocked.notSilent

/-- A control write of the three low bits, wired as `axi_regs` wires it. -/
def controlWrite (data : BitVec 32) : TdmaMacIn where
  slotBitmap := 1
  currentSlot := 0
  emconLevel := data.setWidth 2
  emconCtrlWr := true
  emconUnlockWr := false
  axiWdata := data
  paRampSteps := 4

theorem emcon_lock_holds_relocked : LockHolds [controlWrite 5, controlWrite 6] := by
  have hbit : ∀ y ∈ [controlWrite 5, controlWrite 6], y.axiWdata.getLsbD 2 = true := by decide
  have hlevel : ∀ y ∈ [controlWrite 5, controlWrite 6], y.emconLevel ≠ 3#2 := by decide
  refine emcon_lock_holds [controlWrite 5, controlWrite 6] ⟨?_, ?_⟩
  · intro i j x y hx hlock hij hy hmagic
    exact hbit y (List.mem_of_getElem? hy.1)
  · intro i x hx hlock hsilent
    exact hlevel x (List.mem_of_getElem? hx.1) hsilent.1

/-- The lock as the register description has it. -/
def EmconLocked : Prop :=
  ∀ inputs : List TdmaMacIn, (∀ x ∈ inputs, Wired x) → LockHolds inputs

/-- Level 0 with the lock bit, level 0 without it, level 2: no unlock magic, and slot 0 is
open again. -/
theorem not_emconLocked : ¬ EmconLocked := by
  intro h
  have hopen := h [controlWrite 4, controlWrite 0, controlWrite 2] (by decide) 0 2
    (controlWrite 4) (controlWrite 2) ⟨rfl, rfl⟩ (by decide) (by decide) ⟨rfl, rfl⟩
  have hmagic : NoMagic [controlWrite 4, controlWrite 0, controlWrite 2] 0 2 := by
    have hnone : ∀ y ∈ [controlWrite 4, controlWrite 0, controlWrite 2],
        magicWrite y = false := by decide
    exact fun k _ _ x hx => hnone x (List.mem_of_getElem? hx)
  have hpermits := hopen hmagic 0 ((permits_iff _ _).mpr (.inl (by decide)))
  rcases (permits_iff _ _).mp hpermits with hlevel | ⟨hlevel, -⟩
  · exact absurd hlevel (by decide)
  · exact absurd hlevel (by decide)

end TdmaMac
end Cirradio.Fpga
