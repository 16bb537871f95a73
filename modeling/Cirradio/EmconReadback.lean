import Cirradio.AxiWrites
import Cirradio.EmconLock

/-!
# Reading back the EMCON level

The register block keeps the last level written and the MAC the level in force. They are
written together, but only the MAC applies the lock, and the software reads the register.
-/

namespace Cirradio.Fpga
open CallRuns

/-- The register block and the MAC, wired by the names of their ports. -/
structure EmconBlocks where
  file : RegFile
  mac : TdmaMac
  deriving DecidableEq, Repr

/-- A register write, with the slot in the cycle of its strobe. -/
structure PsWrite where
  addr : BitVec 12
  wdata : BitVec 32
  currentSlot : BitVec 5
  deriving DecidableEq, Repr

namespace EmconBlocks

def reset : EmconBlocks := ⟨.reset, .reset⟩

/-- The inputs of the MAC in the cycle of the strobe. -/
def macIn (f : RegFile) (w : PsWrite) : TdmaMacIn where
  slotBitmap := f.slotmap
  currentSlot := w.currentSlot
  emconLevel := f.emconCtrl.setWidth 2
  emconCtrlWr := w.addr == regEmconCtrl
  emconUnlockWr := w.addr == regEmconUnlock
  axiWdata := w.wdata
  paRampSteps := f.paStep

/-- `AxiRegs::emcon_level`: the level bits of the register that is read. -/
def emconLevel (b : EmconBlocks) : BitVec 32 :=
  AxiRegs.readWord b.file { AxiRegs.writeCycle none none true with
    araddr := regEmconCtrl, arvalid := true, rready := true } &&& 0x3

/-- A write and its strobe, and the level that is read back after it. -/
def psWrite (b : EmconBlocks) (w : PsWrite) : EmconBlocks × BitVec 32 :=
  let file := b.file.write w.addr w.wdata
  let b' : EmconBlocks := ⟨file, b.mac.next (macIn file w)⟩
  (b', b'.emconLevel)

/-- The level read back is the level in force. -/
def ReadsLevel (b : EmconBlocks) : Prop := b.emconLevel = b.mac.emconLevel.setWidth 32

/-- The lock refuses the level that is written. -/
def Refuses (b : EmconBlocks) (w : PsWrite) : Prop :=
  w.addr = regEmconCtrl ∧ b.mac.emconLevel < w.wdata.setWidth 2 ∧ b.mac.lock = true ∧
    b.mac.unlockPending = false

theorem and_three_eq_setWidth_iff (v : BitVec 32) (level : BitVec 2) :
    v &&& 0x3 = level.setWidth 32 ↔ v.setWidth 2 = level := by
  have hand : (v &&& 0x3).toNat = v.toNat % 4 := by
    rw [BitVec.toNat_and]
    exact Nat.and_two_pow_sub_one_eq_mod v.toNat 2
  have hlevel : (level.setWidth 32).toNat = level.toNat := by
    rw [BitVec.toNat_setWidth]
    omega
  rw [← BitVec.toNat_inj, ← BitVec.toNat_inj, hand, hlevel, BitVec.toNat_setWidth]

theorem readsLevel_iff (b : EmconBlocks) :
    b.ReadsLevel ↔ b.file.emconCtrl.setWidth 2 = b.mac.emconLevel :=
  and_three_eq_setWidth_iff b.file.emconCtrl b.mac.emconLevel

theorem write_emconCtrl (f : RegFile) (wa : BitVec 12) (wdata : BitVec 32) :
    (f.write wa wdata).emconCtrl = if wa = regEmconCtrl then wdata else f.emconCtrl := by
  unfold RegFile.write
  by_cases h : wa = regEmconCtrl
  · subst h
    rfl
  · simp only [h, if_false, apply_ite RegFile.emconCtrl, ite_self]

/-- A control write puts its level in force unless it is a raise that the lock refuses. -/
theorem emconLevelNext_eq_iff {mac : TdmaMac} {x : TdmaMacIn} (hctrl : x.emconCtrlWr = true) :
    x.emconLevel = mac.emconLevelNext x ↔
      ¬ (mac.emconLevel < x.emconLevel ∧ mac.lock = true ∧ mac.unlockPending = false) := by
  unfold TdmaMac.emconLevelNext
  rw [if_pos hctrl]
  by_cases hraise : mac.emconLevel < x.emconLevel
  · -- a raise is taken if the lock is off or the token is held
    have hne : x.emconLevel ≠ mac.emconLevel := by
      intro heq
      rw [heq] at hraise
      exact BitVec.lt_irrefl _ hraise
    rw [if_pos hraise, and_iff_right hraise]
    cases mac.lock <;> cases mac.unlockPending <;> simp [hne]
  · rw [if_neg hraise]
    exact ⟨fun _ h => hraise h.1, fun _ => rfl⟩

/-- A write keeps the two in agreement unless the lock refuses it. -/
theorem psWrite_readsLevel_iff {b : EmconBlocks} (h : b.ReadsLevel) (w : PsWrite) :
    (b.psWrite w).1.ReadsLevel ↔ ¬ b.Refuses w := by
  rw [readsLevel_iff] at h ⊢
  have hfile : (b.psWrite w).1.file.emconCtrl =
      if w.addr = regEmconCtrl then w.wdata else b.file.emconCtrl := write_emconCtrl _ _ _
  have hlevel : (macIn (b.file.write w.addr w.wdata) w).emconLevel =
      (b.psWrite w).1.file.emconCtrl.setWidth 2 := rfl
  have hmac : (b.psWrite w).1.mac.emconLevel =
      TdmaMac.emconLevelNext b.mac (macIn (b.file.write w.addr w.wdata) w) := rfl
  by_cases haddr : w.addr = regEmconCtrl
  · have hctrl : (macIn (b.file.write w.addr w.wdata) w).emconCtrlWr = true :=
      beq_iff_eq.mpr haddr
    rw [hmac, ← hlevel, emconLevelNext_eq_iff hctrl, hlevel, hfile, if_pos haddr, Refuses,
      and_iff_right haddr]
  · have hctrl : (macIn (b.file.write w.addr w.wdata) w).emconCtrlWr = false :=
      beq_eq_false_iff_ne.mpr haddr
    have hkept : (b.psWrite w).1.mac.emconLevel = b.mac.emconLevel := by
      rw [hmac, TdmaMac.emconLevelNext, hctrl]
      rfl
    rw [hfile, if_neg haddr, hkept]
    exact ⟨fun _ hrefuses => haddr hrefuses.1, fun _ => h⟩

/-- The level read back is the level in force in every state of a run exactly if the lock
refuses none of its writes. -/
theorem readsLevel_iff_not_refuses (writes : List PsWrite) :
    EveryState psWrite reset ReadsLevel writes ↔
      EveryCall psWrite reset (fun b w => ¬ b.Refuses w) writes :=
  everyState_iff_everyCall psWrite reset (by unfold ReadsLevel; decide)
    (fun _ w h => psWrite_readsLevel_iff h w) writes

/-- The software reads the level in force, whatever it has written. -/
def ReadsEnforcedLevel : Prop :=
  ∀ writes : List PsWrite, (∀ w ∈ writes, w.addr = regEmconCtrl ∨ w.addr = regEmconUnlock) →
    EveryState psWrite reset ReadsLevel writes

/-- Level 0 with the lock, and then level 2 without the token: the MAC stays at 0, and 2 is
read back. -/
theorem not_readsEnforcedLevel : ¬ ReadsEnforcedLevel := by
  intro h
  have hread := h [⟨regEmconCtrl, 4, 0⟩, ⟨regEmconCtrl, 2, 0⟩] (by decide) 2
  unfold ReadsLevel at hread
  exact absurd hread (by decide)

end EmconBlocks
end Cirradio.Fpga
