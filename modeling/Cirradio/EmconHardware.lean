import Cirradio.EmconLock
import Cirradio.EmconManager

/-!
# The manager and the MAC

The EMCON manager writes the level to the MAC, which takes a raise only with the lock off
or the token held. Since the manager sets the lock at the restricted levels and writes the
token before a raise, the MAC follows it.
-/

namespace Cirradio.Transec
open Fpga CallRuns

inductive RegWrite where
  | emconCtrl (value : UInt32)
  | emconUnlock
  | txPower (dBmX100 : Int)
  | fhekZeroize
  | clockHalt
  deriving DecidableEq, Repr

/-- The MAC behind the registers, the last transmit power, and all writes. -/
structure MacRegs where
  mac : TdmaMac
  txPower : Option Int
  writes : List RegWrite
  deriving DecidableEq, Repr

/-- The strobe of a control write. -/
def ctrlStrobe (ambient : TdmaMacIn) (value : UInt32) : TdmaMacIn :=
  { ambient with
    emconLevel := value.toBitVec.setWidth 2
    emconCtrlWr := true
    emconUnlockWr := false
    axiWdata := value.toBitVec }

/-- The strobe of an unlock write. -/
def unlockStrobe (ambient : TdmaMacIn) : TdmaMacIn :=
  { ambient with
    emconCtrlWr := false
    emconUnlockWr := true
    axiWdata := TdmaMac.emconUnlockMagic }

/-- Registers that pass each EMCON write on to the MAC as one strobe. -/
def macRegs (ambient : TdmaMacIn) : IAxiRegs MacRegs where
  zeroizeFhek r := { r with writes := r.writes ++ [.fhekZeroize] }
  haltFpgaClocks r := { r with writes := r.writes ++ [.clockHalt] }
  setEmconCtrl r value :=
    { r with
      mac := r.mac.next (ctrlStrobe ambient value)
      writes := r.writes ++ [.emconCtrl value] }
  writeEmconUnlock r :=
    { r with
      mac := r.mac.next (unlockStrobe ambient)
      writes := r.writes ++ [.emconUnlock] }
  setTxPower r dBmX100 :=
    { r with txPower := some dBmX100, writes := r.writes ++ [.txPower dBmX100] }

inductive EmconOp where
  | setLevel (level : Int) (unlock : Bool)
  | forceEmcon0
  deriving DecidableEq, Repr

namespace EmconManager

/-- A call, with what else the MAC sees during it. -/
def step (m : EmconManager MacRegs) : TdmaMacIn × EmconOp → EmconManager MacRegs × Bool
  | (ambient, .setLevel level unlock) => m.setLevel (macRegs ambient) level unlock
  | (ambient, .forceEmcon0) => (m.forceEmcon0 (macRegs ambient), true)

/-- The manager of a MAC after its reset. -/
def onReset (ambient : TdmaMacIn) : EmconManager MacRegs :=
  .new (macRegs ambient) ⟨.reset, none, []⟩

/-- The transmit power of a level, in hundredths of a dBm. -/
def powerOf (level : Int) : Int := if level = 0 then 0 else if level = 1 then 1700 else 3700

/-- The MAC is where the manager is. -/
structure InStep (m : EmconManager MacRegs) : Prop where
  range : 0 ≤ m.level ∧ m.level ≤ 2
  level : m.currentLevel = m.regs.mac.emconLevel.toNat
  lock : m.regs.mac.lock = true ↔ m.currentLevel < 2
  token : m.regs.mac.unlockPending = false
  power : m.regs.txPower = some (powerOf m.currentLevel)

/-- The MAC takes the level: it is no raise, or the lock is off, or the token is held. -/
def Takes (mac : TdmaMac) (level : Int) : Prop :=
  level ≤ mac.emconLevel.toNat ∨ mac.lock = false ∨ mac.unlockPending = true

theorem emconLevelNext_of_takes {mac : TdmaMac} {x : TdmaMacIn} (hctrl : x.emconCtrlWr = true)
    (htakes : Takes mac x.emconLevel.toNat) : mac.emconLevelNext x = x.emconLevel := by
  unfold TdmaMac.emconLevelNext
  rw [if_pos hctrl]
  by_cases hraise : mac.emconLevel < x.emconLevel
  · rw [if_pos hraise]
    rcases htakes with hle | hlock | htoken
    · have hlt := BitVec.lt_def.mp hraise
      omega
    · rw [hlock]
      rfl
    · rw [htoken, Bool.or_true]
      rfl
  · rw [if_neg hraise]

theorem next_ctrlStrobe (ambient : TdmaMacIn) (value : UInt32) (mac : TdmaMac) :
    (mac.next (ctrlStrobe ambient value)).lock = value.toBitVec.getLsbD 2 ∧
      (mac.next (ctrlStrobe ambient value)).unlockPending = false ∧
      (Takes mac (value.toBitVec.setWidth 2).toNat →
        (mac.next (ctrlStrobe ambient value)).emconLevel = value.toBitVec.setWidth 2) :=
  ⟨rfl, rfl, fun htakes => emconLevelNext_of_takes (x := ctrlStrobe ambient value) rfl htakes⟩

theorem ctrl_bits {level : Int} (hrange : 0 ≤ level ∧ level ≤ 2) :
    let value := UInt32.ofInt level ||| (if level < 2 then 0x4 else 0x0)
    ((value.toBitVec.setWidth 2).toNat : Int) = level ∧
      (value.toBitVec.getLsbD 2 = true ↔ level < 2) := by
  obtain ⟨hlow, hhigh⟩ := hrange
  have hcases : level = 0 ∨ level = 1 ∨ level = 2 := by omega
  rcases hcases with rfl | rfl | rfl
  · decide
  · decide
  · decide

theorem applyLevel_inStep (ambient : TdmaMacIn) {level : Int} {m : EmconManager MacRegs}
    (hrange : 0 ≤ level ∧ level ≤ 2) (htakes : Takes m.regs.mac level) :
    InStep (applyLevel (macRegs ambient) level m) := by
  obtain ⟨hbits, hlockBit⟩ := ctrl_bits hrange
  obtain ⟨hlock, htoken, hlevel⟩ := next_ctrlStrobe ambient
    (UInt32.ofInt level ||| (if level < 2 then 0x4 else 0x0)) m.regs.mac
  rw [hbits] at hlevel
  refine ⟨hrange, ?_, ?_, htoken, rfl⟩
  · change level = ((TdmaMac.next _ _).emconLevel.toNat : Int)
    rw [hlevel htakes, hbits]
  · change (TdmaMac.next _ _).lock = true ↔ level < 2
    rw [hlock]
    exact hlockBit

theorem takes_of_unlock (ambient : TdmaMacIn) (mac : TdmaMac) (level : Int) :
    Takes (mac.next (unlockStrobe ambient)) level := by
  refine .inr (.inr ?_)
  change TdmaMac.unlockPendingNext mac (unlockStrobe ambient) = true
  simp [TdmaMac.unlockPendingNext, unlockStrobe, TdmaMac.magicWrite]

/-- A call keeps the two in step, and one that fails writes nothing. -/
theorem InStep.step {m : EmconManager MacRegs} (h : InStep m) (c : TdmaMacIn × EmconOp) :
    InStep (step m c).1 ∧ ((step m c).2 = false → (step m c).1.regs = m.regs) := by
  obtain ⟨ambient, op⟩ := c
  cases op with
  | setLevel level unlock =>
    by_cases haccepted : (0 ≤ level ∧ level ≤ 2) ∧ (level ≤ m.level ∨ unlock = true)
    · obtain ⟨hrange, hraise⟩ := haccepted
      refine ⟨?_, fun hfalse => ?_⟩
      · have hin : ¬ (level < 0 ∨ 2 < level) := by omega
        change InStep (m.setLevel (macRegs ambient) level unlock).1
        unfold setLevel
        rw [if_neg hin]
        by_cases hdown : m.level < level
        · have hunlock : unlock = true := hraise.resolve_left (by omega)
          simp only [hdown, hunlock, decide_true, Bool.not_true, Bool.and_false, Bool.and_true,
            Bool.false_eq_true, if_false, if_true]
          exact applyLevel_inStep ambient hrange (takes_of_unlock ambient _ _)
        · simp only [hdown, decide_false, Bool.false_and, Bool.false_eq_true, if_false]
          refine applyLevel_inStep ambient hrange (.inl ?_)
          have hlevel := h.level
          unfold currentLevel at hlevel
          omega
      · have htrue := (setLevel_of_accepted (macRegs ambient) (m := m) hrange hraise).1
        rw [EmconManager.step, htrue] at hfalse
        cases hfalse
    · have hrefused : ¬ (0 ≤ level ∧ level ≤ 2) ∨ m.currentLevel < level ∧ unlock = false := by
        by_cases hrange : 0 ≤ level ∧ level ≤ 2
        · obtain ⟨hraise, hlocked⟩ := not_or.mp fun h => haccepted ⟨hrange, h⟩
          exact .inr ⟨Int.not_le.mp hraise, Bool.eq_false_iff.mpr hlocked⟩
        · exact .inl hrange
      rw [EmconManager.step, setLevel_of_rejected (macRegs ambient) hrefused]
      exact ⟨h, fun _ => rfl⟩
  | forceEmcon0 =>
    have htakes : Takes m.regs.mac 0 := .inl (Int.natCast_nonneg _)
    refine ⟨applyLevel_inStep ambient ⟨Int.le_refl 0, by decide⟩ htakes, fun hfalse => ?_⟩
    cases hfalse

theorem onReset_inStep (ambient : TdmaMacIn) : InStep (onReset ambient) :=
  applyLevel_inStep ambient ⟨by decide, Int.le_refl 2⟩ (.inl (Int.le_refl 2))

/-- From construction on, the MAC is at the level of the manager after every call, with the
lock on at the restricted levels, no token left over and the power of the level; and a call
that fails writes nothing. -/
theorem emcon_in_step (ambient : TdmaMacIn) (calls : List (TdmaMacIn × EmconOp)) :
    EveryState step (onReset ambient) InStep calls ∧
      EveryCall step (onReset ambient)
        (fun m c => (step m c).2 = false → (step m c).1.regs = m.regs) calls := by
  have hstate : EveryState step (onReset ambient) InStep calls := fun i =>
    invariant_after step _ InStep (onReset_inStep ambient) (fun m c h => (h.step c).1) _
  exact ⟨hstate, fun i c _ => ((hstate i).step c).2⟩

end EmconManager
end Cirradio.Transec
