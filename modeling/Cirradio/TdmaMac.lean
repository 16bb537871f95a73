import Cirradio.CallRuns

/-!
# The TDMA MAC

One clock cycle of `tdma_mac`: the EMCON latch with its lock, the gate of the power
amplifier, the ramp of its attenuation and the preamble counter. Each `always_ff` block
is a function of the registers and inputs before the clock edge.
-/

namespace Cirradio.Fpga

structure TdmaMacIn where
  slotBitmap : BitVec 32
  currentSlot : BitVec 5
  emconLevel : BitVec 2
  emconCtrlWr : Bool
  emconUnlockWr : Bool
  axiWdata : BitVec 32
  paRampSteps : BitVec 32
  deriving DecidableEq, Repr

structure TdmaMac where
  unlockPending : Bool
  emconLevel : BitVec 2
  lock : Bool
  txnrx : Bool
  trSwitch : Bool
  paAttenX100 : BitVec 16
  txSlotPrev : Bool
  preambleCnt : BitVec 12
  preambleTx : Bool
  prevTxSlot : Bool
  deriving DecidableEq, Repr

namespace TdmaMac

def emconUnlockMagic : BitVec 32 := 0xA5C33C5A

def preambleCycles : ℕ := 3000

def reset : TdmaMac where
  unlockPending := false
  emconLevel := 2#2
  lock := false
  txnrx := false
  trSwitch := false
  paAttenX100 := 0x0FA0
  txSlotPrev := false
  preambleCnt := 0
  preambleTx := false
  prevTxSlot := false

/-- This node owns the current slot. -/
def txSlot (x : TdmaMacIn) : Bool := x.slotBitmap.getLsbD x.currentSlot.toNat

/-- The EMCON gate. -/
def paEnable (level : BitVec 2) (x : TdmaMacIn) : Bool :=
  match level with
  | 0#2 => false
  | 1#2 => txSlot x && x.currentSlot == 0
  | 2#2 => txSlot x
  | _ => false

@[simp] theorem paEnable_inhibited (x : TdmaMacIn) : paEnable 0#2 x = false := rfl

@[simp] theorem paEnable_beacon (x : TdmaMacIn) :
    paEnable 1#2 x = (txSlot x && x.currentSlot == 0) := rfl

@[simp] theorem paEnable_normal (x : TdmaMacIn) : paEnable 2#2 x = txSlot x := rfl

@[simp] theorem paEnable_silent (x : TdmaMacIn) : paEnable 3#2 x = false := rfl

/-- The strobe writes the unlock magic. -/
def magicWrite (x : TdmaMacIn) : Bool := x.emconUnlockWr && x.axiWdata == emconUnlockMagic

/-- A level write that raises the level needs the lock off or a token. -/
def emconLevelNext (s : TdmaMac) (x : TdmaMacIn) : BitVec 2 :=
  if x.emconCtrlWr then
    if s.emconLevel < x.emconLevel then
      if !s.lock || s.unlockPending then x.emconLevel else s.emconLevel
    else x.emconLevel
  else s.emconLevel

def lockNext (s : TdmaMac) (x : TdmaMacIn) : Bool :=
  if x.emconCtrlWr then x.axiWdata.getLsbD 2 else s.lock

/-- A control write uses up the token, also one of the same cycle. -/
def unlockPendingNext (s : TdmaMac) (x : TdmaMacIn) : Bool :=
  if x.emconCtrlWr then false
  else if magicWrite x then true
  else s.unlockPending

/-- The sums and comparisons are of 16 bits, as wide as their operands. -/
def paAttenNext (s : TdmaMac) (x : TdmaMacIn) : BitVec 16 :=
  let steps := x.paRampSteps.setWidth 16
  if paEnable s.emconLevel x then
    if steps ≤ s.paAttenX100 then s.paAttenX100 - steps else 0
  else if s.paAttenX100 + steps ≤ 0x0FA0 then s.paAttenX100 + steps
  else 0x0FA0

/-- The counter and the output of the preamble. -/
def preambleNext (s : TdmaMac) (x : TdmaMacIn) : BitVec 12 × Bool :=
  if txSlot x && !s.prevTxSlot then (BitVec.ofNat 12 (preambleCycles - 1), true)
  else if 0 < s.preambleCnt then (s.preambleCnt - 1, true)
  else (s.preambleCnt, false)

/-- The registers after the clock edge. -/
def next (s : TdmaMac) (x : TdmaMacIn) : TdmaMac where
  unlockPending := unlockPendingNext s x
  emconLevel := emconLevelNext s x
  lock := lockNext s x
  txnrx := paEnable s.emconLevel x
  trSwitch := paEnable s.emconLevel x
  paAttenX100 := paAttenNext s x
  txSlotPrev := paEnable s.emconLevel x
  preambleCnt := (preambleNext s x).1
  preambleTx := (preambleNext s x).2
  prevTxSlot := txSlot x

structure Out where
  txnrx : Bool
  paEnable : Bool
  trSwitch : Bool
  preambleTx : Bool
  slotLock : Bool
  paAttenX100 : BitVec 16
  deriving DecidableEq, Repr

/-- One cycle: the outputs before the clock edge, and the registers after it. -/
def step (s : TdmaMac) (x : TdmaMacIn) : TdmaMac × Out :=
  (next s x, ⟨s.txnrx, paEnable s.emconLevel x, s.trSwitch, s.preambleTx, false,
    s.paAttenX100⟩)

end TdmaMac
end Cirradio.Fpga
