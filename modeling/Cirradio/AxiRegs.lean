import Cirradio.CallRuns

/-!
# The register block

`axi_regs` behind its AXI4-Lite port, one clock cycle a step. A write is applied when its
data is accepted, to the address accepted with it or to the last one before. The byte
strobes are not looked at.
-/

namespace Cirradio.Fpga

def regFhek0 : BitVec 12 := 0x000
def regFhek7 : BitVec 12 := 0x01C
def regBlacklistBase : BitVec 12 := 0x020
def regSlotBitmap : BitVec 12 := 0x070
def regTxPower : BitVec 12 := 0x074
def regControl : BitVec 12 := 0x07C
def regStatus : BitVec 12 := 0x080
def regRssi : BitVec 12 := 0x084
def regHopCounter : BitVec 12 := 0x088
def regErrBase : BitVec 12 := 0x08C
def regHopRate : BitVec 12 := 0x100
def regBlacklistSize : BitVec 12 := 0x104
def regInterleaverDepth : BitVec 12 := 0x108
def regPaRampSteps : BitVec 12 := 0x10C
def regEmconCtrl : BitVec 12 := 0x110
def regEmconUnlock : BitVec 12 := 0x114

/-- The registers that a write sets. -/
structure RegFile where
  fhek : Vector (BitVec 32) 8
  bl : Vector (BitVec 32) 20
  slotmap : BitVec 32
  txpow : BitVec 32
  ctrl : BitVec 32
  hopPeriod : BitVec 32
  blSize : BitVec 32
  ilDepth : BitVec 32
  paStep : BitVec 32
  emconCtrl : BitVec 32
  deriving DecidableEq, Repr

namespace RegFile

def reset : RegFile where
  fhek := .replicate 8 0
  bl := .replicate 20 0
  slotmap := 0
  txpow := 0
  ctrl := 0
  hopPeriod := 1000000
  blSize := 20
  ilDepth := 10
  paStep := 4
  emconCtrl := 2

/-- Words are addressed from a base. -/
def wordIndex (wa base : BitVec 12) : ℕ := ((wa - base) >>> 2).toNat

/-- A write to any other address changes nothing. -/
def write (f : RegFile) (wa : BitVec 12) (wdata : BitVec 32) : RegFile :=
  if regFhek0 ≤ wa ∧ wa ≤ regFhek7 then
    { f with fhek := f.fhek.setIfInBounds (wordIndex wa regFhek0) wdata }
  else if regBlacklistBase ≤ wa ∧ wa < regBlacklistBase + 20 * 4 then
    { f with bl := f.bl.setIfInBounds (wordIndex wa regBlacklistBase) wdata }
  else if wa = regSlotBitmap then { f with slotmap := wdata }
  else if wa = regTxPower then { f with txpow := wdata }
  else if wa = regControl then { f with ctrl := wdata }
  else if wa = regHopRate then { f with hopPeriod := wdata }
  else if wa = regBlacklistSize then { f with blSize := wdata }
  else if wa = regInterleaverDepth then { f with ilDepth := wdata }
  else if wa = regPaRampSteps then { f with paStep := wdata }
  else if wa = regEmconCtrl then { f with emconCtrl := wdata }
  else f

end RegFile

structure AxiIn where
  awaddr : BitVec 12
  awvalid : Bool
  wdata : BitVec 32
  wvalid : Bool
  bready : Bool
  araddr : BitVec 12
  arvalid : Bool
  rready : Bool
  status : BitVec 32
  rssi : BitVec 32
  hopCounter : BitVec 32
  errCount : Vector (BitVec 32) 20
  deriving DecidableEq, Repr

structure AxiRegs where
  file : RegFile
  emconCtrlWr : Bool
  emconUnlockWr : Bool
  wrPending : Bool
  wrAddr : BitVec 12
  bvalid : Bool
  rvalid : Bool
  rdata : BitVec 32
  deriving DecidableEq, Repr

namespace AxiRegs

/-- The latched address is not reset. -/
def reset (wrAddr : BitVec 12) : AxiRegs where
  file := .reset
  emconCtrlWr := false
  emconUnlockWr := false
  wrPending := false
  wrAddr := wrAddr
  bvalid := false
  rvalid := false
  rdata := 0

/-- Both channels are always ready, so a handshake is a valid signal. The data is applied
if an address is pending or accepted in the same cycle. -/
def applies (s : AxiRegs) (x : AxiIn) : Bool := x.wvalid && (s.wrPending || x.awvalid)

/-- The address of the data. -/
def wa (s : AxiRegs) (x : AxiIn) : BitVec 12 := if x.awvalid then x.awaddr else s.wrAddr

/-- The word that a read address selects. -/
def readWord (f : RegFile) (x : AxiIn) : BitVec 32 :=
  if x.araddr = regSlotBitmap then f.slotmap
  else if x.araddr = regTxPower then f.txpow
  else if x.araddr = regStatus then x.status
  else if x.araddr = regRssi then x.rssi
  else if x.araddr = regHopCounter then x.hopCounter
  else if x.araddr = regEmconCtrl then f.emconCtrl
  else if regFhek0 ≤ x.araddr ∧ x.araddr ≤ regFhek7 then
    f.fhek.getD (RegFile.wordIndex x.araddr regFhek0) 0
  else if regBlacklistBase ≤ x.araddr ∧ x.araddr < regBlacklistBase + 20 * 4 then
    f.bl.getD (RegFile.wordIndex x.araddr regBlacklistBase) 0
  else if regErrBase ≤ x.araddr ∧ x.araddr < regErrBase + 20 * 4 then
    x.errCount.getD (RegFile.wordIndex x.araddr regErrBase) 0
  else 0

/-- The registers after the clock edge. The strobes stay up while writes follow each
other, and a response that is taken clears the flag that a write in the same cycle sets. -/
def next (s : AxiRegs) (x : AxiIn) : AxiRegs where
  file := if s.applies x then s.file.write (s.wa x) x.wdata else s.file
  emconCtrlWr := s.applies x && (s.wa x == regEmconCtrl || s.emconCtrlWr)
  emconUnlockWr := s.applies x && (s.wa x == regEmconUnlock || s.emconUnlockWr)
  wrPending := !s.applies x && (x.awvalid || s.wrPending)
  wrAddr := if x.awvalid then x.awaddr else s.wrAddr
  bvalid := !(s.bvalid && x.bready) && (s.applies x || s.bvalid)
  rvalid := x.arvalid || (s.rvalid && !x.rready)
  rdata := if x.arvalid then readWord s.file x else s.rdata

structure Out where
  awready : Bool
  wready : Bool
  bresp : BitVec 2
  bvalid : Bool
  arready : Bool
  rdata : BitVec 32
  rresp : BitVec 2
  rvalid : Bool
  fhek : Vector (BitVec 32) 8
  blacklist : Vector (BitVec 32) 20
  slotBitmap : BitVec 32
  txPower : BitVec 32
  ctrl : BitVec 32
  hopPeriod : BitVec 32
  blacklistSize : BitVec 32
  interleaverDepth : BitVec 6
  paRampSteps : BitVec 32
  emconCtrl : BitVec 32
  emconCtrlWr : Bool
  emconUnlockWr : Bool
  axiWdata : BitVec 32
  deriving DecidableEq, Repr

/-- The outputs. The data of a strobe is what the data channel carries in its cycle. -/
def out (s : AxiRegs) (x : AxiIn) : Out where
  awready := true
  wready := true
  bresp := 0
  bvalid := s.bvalid
  arready := true
  rdata := s.rdata
  rresp := 0
  rvalid := s.rvalid
  fhek := s.file.fhek
  blacklist := s.file.bl
  slotBitmap := s.file.slotmap
  txPower := s.file.txpow
  ctrl := s.file.ctrl
  hopPeriod := s.file.hopPeriod
  blacklistSize := s.file.blSize
  interleaverDepth := s.file.ilDepth.setWidth 6
  paRampSteps := s.file.paStep
  emconCtrl := s.file.emconCtrl
  emconCtrlWr := s.emconCtrlWr
  emconUnlockWr := s.emconUnlockWr
  axiWdata := x.wdata

/-- One cycle: the outputs before the clock edge, and the registers after it. -/
def step (s : AxiRegs) (x : AxiIn) : AxiRegs × Out := (s.next x, s.out x)

end AxiRegs
end Cirradio.Fpga
