import Cirradio.Transposers

/-!
# The modem

One clock cycle of `modem`: the serializer with its scrambler and encoder, the interleaver,
the mapper to symbols, the slicer, the deinterleaver and the descrambler. Filters, timing and
carrier recovery are replaced by a channel that delivers the signs of each symbol once and in
order. Registers and memories without a reset value keep what they hold.
-/

namespace Cirradio.Fpga
open Transposers

/-- Bits of a byte, scrambled and encoded one a cycle. -/
structure Serializer where
  lfsrTx : BitVec 7
  encShift : BitVec 7
  txByte : BitVec 8
  txBitCnt : BitVec 3
  txActive : Bool
  txBitValid : Bool
  deriving DecidableEq, Repr

/-- x^7 + x^6 + 1. -/
def lfsrBit (lfsr : BitVec 7) : Bool := lfsr.getLsbD 6 ^^ lfsr.getLsbD 5

/-- The first of the two generators. The second one leads nowhere. -/
def encOut0 (encShift : BitVec 7) : Bool :=
  encShift.getLsbD 0 ^^ encShift.getLsbD 1 ^^ encShift.getLsbD 3 ^^ encShift.getLsbD 4 ^^
    encShift.getLsbD 6

namespace Serializer

def reset : Serializer where
  lfsrTx := 0x7F
  encShift := 0
  txByte := 0
  txBitCnt := 0
  txActive := false
  txBitValid := false

def txReady (s : Serializer) : Bool := !s.txActive || s.txBitCnt == 7

/-- The byte that is accepted. -/
def accepts (s : Serializer) (tx : Option (BitVec 8)) : Option (BitVec 8) :=
  if s.txReady then tx else none

/-- The next bit of a byte is shifted out. -/
def shiftOut (s : Serializer) : Serializer where
  lfsrTx := s.lfsrTx.shiftConcat (lfsrBit s.lfsrTx)
  encShift := s.encShift.shiftConcat (s.txByte.getLsbD 7 ^^ lfsrBit s.lfsrTx)
  txByte := s.txByte.shiftConcat false
  txBitCnt := s.txBitCnt + 1
  txActive := s.txBitCnt != 7
  txBitValid := true

def next (s : Serializer) (tx : Option (BitVec 8)) : Serializer :=
  match s.accepts tx with
  | some data => { s with txByte := data, txActive := true, txBitCnt := 0, txBitValid := false }
  | none => if s.txActive then s.shiftOut else { s with txBitValid := false }

/-- What the interleaver writes. -/
def bit (s : Serializer) : Option Bool := if s.txBitValid then some (encOut0 s.encShift) else none

end Serializer

def ilCols : ℕ := 512

/-- Rows are filled one after the other, and columns are read. -/
def interleaverNext (depth : ℕ) (s : Transposer Bool) (bit : Option Bool) : Transposer Bool :=
  s.next depth ilCols bit

/-- Pairs of bits as the signs of I and Q. -/
structure Mapper where
  firstBit : Bool
  gotFirstBit : Bool
  qpskI : BitVec 16
  qpskQ : BitVec 16
  qpskValid : Bool
  deriving DecidableEq, Repr

namespace Mapper

def pos : BitVec 16 := 0x4000

def neg : BitVec 16 := 0xC000

def reset (s : Mapper) : Mapper := { s with gotFirstBit := false, qpskValid := false }

def next (s : Mapper) : Option Bool → Mapper
  | none => { s with qpskValid := false }
  | some bit =>
    if s.gotFirstBit then
      { s with
        qpskI := if s.firstBit then neg else pos
        qpskQ := if bit then neg else pos
        qpskValid := true
        gotFirstBit := false }
    else { s with firstBit := bit, gotFirstBit := true, qpskValid := false }

/-- The signs of I and Q. -/
def symbol (s : Mapper) : Option (Bool × Bool) :=
  if s.qpskValid then some (s.qpskI.msb, s.qpskQ.msb) else none

end Mapper

/-- The slicer feeds the deinterleaver with the sign of I only. -/
def slicerBit (symbol : Bool × Bool) : Bool := symbol.1

/-- Columns are filled one after the other, and rows are read. -/
def deinterleaverNext (depth : ℕ) (s : Transposer Bool) (bit : Option Bool) : Transposer Bool :=
  s.next ilCols depth bit

structure Descrambler where
  rxByte : BitVec 8
  rxBitCnt : BitVec 3
  lfsrRx : BitVec 7
  rxSymCount : BitVec 8
  rxData : BitVec 8
  rxValid : Bool
  deriving DecidableEq, Repr

namespace Descrambler

def reset : Descrambler where
  rxByte := 0
  rxBitCnt := 0
  lfsrRx := 0x7F
  rxSymCount := 0
  rxData := 0
  rxValid := false

def next (s : Descrambler) : Option Bool → Descrambler
  | none => { s with rxValid := false }
  | some rawBit =>
    let descrBit := rawBit ^^ lfsrBit s.lfsrRx
    let full := s.rxBitCnt == 7 && decide (200 ≤ s.rxSymCount)
    { rxByte := s.rxByte.shiftConcat descrBit
      rxBitCnt := s.rxBitCnt + 1
      lfsrRx := s.lfsrRx.shiftConcat rawBit
      rxSymCount := if s.rxSymCount < 200 then s.rxSymCount + 1 else s.rxSymCount
      rxData := if full then s.rxByte.shiftConcat descrBit else s.rxData
      rxValid := full }

/-- What is on the byte output. -/
def byte (s : Descrambler) : Option (BitVec 8) := if s.rxValid then some s.rxData else none

end Descrambler

/-- What is offered on the byte input, and whether the channel delivers a symbol. -/
structure ModemIn where
  tx : Option (BitVec 8)
  deliver : Bool
  deriving DecidableEq, Repr

structure Modem where
  serializer : Serializer
  interleaver : Transposer Bool
  mapper : Mapper
  inFlight : List (Bool × Bool)
  deinterleaver : Transposer Bool
  descrambler : Descrambler

namespace Modem

def reset (s : Modem) : Modem where
  serializer := .reset
  interleaver := s.interleaver.reset
  mapper := s.mapper.reset
  inFlight := []
  deinterleaver := s.deinterleaver.reset
  descrambler := .reset

/-- The symbols that the channel may deliver in a cycle. -/
def arrived (s : Modem) : List (Bool × Bool) := s.inFlight ++ s.mapper.symbol.toList

/-- What the deinterleaver writes. -/
def sliced (s : Modem) (x : ModemIn) : Option Bool :=
  if x.deliver then s.arrived.head?.map slicerBit else none

def next (depth : ℕ) (s : Modem) (x : ModemIn) : Modem where
  serializer := s.serializer.next x.tx
  interleaver := interleaverNext depth s.interleaver s.serializer.bit
  mapper := s.mapper.next s.interleaver.output
  inFlight := if x.deliver then s.arrived.tail else s.arrived
  deinterleaver := deinterleaverNext depth s.deinterleaver (s.sliced x)
  descrambler := s.descrambler.next s.deinterleaver.output

end Modem
end Cirradio.Fpga
