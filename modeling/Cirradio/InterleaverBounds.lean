import Cirradio.CallRuns
import Cirradio.Modem

/-!
# Where the interleavers write

The memories of the interleavers have 32 rows. The row counters turn round where they meet
the depth, and software may change the depth in any cycle. A counter that is past a depth
that has been lowered goes on, and leaves the memory behind the last row.
-/

namespace Cirradio.Fpga
open Transposers CallRuns

/-- The registers of an interleaver have nine bits. -/
def nineBits (s : Transposer Bool) : Transposer Bool :=
  { s with
    writeOuter := s.writeOuter % 512, writeInner := s.writeInner % 512
    readOuter := s.readOuter % 512, readInner := s.readInner % 512 }

/-- The parts of the modem that see the depth, and the serializer that feeds them. -/
structure Interleavers where
  serializer : Serializer
  interleaver : Transposer Bool
  deinterleaver : Transposer Bool

/-- The depth in a cycle, what is offered on the byte input and what the slicer delivers. -/
structure InterleaversIn where
  interleaverDepth : BitVec 6
  tx : Option (BitVec 8)
  slicerBit : Option Bool
  deriving DecidableEq, Repr

namespace Interleavers

def reset (s : Interleavers) : Interleavers where
  serializer := .reset
  interleaver := s.interleaver.reset
  deinterleaver := s.deinterleaver.reset

def next (s : Interleavers) (x : InterleaversIn) : Interleavers where
  serializer := s.serializer.next x.tx
  interleaver :=
    nineBits (interleaverNext x.interleaverDepth.toNat s.interleaver s.serializer.bit)
  deinterleaver :=
    nineBits (deinterleaverNext x.interleaverDepth.toNat s.deinterleaver x.slicerBit)

def step (s : Interleavers) (x : InterleaversIn) : Interleavers × Unit := (s.next x, ())

/-- The counters that address the rows of the memories. -/
inductive RowCounter where
  | ilWrow
  | ilRrow
  | dilWrow
  | dilRrow
  deriving DecidableEq, Repr

/-- The row that a counter addresses. -/
def row (s : Interleavers) : RowCounter → ℕ
  | .ilWrow => s.interleaver.writeOuter
  | .ilRrow => s.interleaver.readInner
  | .dilWrow => s.deinterleaver.writeInner
  | .dilRrow => s.deinterleaver.readOuter

/-- The counter is stepped in the cycle. The interleaver is filled and the deinterleaver drained
row by row, so that there a row is left with its last column. -/
def moves (s : Interleavers) (x : InterleaversIn) : RowCounter → Bool
  | .ilWrow => s.serializer.txBitValid && s.interleaver.writeInner + 1 == ilCols
  | .ilRrow => s.interleaver.active
  | .dilWrow => x.slicerBit.isSome
  | .dilRrow => s.deinterleaver.active && s.deinterleaver.readInner + 1 == ilCols

theorem row_next (s : Interleavers) (x : InterleaversIn) (c : RowCounter) :
    (s.next x).row c = turned x.interleaverDepth.toNat (s.row c) (s.moves x c) % 512 := by
  have hbit : s.serializer.bit.isSome = s.serializer.txBitValid := by
    unfold Serializer.bit
    cases s.serializer.txBitValid <;> rfl
  cases c with
  | ilWrow =>
    rw [moves, ← hbit]
    exact congrArg (· % 512) (Transposer.next_writeOuter ..)
  | ilRrow => exact congrArg (· % 512) (Transposer.next_readInner ..)
  | dilWrow => exact congrArg (· % 512) (Transposer.next_writeInner ..)
  | dilRrow => exact congrArg (· % 512) (Transposer.next_readOuter ..)

/-- The rows of a memory. -/
def ilRows : ℕ := 32

/-- All counters address rows of the memories. -/
def InMemory (s : Interleavers) : Prop := ∀ c, s.row c < ilRows

/-- Where a counter is stepped at the last row, the depth is the full one. -/
def TurnsAtLastRow (s : Interleavers) (x : InterleaversIn) : Prop :=
  ∀ c, s.moves x c = true → s.row c + 1 = ilRows → x.interleaverDepth.toNat = ilRows

theorem inMemory_reset (s : Interleavers) : s.reset.InMemory := by
  intro c
  cases c <;> exact Nat.zero_lt_succ 31

theorem turned_lt_ilRows_iff {depth i : ℕ} (hi : i < ilRows) (moves : Bool) :
    turned depth i moves % 512 < ilRows ↔
      (moves = true → i + 1 = ilRows → depth = ilRows) := by
  unfold ilRows turned at *
  cases moves with
  | false =>
    have hsmall : i % 512 = i := Nat.mod_eq_of_lt (by omega)
    simpa [hsmall] using hi
  | true =>
    simp only [if_true, true_implies]
    split_ifs with hturn
    · exact ⟨fun _ hlast => by omega, fun _ => by decide⟩
    · constructor
      · intro h hlast
        omega
      · intro h
        omega

theorem inMemory_next (s : Interleavers) (x : InterleaversIn) (h : s.InMemory) :
    (s.next x).InMemory ↔ s.TurnsAtLastRow x := by
  refine forall_congr' fun c => ?_
  rw [row_next]
  exact turned_lt_ilRows_iff (h c) _

/-- In a run from reset the counters stay in the memories exactly if none of them is stepped at
the last row under another depth than the full one. -/
theorem inMemory_iff_turnsAtLastRow (s : Interleavers) (xs : List InterleaversIn) :
    EveryState step s.reset InMemory xs ↔ EveryCall step s.reset TurnsAtLastRow xs :=
  everyState_iff_everyCall step s.reset (inMemory_reset s) inMemory_next xs

/-- In every run from reset under depths from 1 to 32 the counters stay in the memories. -/
def StaysInMemory : Prop :=
  ∀ (s : Interleavers) (xs : List InterleaversIn),
    (∀ x ∈ xs, 1 ≤ x.interleaverDepth.toNat ∧ x.interleaverDepth.toNat ≤ 32) →
      EveryState step s.reset InMemory xs

/-- Bits from the slicer under a depth, one in four cycles. -/
def slicedBits (depth : BitVec 6) (n : ℕ) : List InterleaversIn :=
  (List.replicate n (⟨depth, none, some true⟩ :: List.replicate 3 ⟨depth, none, none⟩)).flatten

/-- All memories empty. -/
def blank : Interleavers :=
  ⟨.reset, ⟨0, 0, 0, 0, false, false, fun _ _ => false, false, false⟩,
    ⟨0, 0, 0, 0, false, false, fun _ _ => false, false, false⟩⟩

/-- The depth is lowered from 32 to 10 when a column is filled up to its last row. -/
theorem dilWrow_lowered :
    (after step blank.reset (slicedBits 32 31 ++ slicedBits 10 1)).row .dilWrow = 32 := by
  decide +kernel

theorem not_staysInMemory : ¬ StaysInMemory := by
  intro h
  have hstays := h blank (slicedBits 32 31 ++ slicedBits 10 1) (by decide +kernel) 128 .dilWrow
  have hall : (slicedBits 32 31 ++ slicedBits 10 1).take 128 =
      slicedBits 32 31 ++ slicedBits 10 1 := List.take_of_length_le (by decide +kernel)
  rw [hall, dilWrow_lowered] at hstays
  exact absurd hstays (by decide)

end Interleavers
end Cirradio.Fpga
