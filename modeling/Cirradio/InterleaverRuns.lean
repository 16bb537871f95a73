import Cirradio.Modem
import Cirradio.SerializerBits
import Cirradio.TransposerRuns

/-!
# Runs of the interleavers

Interleaver and deinterleaver undo each other as long as no bit is written while a block is
drained. The serializer does not wait for that, so that the interleaver writes over bits that
are still to be read unless the bytes come slowly enough.
-/

namespace Cirradio.Fpga
open Transposers Transposer CallRuns

def interleaverStep (depth : ℕ) (s : Transposer Bool) (bit : Option Bool) :
    Transposer Bool × Option Bool := (interleaverNext depth s bit, s.output)

def deinterleaverStep (depth : ℕ) (s : Transposer Bool) (bit : Option Bool) :
    Transposer Bool × Option Bool := (deinterleaverNext depth s bit, s.output)

/-- The bits that the interleaver emits. -/
def txBits (depth : ℕ) (s : Transposer Bool) (bits : List (Option Bool)) : List Bool :=
  emitted depth ilCols s bits

/-- The bits that the deinterleaver emits. -/
def rxBits (depth : ℕ) (s : Transposer Bool) (bits : List (Option Bool)) : List Bool :=
  emitted ilCols depth s bits

/-- What the interleaver emits comes out of the deinterleaver in the order in which it was
written, all of it once full blocks are drained, and all counters return to zero. -/
theorem deinterleaver_undoes {depth : ℕ} (hdepth : depth ∈ Set.Icc 1 32) (tx rx : Transposer Bool)
    {xs ys : List (Option Bool)}
    (hxs : EveryCall (interleaverStep depth) tx.reset Undisturbed xs)
    (hys : EveryCall (deinterleaverStep depth) rx.reset Undisturbed ys) :
    (ys.reduceOption <+: txBits depth tx.reset xs → rxBits depth rx.reset ys <+: xs.reduceOption) ∧
      (∀ blocks, xs.reduceOption.length = blocks * (depth * ilCols) →
        ys.reduceOption = txBits depth tx.reset (xs ++ drain depth ilCols) →
        rxBits depth rx.reset (ys ++ drain ilCols depth) = xs.reduceOption) ∧
      Realigns depth ilCols tx.reset xs ∧ Realigns ilCols depth rx.reset ys := by
  have hcols : 0 < ilCols := by decide
  have hxs' : EveryCall (Transposer.step depth ilCols) tx.reset (Clear depth) xs :=
    fun i bit hbit => (hxs i bit hbit).clear depth
  have hys' : EveryCall (Transposer.step ilCols depth) rx.reset (Clear ilCols) ys :=
    fun i bit hbit => (hys i bit hbit).clear ilCols
  refine ⟨fun hfed => ?_, fun blocks hblocks hfed => ?_, ?_, ?_⟩
  · exact emitted_isPrefix hdepth.1 hcols tx rx hxs' hys' hfed
  · exact emitted_drain_eq hdepth.1 hcols tx rx hxs' hys' hblocks hfed
  · exact realigns_of_clear hdepth.1 hcols tx hxs'
  · exact realigns_of_clear hcols hdepth.1 rx hys'

/-- Memories without contents. -/
def blankMemory : Transposer Bool := ⟨0, 0, 0, 0, false, false, fun _ _ => false, false, false⟩

/-- A block of two rows. -/
def twoRows : List Bool := (List.range (2 * ilCols)).map fun n => n % 3 == 0

/-- The block is written and drained, and written and drained again. -/
theorem deinterleaver_undoes_twoRows :
    rxBits 2 blankMemory.reset
      ((txBits 2 blankMemory.reset (twoRows.map some ++ drain 2 ilCols)).map some ++
        drain ilCols 2) = twoRows := by
  have hsome : ∀ l : List Bool, (l.map some).reduceOption = l := fun l => by
    simp [List.reduceOption]
  have hrows : twoRows.length = 2 * ilCols := by rw [twoRows, List.length_map, List.length_range]
  have hlen : (twoRows.map some ++ drain 2 ilCols).reduceOption.length = 2 * ilCols := by
    rw [reduceOption_append_drain, hsome, hrows]
  have hxs := undisturbed_of_first Nat.two_pos (by decide) blankMemory hlen.le
  have hout := emitted_le Nat.two_pos (by decide) blankMemory fun i v hv => (hxs i v hv).clear 2
  have hblock : EveryCall (interleaverStep 2) blankMemory.reset Undisturbed
      (twoRows.map some) := ((everyCall_append _ _).mp hxs).1
  have hback : EveryCall (deinterleaverStep 2) blankMemory.reset Undisturbed
      ((txBits 2 blankMemory.reset (twoRows.map some ++ drain 2 ilCols)).map some) := by
    refine undisturbed_of_first (by decide) Nat.two_pos blankMemory ?_
    rw [hsome, Nat.mul_comm]
    exact hout.trans hlen.le
  have hdepth : 2 ∈ Set.Icc 1 32 := ⟨by decide, by decide⟩
  have hround := (deinterleaver_undoes hdepth blankMemory blankMemory hblock hback).2.1 1
    (by rw [hsome, hrows, Nat.one_mul]) (hsome _)
  rwa [hsome] at hround

/-- What the serializer gives to the interleaver in each cycle. -/
def sentBits (txs : List (Option (BitVec 8))) : List (Option Bool) :=
  events Serializer.step (fun s _ => [s.bit]) .reset txs

/-- The interleaver never writes over a bit that is still to be read, and emits the columns of
its blocks, in exactly the runs in which the bits of a block leave the one before enough time. -/
theorem interleaver_keeps_iff_spaced {depth : ℕ} (hdepth : depth ∈ Set.Icc 1 32)
    (s : Transposer Bool) (txs : List (Option (BitVec 8))) :
    (EveryCall (interleaverStep depth) s.reset (fun t bit => t.Clear depth bit) (sentBits txs) ∧
        ColumnMajor depth ilCols s.reset (sentBits txs)) ↔
      Spaced depth ilCols (sentBits txs) := by
  have hcols : 0 < ilCols := by decide
  rw [← everyCall_clear_iff_spaced hdepth.1 hcols s]
  constructor
  · rintro ⟨hclear, -⟩
    exact hclear
  · intro hclear
    exact ⟨hclear, columnMajor_of_clear hdepth.1 hcols s hclear⟩

/-- A byte of zeros in every nine cycles. -/
def zeroBytes (n : ℕ) : List (Option (BitVec 8)) :=
  (List.replicate n (some 0 :: List.replicate 8 none)).flatten

/-- A block of two rows, a pause in which it is drained, and some of the next block. -/
def pausedBytes : List (Option (BitVec 8)) :=
  zeroBytes 128 ++ List.replicate 1100 none ++ zeroBytes 20

theorem sentBits_pausedBytes : (sentBits pausedBytes).reduceOption.length < 2048 ∧
    ((sentBits pausedBytes).take 1160).reduceOption.length = 1024 ∧
    ((sentBits pausedBytes).take 2250).reduceOption.length = 1024 := by
  set_option maxRecDepth 100000 in
  decide +kernel

/-- The second block comes when the first is drained. -/
theorem interleaver_keeps_iff_spaced_paused :
    EveryCall (interleaverStep 2) blankMemory.reset (fun t bit => t.Clear 2 bit)
        (sentBits pausedBytes) ∧
      ColumnMajor 2 ilCols blankMemory.reset (sentBits pausedBytes) := by
  have hdepth : 2 ∈ Set.Icc 1 32 := ⟨by decide, by decide⟩
  refine (interleaver_keeps_iff_spaced hdepth blankMemory pausedBytes).mpr ?_
  obtain ⟨htotal, hblock, hpause⟩ := sentBits_pausedBytes
  intro k i j n last t hi hj hn hlast ht
  have hnumber := hlast.lt_written
  have hbefore := hlast.lt_iff 1160
  have hafter := ht.lt_iff 2250
  rw [hblock] at hbefore
  rw [hpause] at hafter
  change n + 1 = k * 1024 at hn
  change t < 2250 ↔ k * 1024 + (i * 512 + j) < 1024 at hafter
  change j < 512 at hj
  obtain rfl : k = 1 := by omega
  omega

theorem sentBits_zeroBytes : (sentBits (zeroBytes 130))[1155]? = some (some true) := by
  set_option maxRecDepth 100000 in
  decide +kernel

theorem not_clear_zeroBytes : ¬ (after (interleaverStep 2) blankMemory.reset
    ((sentBits (zeroBytes 130)).take 1155)).Clear 2 (some true) := by
  set_option maxRecDepth 100000 in
  decide +kernel

/-- With two rows the second bit of the second block is written one cycle too early. -/
theorem not_keeps : ¬ ∀ depth ∈ Set.Icc 1 32, ∀ (s : Transposer Bool)
    (txs : List (Option (BitVec 8))),
    EveryCall (interleaverStep depth) s.reset (fun t bit => t.Clear depth bit) (sentBits txs) ∧
      ColumnMajor depth ilCols s.reset (sentBits txs) := by
  intro h
  have hclear := (h 2 ⟨by decide, by decide⟩ blankMemory (zeroBytes 130)).1
  exact not_clear_zeroBytes (hclear 1155 _ sentBits_zeroBytes)

end Cirradio.Fpga
