import Cirradio.CallRuns
import Mathlib.Data.BitVec
import Mathlib.Data.List.ReduceOption

/-!
# Timing recovery

The timing detector of the receive path takes two samples to a symbol and chooses one of them
where a counter goes over. The error is taken off as an unsigned byte, so that the carry of the
sum says the opposite where the error is below zero, while the counter itself goes on as it
should.
-/

namespace Cirradio.Fpga
open CallRuns

structure GardnerTed where
  y0I : BitVec 16
  y1I : BitVec 16
  y2I : BitVec 16
  tedErr : BitVec 32
  tedStrobe : Bool
  interpCnt : BitVec 8
  deriving DecidableEq, Repr

namespace GardnerTed

def interpStep : BitVec 32 := 128

/-- The error is not reset. -/
def reset (s : GardnerTed) : GardnerTed :=
  { s with y0I := 0, y1I := 0, y2I := 0, interpCnt := 0, tedStrobe := false }

/-- The sum is there in the same cycle. -/
def nextCnt (s : GardnerTed) : BitVec 9 :=
  (s.interpCnt.setWidth 32 + interpStep - (s.tedErr.extractLsb' 24 8).setWidth 32).setWidth 9

/-- A clock edge, with the sample if there is one. -/
def next (s : GardnerTed) : Option (BitVec 16) → GardnerTed
  | none => { s with tedStrobe := false }
  | some mfI =>
    { y2I := s.y1I
      y1I := s.y0I
      y0I := mfI
      tedErr := (s.y0I.signExtend 32 - s.y2I.signExtend 32) * s.y1I.signExtend 32
      tedStrobe := s.nextCnt.getLsbD 8
      interpCnt := s.nextCnt.setWidth 8 }

def step (s : GardnerTed) (x : Option (BitVec 16)) : GardnerTed × Unit := (s.next x, ())

/-- The strobe behind every sample of a run. -/
def strobes (s : GardnerTed) (xs : List (Option (BitVec 16))) : List Bool :=
  events step (fun s x => if x.isSome then [(s.next x).tedStrobe] else []) s xs

/-- The state after samples without cycles between them. -/
def sampled (powerUp : GardnerTed) (samples : List (BitVec 16)) : GardnerTed :=
  after step powerUp.reset (samples.map some)

/-- The error as the counter should take it off. -/
def error (s : GardnerTed) : ℤ := (s.tedErr.extractLsb' 24 8).toInt

/-- The sum that the counter should go on to. -/
def due (s : GardnerTed) : ℤ := s.interpCnt.toNat + 128 - s.error

theorem due_mem_Icc (s : GardnerTed) : 1 ≤ s.due ∧ s.due < 512 := by
  have hcnt := s.interpCnt.isLt
  have hlow := BitVec.le_toInt (s.tedErr.extractLsb' 24 8)
  have hhigh := BitVec.toInt_lt (x := s.tedErr.extractLsb' 24 8)
  unfold due error
  omega

/-- With an error below zero the sum is short by one turn of the counter. -/
theorem toNat_nextCnt (s : GardnerTed) :
    ((s.nextCnt.toNat : ℕ) : ℤ) = if s.error < 0 then (s.due + 256) % 512 else s.due := by
  have hrange := s.due_mem_Icc
  have hcnt := s.interpCnt.isLt
  have hbyte := (s.tedErr.extractLsb' 24 8).isLt
  unfold nextCnt due error at *
  generalize s.tedErr.extractLsb' 24 8 = err at hrange hbyte ⊢
  rw [BitVec.toInt_eq_toNat_cond] at hrange ⊢
  have hstep : interpStep.toNat = 128 := rfl
  simp only [BitVec.toNat_setWidth, BitVec.toNat_sub, BitVec.toNat_add, hstep]
  split at hrange
  · omega
  · split
    · omega
    · omega

theorem tedStrobe_next (s : GardnerTed) (sample : BitVec 16) :
    (s.next (some sample)).tedStrobe = (decide (256 ≤ s.due) ^^ decide (s.error < 0)) := by
  have hrange := s.due_mem_Icc
  have hsum := s.toNat_nextCnt
  change s.nextCnt.msb = _
  rw [BitVec.msb_eq_decide]
  by_cases herr : s.error < 0
  · rw [if_pos herr] at hsum
    rw [decide_eq_true herr, Bool.xor_true, ← decide_not]
    congr 1
    apply propext
    omega
  · rw [if_neg herr] at hsum
    rw [decide_eq_false herr, Bool.xor_false]
    congr 1
    apply propext
    omega

theorem interpCnt_next (s : GardnerTed) (sample : BitVec 16) :
    ((s.next (some sample)).interpCnt.toNat : ℤ) = s.due % 256 := by
  have hrange := s.due_mem_Icc
  have hsum := s.toNat_nextCnt
  change ((s.nextCnt.setWidth 8).toNat : ℤ) = _
  rw [BitVec.toNat_setWidth]
  split at hsum
  · omega
  · omega

theorem sampled_concat (powerUp : GardnerTed) (samples : List (BitVec 16)) (sample : BitVec 16) :
    sampled powerUp (samples ++ [sample]) = (sampled powerUp samples).next (some sample) := by
  rw [sampled, List.map_append]
  exact after_concat ..

/-- A cycle without a sample only ends the strobe. -/
theorem after_eq_sampled (powerUp : GardnerTed) (xs : List (Option (BitVec 16))) :
    ∃ strobe, after step powerUp.reset xs =
      { sampled powerUp xs.reduceOption with tedStrobe := strobe } := by
  induction xs using List.reverseRecOn with
  | nil => exact ⟨false, rfl⟩
  | append_singleton xs x ih =>
    obtain ⟨strobe, hstate⟩ := ih
    rw [after_concat, hstate, List.reduceOption_append, List.reduceOption_singleton]
    cases x with
    | none =>
      refine ⟨false, ?_⟩
      rw [Option.toList_none, List.append_nil]
      rfl
    | some sample =>
      refine ⟨((sampled powerUp xs.reduceOption).next (some sample)).tedStrobe, ?_⟩
      rw [Option.toList_some, sampled_concat]
      rfl

theorem strobes_eq_map (powerUp : GardnerTed) (xs : List (Option (BitVec 16))) :
    strobes powerUp.reset xs = (List.range xs.reduceOption.length).map fun k =>
      (sampled powerUp (xs.reduceOption.take (k + 1))).tedStrobe := by
  induction xs using List.reverseRecOn with
  | nil => rfl
  | append_singleton xs x ih =>
    rw [strobes, events_concat, ← strobes, ih, List.reduceOption_append,
      List.reduceOption_singleton]
    cases x with
    | none =>
      rw [Option.toList_none, List.append_nil]
      exact List.append_nil _
    | some sample =>
      obtain ⟨strobe, hstate⟩ := after_eq_sampled powerUp xs
      have hlast : ((after step powerUp.reset xs).next (some sample)).tedStrobe =
          (sampled powerUp (xs.reduceOption ++ [sample])).tedStrobe := by
        rw [hstate, sampled_concat]
        rfl
      rw [Option.toList_some, List.length_append, List.length_singleton, List.range_succ,
        List.map_append]
      congr 1
      · apply List.map_congr_left
        intro k hk
        rw [List.take_append_of_le_length (List.mem_range.mp hk)]
      · rw [Option.isSome_some, if_pos rfl, hlast, List.map_singleton,
          List.take_of_length_le (by simp)]

/-- The state after some of the samples of a run. -/
def atSample (powerUp : GardnerTed) (xs : List (Option (BitVec 16))) (k : ℕ) : GardnerTed :=
  sampled powerUp (xs.reduceOption.take k)

theorem atSample_succ (powerUp : GardnerTed) {xs : List (Option (BitVec 16))} {k : ℕ}
    (hk : k < xs.reduceOption.length) :
    atSample powerUp xs (k + 1) = (atSample powerUp xs k).next (some xs.reduceOption[k]) := by
  rw [atSample, List.take_add_one, List.getElem?_eq_getElem hk]
  exact sampled_concat ..

theorem getElem?_strobes (powerUp : GardnerTed) {xs : List (Option (BitVec 16))} {k : ℕ}
    (hk : k < xs.reduceOption.length) :
    (strobes powerUp.reset xs)[k]? = some (atSample powerUp xs (k + 1)).tedStrobe := by
  rw [strobes_eq_map, List.getElem?_map, List.getElem?_range hk]
  rfl

theorem one_sample (powerUp : GardnerTed) {xs : List (Option (BitVec 16))} {k : ℕ}
    (hk : k < xs.reduceOption.length) :
    (atSample powerUp xs (k + 1)).tedStrobe =
        (decide (256 ≤ (atSample powerUp xs k).due) ^^
          decide ((atSample powerUp xs k).error < 0)) ∧
      ((atSample powerUp xs (k + 1)).interpCnt.toNat : ℤ) =
        (atSample powerUp xs k).due % 256 := by
  rw [atSample_succ powerUp hk]
  exact ⟨tedStrobe_next .., interpCnt_next ..⟩

/-- The counter has gone over at a sample. -/
def goesOver (powerUp : GardnerTed) (xs : List (Option (BitVec 16))) (k : ℕ) : Bool :=
  (atSample powerUp xs (k + 1)).tedStrobe ^^ decide ((atSample powerUp xs k).error < 0)

/-- What the counter has counted: half a symbol to a sample, less the errors. -/
theorem counted (powerUp : GardnerTed) (xs : List (Option (BitVec 16))) {n : ℕ}
    (hn : n ≤ xs.reduceOption.length) :
    256 * ((List.range n).countP (goesOver powerUp xs) : ℤ) +
        (atSample powerUp xs n).interpCnt.toNat =
      128 * n - ((List.range n).map fun k => (atSample powerUp xs k).error).sum := by
  induction n with
  | zero => rfl
  | succ n ih =>
    have hrange := (atSample powerUp xs n).due_mem_Icc
    have hdue : (atSample powerUp xs n).due = (atSample powerUp xs n).interpCnt.toNat + 128 -
        (atSample powerUp xs n).error := rfl
    obtain ⟨hstrobe, hcnt⟩ := one_sample powerUp hn
    have hover : goesOver powerUp xs n = decide (256 ≤ (atSample powerUp xs n).due) := by
      rw [goesOver, hstrobe, Bool.xor_assoc, Bool.xor_self, Bool.xor_false]
    have ih := ih (Nat.le_of_succ_le hn)
    rw [List.range_succ, List.countP_append, List.countP_singleton, List.map_append,
      List.sum_append, List.map_singleton, List.sum_singleton, hover]
    by_cases hcarry : 256 ≤ (atSample powerUp xs n).due
    · rw [if_pos (decide_eq_true hcarry)]
      push_cast
      omega
    · rw [if_neg (by simpa using hcarry)]
      push_cast
      omega

theorem interpCnt_of_quiet (powerUp : GardnerTed) {xs : List (Option (BitVec 16))}
    (hquiet : ∀ k, (atSample powerUp xs k).error = 0) {n : ℕ} (hn : n ≤ xs.reduceOption.length) :
    (atSample powerUp xs n).interpCnt.toNat = 128 * (n % 2) := by
  induction n with
  | zero => rfl
  | succ n ih =>
    have hnext := (one_sample powerUp hn).2
    have ih := ih (Nat.le_of_succ_le hn)
    rw [due, hquiet] at hnext
    omega

theorem strobe_of_quiet (powerUp : GardnerTed) {xs : List (Option (BitVec 16))}
    (hquiet : ∀ k, (atSample powerUp xs k).error = 0) {k : ℕ} (hk : k < xs.reduceOption.length) :
    (atSample powerUp xs (k + 1)).tedStrobe = decide (k % 2 = 1) := by
  have hcnt := interpCnt_of_quiet powerUp hquiet (Nat.le_of_lt hk)
  have hdue : (atSample powerUp xs k).due = (atSample powerUp xs k).interpCnt.toNat + 128 := by
    rw [due, hquiet, sub_zero]
  rw [(one_sample powerUp hk).1, hquiet, decide_eq_false (lt_irrefl 0), Bool.xor_false]
  congr 1
  apply propext
  omega

/-- At each sample the counter goes on as it should, and the strobe comes where it goes over, but
where it should not if the error is below zero. So the counter counts half a symbol to a sample
less the errors, and without errors the strobe is behind every second sample. -/
theorem strobes_law (powerUp : GardnerTed) (xs : List (Option (BitVec 16))) :
    (∀ k, k < xs.reduceOption.length →
      (strobes powerUp.reset xs)[k]? = some
          (decide (256 ≤ (atSample powerUp xs k).due) ^^
            decide ((atSample powerUp xs k).error < 0)) ∧
        ((atSample powerUp xs (k + 1)).interpCnt.toNat : ℤ) =
          (atSample powerUp xs k).due % 256) ∧
    (∀ n, n ≤ xs.reduceOption.length →
      256 * ((List.range n).countP (goesOver powerUp xs) : ℤ) +
          (atSample powerUp xs n).interpCnt.toNat =
        128 * n - ((List.range n).map fun k => (atSample powerUp xs k).error).sum) ∧
    ((∀ k, (atSample powerUp xs k).error = 0) → ∀ k, k < xs.reduceOption.length →
      (strobes powerUp.reset xs)[k]? = some (decide (k % 2 = 1))) := by
  refine ⟨fun k hk => ?_, fun n hn => counted powerUp xs hn, fun hquiet k hk => ?_⟩
  · rw [getElem?_strobes powerUp hk]
    exact ⟨congrArg some (one_sample powerUp hk).1, (one_sample powerUp hk).2⟩
  · rw [getElem?_strobes powerUp hk, strobe_of_quiet powerUp hquiet hk]

/-- All registers at zero. -/
def blank : GardnerTed := ⟨0, 0, 0, 0, false, 0⟩

theorem strobes_law_silence :
    (strobes blank.reset (List.replicate 9 (some 0)))[3]? = some true :=
  ((strobes_law blank (List.replicate 9 (some 0))).1 3 (by decide)).1.trans (by decide)

example : strobes blank.reset (List.replicate 9 (some 0)) =
    [false, true, false, true, false, true, false, true, false] := by decide

end GardnerTed

end Cirradio.Fpga
