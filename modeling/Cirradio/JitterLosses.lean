import Cirradio.JitterBuffer

/-!
# The jitter buffer after losses

A buffer that overflows drops its oldest frame, and playback goes on if the frame that is then
the oldest is the one that is expected. Where frames are missing between the dropped one and
the next, it is not.
-/

namespace Cirradio.Voice
namespace JitterBuffer
open OrderedMaps CallRuns

variable {b : JitterBuffer} {sequence oldest : UInt32} {frame : VoiceFrame}

/-- With the frame, the buffer holds more frames than it may. -/
def Overflows (b : JitterBuffer) (sequence : UInt32) (frame : VoiceFrame) : Prop :=
  b.depth < (b.store sequence frame).buffer.size

/-- `pop` returns the oldest frame of the buffer. -/
def PlaysOldest (b : JitterBuffer) : Prop :=
  ∃ oldest frame, b.buffer.minKey? = some oldest ∧ b.buffer[oldest]? = some frame ∧
    b.pop.2 = some frame ∧ b.pop.1.buffer = b.buffer.erase oldest

/-- If the push overflows, the oldest frame that is left can be played. -/
def Recovers (b : JitterBuffer) : Op → Prop
  | .push sequence frame => b.Overflows sequence frame → (b.push sequence frame).PlaysOldest
  | .pop => True

/-- If the push overflows, the oldest frame that is left is next: it comes right behind the
dropped one if that was next, and is the one expected before otherwise. -/
def LeavesNext (b : JitterBuffer) : Op → Prop
  | .push sequence frame => b.Overflows sequence frame →
    ∃ oldest second, (b.store sequence frame).buffer.minKey? = some oldest ∧
      ((b.store sequence frame).buffer.erase oldest).minKey? = some second ∧
      if b.firstPush = true ∨ oldest = b.nextSeq then second = oldest + 1
      else second = b.nextSeq
  | .pop => True

theorem playsOldest_iff (hmin : b.buffer.minKey? = some oldest) :
    b.PlaysOldest ↔ b.nextSeq = oldest := by
  constructor
  · rintro ⟨_, frame, hmin', -, hplays, hleft⟩
    cases hmin.symm.trans hmin'
    by_contra hne
    cases hnext : b.buffer[b.nextSeq]? with
    | none =>
      rw [pop_of_none hnext] at hplays
      cases hplays
    | some frame' =>
      -- the oldest frame would still be in the buffer
      rw [pop_of_some hnext] at hleft
      have hstays : oldest ∈ b.buffer.erase b.nextSeq :=
        mem_erase_iff.mpr ⟨fun h => hne h.symm, (minKey?_eq_some_iff.mp hmin).1⟩
      have hgone : oldest ∉ b.buffer.erase oldest := fun h => (mem_erase_iff.mp h).1 rfl
      exact hgone (hleft ▸ hstays)
  · rintro rfl
    obtain ⟨frame, hframe⟩ := exists_of_mem (minKey?_eq_some_iff.mp hmin).1
    refine ⟨b.nextSeq, frame, hmin, hframe, ?_, ?_⟩
    · rw [pop_of_some hframe]
    · rw [pop_of_some hframe]

theorem not_playsOldest_of_none (hmin : b.buffer.minKey? = none) : ¬ b.PlaysOldest := by
  rintro ⟨_, _, hsome, -⟩
  cases hmin.symm.trans hsome

theorem nextSeq_drop (hmin : (b.store sequence frame).buffer.minKey? = some oldest) :
    ((b.store sequence frame).drop oldest).nextSeq =
      if b.firstPush = true ∨ oldest = b.nextSeq then oldest + 1 else b.nextSeq := by
  unfold drop
  rw [nextSeq_store hmin]
  cases b.firstPush with
  | true => simp
  | false =>
    by_cases hnext : oldest = b.nextSeq
    · simp [hnext]
    · simp [hnext]

theorem recovers_iff (h : b.Bounded) (op : Op) : b.Recovers op ↔ b.LeavesNext op := by
  cases op with
  | pop => rfl
  | push sequence frame =>
    refine imp_congr_right fun hover => ?_
    rcases push_cases h sequence frame with ⟨hfits, -⟩ | ⟨oldest, hmin, -, heq⟩
    · exact absurd hfits (Nat.not_le.mpr hover)
    · rw [heq]
      have hnext := nextSeq_drop hmin
      cases hsecond : ((b.store sequence frame).buffer.erase oldest).minKey? with
      | none =>
        refine iff_of_false (not_playsOldest_of_none hsecond) ?_
        rintro ⟨_, second, hmin', hsecond', -⟩
        cases hmin.symm.trans hmin'
        cases hsecond.symm.trans hsecond'
      | some second =>
        rw [playsOldest_iff (b := (b.store sequence frame).drop oldest) hsecond, hnext]
        constructor
        · intro heq'
          refine ⟨oldest, second, hmin, hsecond, ?_⟩
          split_ifs at heq' ⊢
          · exact heq'.symm
          · exact heq'.symm
        · rintro ⟨_, _, hmin', hsecond', hright⟩
          cases hmin.symm.trans hmin'
          cases hsecond.symm.trans hsecond'
          split_ifs at hright ⊢
          · exact hright.symm
          · exact hright.symm

/-- In a run of a fresh jitter buffer, the oldest frame can be played after every overflow exactly
if every overflow leaves the frame that is next. -/
theorem recovers_iff_leavesNext (depth : ℕ) (ops : List Op) :
    EveryCall step (new depth) Recovers ops ↔ EveryCall step (new depth) LeavesNext ops := by
  refine forall_congr' fun i => forall₂_congr fun op _ => ?_
  exact recovers_iff (bounded_after depth (ops.take i)) op

/-- After every overflow the oldest frame can be played, in every run of numbers below the
largest two. -/
def AlwaysRecovers : Prop :=
  ∀ depth ≥ 1, ∀ ops : List Op,
    (∀ sequence frame, .push sequence frame ∈ ops → sequence.toNat < 2 ^ 32 - 1) →
    EveryCall step (new depth) Recovers ops

/-- A buffer for one frame in which frame 5 has come. -/
def holdsFive : JitterBuffer := (new 1).push 5 [1]

theorem holdsFive_eq : holdsFive = (new 1).store 5 [1] :=
  dropOldest_of_le (b := (new 1).store 5 [1]) (by decide)

/-- Frame 5 is dropped for frame 10, and frame 6 is waited for. -/
theorem not_leavesNext_holdsFive : ¬ holdsFive.LeavesNext (.push 10 [2]) := by
  have hfive : (((new 1).store 5 [1]).store 10 [2]).buffer.minKey? = some 5 := by
    change (((∅ : Std.ExtTreeMap UInt32 VoiceFrame).insert 5 [1]).insert 10 [2]).minKey? = some 5
    rw [Std.ExtTreeMap.minKey?_insert, Std.ExtTreeMap.minKey?_insert,
      Std.ExtTreeMap.minKey?_empty]
    rfl
  rw [holdsFive_eq]
  intro h
  obtain ⟨oldest, second, hmin, hsecond, hnext⟩ := h (by unfold Overflows; decide)
  cases hfive.symm.trans hmin
  rw [if_pos (.inl rfl)] at hnext
  subst hnext
  have hmem := (mem_erase_iff.mp (minKey?_eq_some_iff.mp hsecond).1).2
  rcases mem_insert_iff.mp hmem with hten | hold
  · exact absurd hten (by decide)
  · rcases mem_insert_iff.mp hold with hfive | hnone
    · exact absurd hfive (by decide)
    · exact absurd hnone Std.ExtTreeMap.not_mem_empty

theorem not_alwaysRecovers : ¬ AlwaysRecovers := by
  intro h
  have hsmall : ∀ sequence frame, .push sequence frame ∈ [Op.push 5 [1], Op.push 10 [2]] →
      sequence.toNat < 2 ^ 32 - 1 := by
    intro sequence frame hmem
    rcases List.mem_cons.mp hmem with hfive | hten
    · cases hfive
      decide
    · cases List.mem_singleton.mp hten
      decide
  have hrun := h 1 (Nat.le_refl 1) [.push 5 [1], .push 10 [2]] hsmall 1 (.push 10 [2]) rfl
  exact not_leavesNext_holdsFive ((recovers_iff (bounded_push (bounded_new 1)) _).mp hrun)

end JitterBuffer
end Cirradio.Voice
