import Cirradio.CounterWindows
import Cirradio.SlotScheduler
import Mathlib.Data.List.Nodup
import Mathlib.Logic.Function.Iterate

/-!
# The beacon controller in turn

The controller of a frame is the node of the list at the frame's number. As frames advance,
the nodes of the list take turns, until the number of the frame wraps.
-/

namespace Cirradio.Tdma
open CounterWindows

namespace SlotScheduler

def beaconController (_ : SlotScheduler) (frameNumber : UInt32) (nodeList : List UInt32) :
    UInt32 :=
  if h : nodeList = [] then 0
  else nodeList.get ⟨frameNumber.toNat % nodeList.length,
    Nat.mod_lt _ (List.length_pos_iff.mpr h)⟩

variable (s : SlotScheduler) {nodeList : List UInt32}

theorem frameNumber_advanceFrame_iterate (k : ℕ) :
    (advanceFrame^[k] s).frame.frameNumber.toNat = (s.frame.frameNumber.toNat + k) % 2 ^ 32 := by
  induction k with
  | zero => exact (Nat.mod_eq_of_lt s.frame.frameNumber.toNat_lt).symm
  | succ k ih =>
    rw [Function.iterate_succ_apply']
    calc (advanceFrame^[k] s).advanceFrame.frame.frameNumber.toNat
        = ((advanceFrame^[k] s).frame.frameNumber.toNat + 1) % 2 ^ 32 :=
          UInt32.toNat_add _ _
      _ = (s.frame.frameNumber.toNat + (k + 1)) % 2 ^ 32 := by
          rw [ih, Nat.mod_add_mod, Nat.add_assoc]

/-- The controller `k` frames from now, of a list of nodes. -/
def controllerAfter (nodeList : List UInt32) (k : ℕ) : UInt32 :=
  (advanceFrame^[k] s).beaconController (advanceFrame^[k] s).frame.frameNumber nodeList

theorem controllerAfter_eq_iff (hnodup : nodeList.Nodup) (k : ℕ) {t : ℕ}
    (ht : t < nodeList.length) :
    s.controllerAfter nodeList k = nodeList.get ⟨t, ht⟩ ↔
      turn (2 ^ 32) nodeList.length s.frame.frameNumber.toNat k = t := by
  have hne : nodeList ≠ [] := List.length_pos_iff.mp (Nat.zero_lt_of_lt ht)
  rw [controllerAfter, beaconController, dif_neg hne, hnodup.get_inj_iff, Fin.mk.injEq,
    frameNumber_advanceFrame_iterate, turn]

/-- Each node of the list controls exactly one of the next frames, as many as there are
nodes, unless the frame number wraps within them and the nodes do not divide its range. -/
theorem controller_rotation (hnodup : nodeList.Nodup) :
    (∀ id ∈ nodeList, ∃! k, k < nodeList.length ∧ s.controllerAfter nodeList k = id) ↔
      s.frame.frameNumber.toNat + nodeList.length ≤ 2 ^ 32 ∨ nodeList.length ∣ 2 ^ 32 := by
  have hnumber := s.frame.frameNumber.toNat_lt
  rcases Nat.eq_zero_or_pos nodeList.length with hzero | hpos
  · obtain rfl := List.length_eq_zero_iff.mp hzero
    exact iff_of_true (fun id hid => absurd hid List.not_mem_nil) (.inl hnumber.le)
  rw [← apart_iff hnumber, apart_iff_existsUnique hpos, List.forall_mem_iff_get]
  constructor
  · intro h t ht
    simpa only [controllerAfter_eq_iff s hnodup _ ht] using h ⟨t, ht⟩
  · intro h t
    simpa only [controllerAfter_eq_iff s hnodup _ t.isLt] using h t t.isLt

/-- Three nodes at the first frame. -/
theorem controller_rotation_three :
    ∃! k, k < 3 ∧ (new 1).controllerAfter [1, 2, 3] k = 3 :=
  have hnodup : [(1 : UInt32), 2, 3].Nodup := by decide
  (controller_rotation (new 1) hnodup).mpr (.inl (by decide)) 3 (by decide)

end SlotScheduler
end Cirradio.Tdma
