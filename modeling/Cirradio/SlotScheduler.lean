import Cirradio.HsmEngine

/-!
# The slot scheduler

A frame has twenty slots whose types go by position. A node claims traffic and
data-only slots of the current frame.
-/

namespace Cirradio.Tdma
open Security

inductive SlotType where
  | beacon
  | traffic
  | dataOnly
  | keyMgmt
  | discovery
  deriving DecidableEq, Repr

structure SlotInfo where
  type : SlotType
  ownerId : UInt32
  active : Bool
  deriving DecidableEq, Repr

def kSlotCount : ℕ := 20

structure Frame where
  frameNumber : UInt32
  slots : Vector SlotInfo kSlotCount
  deriving DecidableEq, Repr

namespace Frame

def typeForSlot (index : ℕ) : SlotType :=
  if index = 0 then .beacon
  else if index ≤ 14 then .traffic
  else if index ≤ 17 then .dataOnly
  else if index = 18 then .keyMgmt
  else .discovery

def new (frameNumber : UInt32) : Frame :=
  ⟨frameNumber, Vector.ofFn fun i => ⟨typeForSlot i, 0, false⟩⟩

end Frame

structure SlotScheduler where
  nodeId : UInt32
  frame : Frame
  deriving DecidableEq, Repr

namespace SlotScheduler

def new (nodeId : UInt32) : SlotScheduler := ⟨nodeId, .new 0⟩

def setSlot (s : SlotScheduler) (i : Fin kSlotCount) (slot : SlotInfo) : SlotScheduler :=
  { s with frame := { s.frame with slots := s.frame.slots.set i slot } }

def claimSlot (s : SlotScheduler) (slotIndex : UInt8) : SlotScheduler × Bool :=
  if h : slotIndex.toNat < kSlotCount then
    let i : Fin kSlotCount := ⟨slotIndex.toNat, h⟩
    let slot := s.frame.slots[i]
    if slot.type ≠ .traffic ∧ slot.type ≠ .dataOnly then (s, false)
    else if slot.ownerId ≠ 0 then (s, false)
    else (s.setSlot i { slot with ownerId := s.nodeId, active := true }, true)
  else (s, false)

def releaseSlot (s : SlotScheduler) (slotIndex : UInt8) : SlotScheduler :=
  if h : slotIndex.toNat < kSlotCount then
    let i : Fin kSlotCount := ⟨slotIndex.toNat, h⟩
    s.setSlot i { s.frame.slots[i] with ownerId := 0, active := false }
  else s

def ownerOf (s : SlotScheduler) (slotIndex : UInt8) : Throws UInt32 :=
  if h : slotIndex.toNat < kSlotCount then .ok s.frame.slots[slotIndex.toNat].ownerId
  else .error "slot_index out of range"

def advanceFrame (s : SlotScheduler) : SlotScheduler :=
  { s with frame := .new (s.frame.frameNumber + 1) }

section Owners
variable (s : SlotScheduler)

theorem ownerOf_of_lt {slotIndex : UInt8} (h : slotIndex.toNat < kSlotCount) :
    s.ownerOf slotIndex = .ok s.frame.slots[slotIndex.toNat].ownerId := dif_pos h

theorem ownerOf_setSlot (i : Fin kSlotCount) (slot : SlotInfo) (j : UInt8) :
    (s.setSlot i slot).ownerOf j = if j.toNat = i then .ok slot.ownerId else s.ownerOf j := by
  by_cases hj : j.toNat < kSlotCount
  · rw [ownerOf_of_lt _ hj, ownerOf_of_lt _ hj, setSlot]
    by_cases hij : j.toNat = i
    · simp [hij]
    · have hne : (i : ℕ) ≠ j.toNat := fun h => hij h.symm
      simp [hij, hne]
  · have hne : j.toNat ≠ i := fun h => hj (h ▸ i.isLt)
    rw [if_neg hne, ownerOf, ownerOf, dif_neg hj, dif_neg hj]

@[simp] theorem claimSlot_nodeId (slotIndex : UInt8) :
    (s.claimSlot slotIndex).1.nodeId = s.nodeId := by
  unfold claimSlot
  split
  · simp only
    split
    · rfl
    · split <;> rfl
  · rfl

@[simp] theorem releaseSlot_nodeId (slotIndex : UInt8) :
    (s.releaseSlot slotIndex).nodeId = s.nodeId := by
  unfold releaseSlot
  split <;> rfl

@[simp] theorem advanceFrame_nodeId : s.advanceFrame.nodeId = s.nodeId := rfl

/-- A claim that succeeds gives the slot to the node, and changes no other slot. -/
theorem ownerOf_claimSlot (slotIndex j : UInt8) :
    (s.claimSlot slotIndex).1.ownerOf j =
      if (s.claimSlot slotIndex).2 = true ∧ j = slotIndex then .ok s.nodeId
      else s.ownerOf j := by
  unfold claimSlot
  by_cases h : slotIndex.toNat < kSlotCount
  · simp only [h, dite_true]
    split
    · simp
    · split
      · simp
      · rw [ownerOf_setSlot]
        simp only [true_and, UInt8.toNat_inj]
  · simp [h]

theorem ownerOf_releaseSlot (slotIndex j : UInt8) :
    (s.releaseSlot slotIndex).ownerOf j =
      if j = slotIndex then (s.ownerOf j).map fun _ => 0 else s.ownerOf j := by
  unfold releaseSlot
  by_cases h : slotIndex.toNat < kSlotCount
  · simp only [h, dite_true]
    rw [ownerOf_setSlot]
    simp only [UInt8.toNat_inj]
    by_cases hj : j = slotIndex
    · subst hj
      rw [if_pos rfl, if_pos rfl, ownerOf_of_lt s h]
      rfl
    · rw [if_neg hj, if_neg hj]
  · by_cases hj : j = slotIndex
    · subst hj
      simp [h, ownerOf, Except.map]
    · simp [h, hj]

theorem ownerOf_newFrame (frameNumber : UInt32) (j : UInt8) :
    ownerOf { s with frame := .new frameNumber } j = (s.ownerOf j).map fun _ => 0 := by
  by_cases hj : j.toNat < kSlotCount
  · rw [ownerOf_of_lt _ hj, ownerOf_of_lt _ hj]
    simp [Frame.new, Except.map]
  · simp [hj, ownerOf, Except.map]

theorem ownerOf_advanceFrame (j : UInt8) :
    s.advanceFrame.ownerOf j = (s.ownerOf j).map fun _ => 0 := ownerOf_newFrame s _ j

end Owners

end SlotScheduler
end Cirradio.Tdma
