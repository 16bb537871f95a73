import Cirradio.SlotClaims

/-!
# Slot maps

Nodes pass each other the slot maps of their frames. A map brings owners into a frame that the
node itself never claimed for. What holds of the owners of every frame of a network is kept by
each local call and by each exchange. A claim respects the owners a map has brought, a release
does not look at them.
-/

namespace Cirradio.Tdma
open CallRuns

namespace SlotScheduler

/-- Owners and activity are taken over, the types stay. -/
def applySlotMap (s : SlotScheduler) (frame : Frame) : SlotScheduler :=
  { s with frame := { s.frame with
      slots := s.frame.slots.zipWith
        (fun dst src => { dst with ownerId := src.ownerId, active := src.active }) frame.slots } }

@[simp] theorem applySlotMap_nodeId (s : SlotScheduler) (frame : Frame) :
    (s.applySlotMap frame).nodeId = s.nodeId := by
  simp only [applySlotMap]

theorem ownerOf_applySlotMap (s : SlotScheduler) (frame : Frame) (j : UInt8) :
    (s.applySlotMap frame).ownerOf j = (SlotScheduler.mk s.nodeId frame).ownerOf j := by
  by_cases hj : j.toNat < kSlotCount
  · rw [ownerOf_of_lt _ hj, ownerOf_of_lt _ hj]
    simp [applySlotMap]
  · rw [ownerOf, ownerOf, dif_neg hj, dif_neg hj]

/-- The slot has the type of its position, and is active exactly if a member owns it, which it
can only as a traffic or data slot. -/
structure SoundSlot (Member : UInt32 → Prop) (k : ℕ) (slot : SlotInfo) : Prop where
  type : slot.type = Frame.typeForSlot k
  claimable : slot.ownerId ≠ 0 → slot.type = .traffic ∨ slot.type = .dataOnly
  member : slot.ownerId ≠ 0 → Member slot.ownerId
  active : slot.active = true ↔ slot.ownerId ≠ 0

/-- Every slot of a frame is sound. -/
def SoundFrame (Member : UInt32 → Prop) (frame : Frame) : Prop :=
  ∀ (k : ℕ) (hk : k < kSlotCount), SoundSlot Member k frame.slots[k]

variable {Member : UInt32 → Prop}

theorem soundSlot_free (k : ℕ) : SoundSlot Member k ⟨Frame.typeForSlot k, 0, false⟩ where
  type := rfl
  claimable h := absurd rfl h
  member h := absurd rfl h
  active := by simp

theorem soundFrame_new (frameNumber : UInt32) : SoundFrame Member (.new frameNumber) := by
  intro k hk
  have hslot : (Frame.new frameNumber).slots[k] = ⟨Frame.typeForSlot k, 0, false⟩ := by
    simp [Frame.new]
  rw [hslot]
  exact soundSlot_free k

theorem SoundFrame.setSlot {s : SlotScheduler} (h : SoundFrame Member s.frame)
    {k : Fin kSlotCount} {slot : SlotInfo} (hslot : SoundSlot Member k slot) :
    SoundFrame Member (s.setSlot k slot).frame := by
  intro j hj
  by_cases hkj : (k : ℕ) = j
  · have hget : (s.setSlot k slot).frame.slots[j] = slot := by simp [SlotScheduler.setSlot, hkj]
    rw [hget, ← hkj]
    exact hslot
  · have hget : (s.setSlot k slot).frame.slots[j] = s.frame.slots[j] := by
      simp [SlotScheduler.setSlot, hkj]
    rw [hget]
    exact h j hj

/-- A claim makes the node the owner of a free slot that may be claimed. -/
theorem SoundFrame.claimSlot {s : SlotScheduler} (h : SoundFrame Member s.frame)
    (hid : s.nodeId ≠ 0) (hmember : Member s.nodeId) (slotIndex : UInt8) :
    SoundFrame Member (s.claimSlot slotIndex).1.frame := by
  unfold SlotScheduler.claimSlot
  split
  · next hlt =>
    simp only
    split
    · exact h
    · next htype =>
      split
      · exact h
      · have hslot := h slotIndex.toNat hlt
        refine h.setSlot ⟨hslot.type, fun _ => ?_, fun _ => hmember, ?_⟩
        · by_contra hother
          exact htype (not_or.mp hother)
        · simpa using hid
  · exact h

theorem SoundFrame.releaseSlot {s : SlotScheduler} (h : SoundFrame Member s.frame)
    (slotIndex : UInt8) : SoundFrame Member (s.releaseSlot slotIndex).frame := by
  unfold SlotScheduler.releaseSlot
  split
  · next hlt =>
    have hslot := h slotIndex.toNat hlt
    exact h.setSlot ⟨hslot.type, fun h => absurd rfl h, fun h => absurd rfl h, by simp⟩
  · exact h

/-- A map of a sound frame brings sound owners: the types on both sides are those of the
positions. -/
theorem SoundFrame.applySlotMap {s : SlotScheduler} (h : SoundFrame Member s.frame)
    {frame : Frame} (hframe : SoundFrame Member frame) :
    SoundFrame Member (s.applySlotMap frame).frame := by
  intro k hk
  have hget : (s.applySlotMap frame).frame.slots[k] =
      { s.frame.slots[k] with
        ownerId := frame.slots[k].ownerId, active := frame.slots[k].active } := by
    simp [SlotScheduler.applySlotMap]
  have htype : s.frame.slots[k].type = frame.slots[k].type :=
    (h k hk).type.trans (hframe k hk).type.symm
  rw [hget]
  exact ⟨(h k hk).type, fun hne => htype ▸ (hframe k hk).claimable hne, (hframe k hk).member,
    (hframe k hk).active⟩

theorem SoundFrame.call {s : SlotScheduler} (h : SoundFrame Member s.frame)
    (hid : s.nodeId ≠ 0) (hmember : Member s.nodeId) (c : SlotCall) :
    SoundFrame Member (s.call c).1.frame := by
  cases c with
  | claimSlot slotIndex => exact h.claimSlot hid hmember slotIndex
  | releaseSlot slotIndex => exact h.releaseSlot slotIndex
  | advanceFrame => exact soundFrame_new _

end SlotScheduler

/-- A call at one member, or the map of one member applied by another. -/
inductive NetworkCall (ι : Type)
  | at (i : ι) (c : SlotCall)
  | exchange (source target : ι)

namespace SlotNetwork
open SlotScheduler
variable {ι : Type}

def new (ids : ι → UInt32) : ι → SlotScheduler := fun i => .new (ids i)

/-- The members keep their ids, and their frames are sound. -/
structure Sound (ids : ι → UInt32) (m : ι → SlotScheduler) : Prop where
  nodeId : ∀ i, (m i).nodeId = ids i
  frame : ∀ i, SoundFrame (fun owner => ∃ j, owner = ids j) (m i).frame

theorem sound_new (ids : ι → UInt32) : Sound ids (new ids) where
  nodeId _ := rfl
  frame _ := soundFrame_new 0

variable [DecidableEq ι]

def call (m : ι → SlotScheduler) : NetworkCall ι → (ι → SlotScheduler) × Unit
  | .at i c => (Function.update m i ((m i).call c).1, ())
  | .exchange source target =>
    (Function.update m target ((m target).applySlotMap (m source).frame), ())

theorem Sound.update {ids : ι → UInt32} {m : ι → SlotScheduler} (h : Sound ids m) {i : ι}
    {s : SlotScheduler} (hid : s.nodeId = ids i)
    (hframe : SoundFrame (fun owner => ∃ j, owner = ids j) s.frame) :
    Sound ids (Function.update m i s) := by
  constructor
  · intro j
    by_cases hji : j = i
    · subst hji
      rwa [Function.update_self]
    · rw [Function.update_of_ne hji]
      exact h.nodeId j
  · intro j
    by_cases hji : j = i
    · subst hji
      rwa [Function.update_self]
    · rw [Function.update_of_ne hji]
      exact h.frame j

theorem Sound.call {ids : ι → UInt32} (hids : ∀ i, ids i ≠ 0) {m : ι → SlotScheduler}
    (h : Sound ids m) (c : NetworkCall ι) : Sound ids (call m c).1 := by
  cases c with
  | «at» i c =>
    have hid : (m i).nodeId ≠ 0 := by
      rw [h.nodeId]
      exact hids i
    exact h.update (((m i).call_nodeId c).trans (h.nodeId i))
      ((h.frame i).call hid ⟨i, h.nodeId i⟩ c)
  | exchange source target =>
    have hid : ((m target).applySlotMap (m source).frame).nodeId = ids target := by
      rw [applySlotMap_nodeId]
      exact h.nodeId target
    exact h.update hid ((h.frame target).applySlotMap (h.frame source))

theorem sound_run {ids : ι → UInt32} (hids : ∀ i, ids i ≠ 0) (calls : List (NetworkCall ι)) :
    Sound ids (after call (new ids) calls) :=
  invariant_after call (new ids) (Sound ids) (sound_new ids) (fun _ c h => h.call hids c) calls

theorem claimable_iff (k : ℕ) :
    Frame.typeForSlot k = .traffic ∨ Frame.typeForSlot k = .dataOnly ↔ 1 ≤ k ∧ k ≤ 17 := by
  unfold Frame.typeForSlot
  split
  · simp
    omega
  · split
    · simp
      omega
    · split
      · simp
        omega
      · split <;> simp <;> omega

/-- In a network of members with ids other than zero every slot keeps the type of its position,
only the slots 1 to 17 have owners, these are members, and the owned slots are the active ones. -/
theorem network_slots (ids : ι → UInt32) (hids : ∀ i, ids i ≠ 0) (calls : List (NetworkCall ι))
    (i : ι) (k : ℕ) (hk : k < kSlotCount) :
    let slot := (after call (new ids) calls i).frame.slots[k]
    slot.type = Frame.typeForSlot k ∧
    (slot.ownerId ≠ 0 →
      (slot.type = .traffic ∨ slot.type = .dataOnly) ∧ (1 ≤ k ∧ k ≤ 17) ∧
        ∃ j, slot.ownerId = ids j) ∧
    (slot.active = true ↔ slot.ownerId ≠ 0) := by
  intro slot
  have hslot := (sound_run hids calls).frame i k hk
  refine ⟨hslot.type, fun howner => ⟨hslot.claimable howner, ?_, hslot.member howner⟩,
    hslot.active⟩
  rw [← claimable_iff, ← hslot.type]
  exact hslot.claimable howner

def pairIds (i : Fin 2) : UInt32 := if i = 0 then 1 else 2

/-- Two members, and the map of the first brings its claim to the second. -/
theorem network_slots_exchange :
    let calls : List (NetworkCall (Fin 2)) := [.at 0 (.claimSlot 5), .exchange 0 1]
    (∀ i, pairIds i ≠ 0) ∧ ∃ hk : 5 < kSlotCount,
      (after call (new pairIds) calls 1).frame.slots[5].ownerId ≠ 0 ∧
        ∃ j, (after call (new pairIds) calls 1).frame.slots[5].ownerId = pairIds j := by
  intro calls
  have hids : ∀ i, pairIds i ≠ 0 := by decide
  have hk : 5 < kSlotCount := by decide
  have howned : ∀ _ : 5 < kSlotCount,
      (after call (new pairIds) calls 1).frame.slots[5].ownerId ≠ 0 := by decide +kernel
  exact ⟨hids, hk, howned hk, ((network_slots pairIds hids calls 1 5 hk).2.1 (howned hk)).2.2⟩

end SlotNetwork

/-- What changes owners within a frame. -/
inductive OwnerCall
  | claimSlot (slotIndex : UInt8)
  | releaseSlot (slotIndex : UInt8)
  | applySlotMap (frame : Frame)
  deriving DecidableEq

namespace SlotScheduler

def ownerCall (s : SlotScheduler) : OwnerCall → SlotScheduler × Option Bool
  | .claimSlot slotIndex => ((s.claimSlot slotIndex).1, some (s.claimSlot slotIndex).2)
  | .releaseSlot slotIndex => (s.releaseSlot slotIndex, none)
  | .applySlotMap frame => (s.applySlotMap frame, none)

/-- The slot is recorded as another node's. -/
def OwnedByOther (s : SlotScheduler) (j : UInt8) (owner : UInt32) : Prop :=
  s.ownerOf j = .ok owner ∧ owner ≠ 0 ∧ owner ≠ s.nodeId

/-- The call changes no slot of another node, unless it applies a map. -/
def LeavesOthers (s : SlotScheduler) (c : OwnerCall) : Prop :=
  (∀ frame, c ≠ .applySlotMap frame) →
    ∀ j owner, OwnedByOther s j owner → (s.ownerCall c).1.ownerOf j = .ok owner

theorem ownerOf_of_claimed {s : SlotScheduler} {slotIndex : UInt8}
    (h : (s.claimSlot slotIndex).2 = true) : s.ownerOf slotIndex = .ok 0 := by
  unfold claimSlot at h
  split at h
  · next hlt =>
    simp only at h
    split at h
    · cases h
    · split at h
      · cases h
      · next hfree =>
        rw [ownerOf_of_lt s hlt]
        exact congrArg Except.ok (not_not.mp hfree)
  · cases h

/-- Exactly the release of another node's slot changes its owner. -/
theorem leavesOthers_iff (s : SlotScheduler) (c : OwnerCall) :
    LeavesOthers s c ↔ ∀ j owner, c = .releaseSlot j → ¬ OwnedByOther s j owner := by
  constructor
  · rintro hleaves j owner rfl howned
    have hkept := hleaves (fun _ h => by cases h) j owner howned
    change (s.releaseSlot j).ownerOf j = .ok owner at hkept
    rw [ownerOf_releaseSlot, if_pos rfl, howned.1] at hkept
    exact howned.2.1 (Except.ok.inj hkept).symm
  · intro hown hmap j owner howned
    cases c with
    | claimSlot slotIndex =>
      change (s.claimSlot slotIndex).1.ownerOf j = .ok owner
      rw [ownerOf_claimSlot]
      split
      · next hclaimed =>
        -- a claim that succeeds is of a free slot
        have hfree := ownerOf_of_claimed hclaimed.1
        rw [← hclaimed.2, howned.1] at hfree
        exact absurd (Except.ok.inj hfree) howned.2.1
      · exact howned.1
    | releaseSlot slotIndex =>
      change (s.releaseSlot slotIndex).ownerOf j = .ok owner
      rw [ownerOf_releaseSlot]
      split
      · next hj => exact absurd (hj ▸ howned) (hown slotIndex owner rfl)
      · exact howned.1
    | applySlotMap frame => exact absurd rfl (hmap frame)

theorem ownedByOther_claimSlot (s : SlotScheduler) (slotIndex j : UInt8) (owner : UInt32) :
    OwnedByOther (s.claimSlot slotIndex).1 j owner ↔ OwnedByOther s j owner := by
  unfold OwnedByOther
  rw [ownerOf_claimSlot, claimSlot_nodeId]
  split
  · next hclaimed =>
    rw [hclaimed.2, ownerOf_of_claimed hclaimed.1]
    constructor
    · rintro ⟨howner, -, hother⟩
      exact absurd (Except.ok.inj howner).symm hother
    · rintro ⟨howner, hne, -⟩
      exact absurd (Except.ok.inj howner).symm hne
  · rfl

theorem ownedByOther_releaseSlot (s : SlotScheduler) (slotIndex j : UInt8) (owner : UInt32) :
    OwnedByOther (s.releaseSlot slotIndex) j owner ↔ j ≠ slotIndex ∧ OwnedByOther s j owner := by
  unfold OwnedByOther
  rw [ownerOf_releaseSlot, releaseSlot_nodeId]
  by_cases hj : j = slotIndex
  · rw [if_pos hj]
    constructor
    · rintro ⟨howner, hne, -⟩
      cases hold : s.ownerOf j with
      | ok old =>
        rw [hold] at howner
        exact absurd (Except.ok.inj howner).symm hne
      | error e =>
        rw [hold] at howner
        cases howner
    · rintro ⟨hne, -⟩
      exact absurd hj hne
  · rw [if_neg hj]
    exact (and_iff_right hj).symm

/-- The owner a map gives a slot. -/
def mapOwner (frame : Frame) (j : UInt8) : UInt32 :=
  if h : j.toNat < kSlotCount then frame.slots[j.toNat].ownerId else 0

theorem ownedByOther_applySlotMap (s : SlotScheduler) (frame : Frame) (j : UInt8)
    (owner : UInt32) :
    OwnedByOther (s.applySlotMap frame) j owner ↔
      mapOwner frame j = owner ∧ owner ≠ 0 ∧ owner ≠ s.nodeId := by
  unfold OwnedByOther mapOwner
  rw [ownerOf_applySlotMap, applySlotMap_nodeId, ownerOf]
  split
  · rw [Except.ok.injEq]
  · constructor
    · rintro ⟨howner, -⟩
      cases howner
    · rintro ⟨howner, hne, -⟩
      exact absurd howner.symm hne

/-- What the maps say of a slot after a call, where a release clears it. -/
def mapOwnerNext (j : UInt8) (owner : UInt32) : OwnerCall → UInt32
  | .claimSlot _ => owner
  | .releaseSlot slotIndex => if slotIndex = j then 0 else owner
  | .applySlotMap frame => mapOwner frame j

/-- The owner the last map gives a slot, unless it has been released since. -/
def lastMapOwner (calls : List OwnerCall) (j : UInt8) : UInt32 := calls.foldl (mapOwnerNext j) 0

theorem lastMapOwner_concat (calls : List OwnerCall) (c : OwnerCall) (j : UInt8) :
    lastMapOwner (calls ++ [c]) j = mapOwnerNext j (lastMapOwner calls j) c := by
  unfold lastMapOwner
  rw [List.foldl_append]
  rfl

/-- The slots of other nodes are those the last map gave them. -/
def OthersFromMaps (nodeId : UInt32) (calls : List OwnerCall) (s : SlotScheduler) : Prop :=
  s.nodeId = nodeId ∧ ∀ j owner,
    OwnedByOther s j owner ↔ lastMapOwner calls j = owner ∧ owner ≠ 0 ∧ owner ≠ nodeId

theorem eq_zero_of_ownerOf_new {nodeId : UInt32} {j : UInt8} {owner : UInt32}
    (h : (new nodeId).ownerOf j = .ok owner) : owner = 0 := by
  unfold ownerOf at h
  split at h
  · next hj =>
    have hslot : (new nodeId).frame.slots[j.toNat].ownerId = 0 := by simp [new, Frame.new]
    rw [hslot] at h
    exact (Except.ok.inj h).symm
  · cases h

theorem othersFromMaps_new (nodeId : UInt32) : OthersFromMaps nodeId [] (new nodeId) := by
  refine ⟨rfl, fun j owner => ⟨?_, ?_⟩⟩
  · rintro ⟨howner, hne, -⟩
    exact absurd (eq_zero_of_ownerOf_new howner) hne
  · rintro ⟨howner, hne, -⟩
    exact absurd howner.symm hne

theorem OthersFromMaps.ownerCall {nodeId : UInt32} {calls : List OwnerCall} {s : SlotScheduler}
    (h : OthersFromMaps nodeId calls s) (c : OwnerCall) :
    OthersFromMaps nodeId (calls ++ [c]) (s.ownerCall c).1 := by
  obtain ⟨hid, howners⟩ := h
  cases c with
  | claimSlot slotIndex =>
    refine ⟨(s.claimSlot_nodeId slotIndex).trans hid, fun j owner => ?_⟩
    rw [lastMapOwner_concat]
    exact (ownedByOther_claimSlot s slotIndex j owner).trans (howners j owner)
  | releaseSlot slotIndex =>
    refine ⟨(s.releaseSlot_nodeId slotIndex).trans hid, fun j owner => ?_⟩
    rw [lastMapOwner_concat, mapOwnerNext]
    change OwnedByOther (s.releaseSlot slotIndex) j owner ↔ _
    rw [ownedByOther_releaseSlot, howners]
    by_cases hj : slotIndex = j
    · rw [if_pos hj]
      constructor
      · rintro ⟨hne, -⟩
        exact absurd hj.symm hne
      · rintro ⟨howner, hne, -⟩
        exact absurd howner.symm hne
    · rw [if_neg hj]
      exact and_iff_right fun h => hj h.symm
  | applySlotMap frame =>
    refine ⟨(applySlotMap_nodeId s frame).trans hid, fun j owner => ?_⟩
    rw [lastMapOwner_concat, mapOwnerNext, ← hid]
    exact ownedByOther_applySlotMap s frame j owner

/-- No slot is released that the last map gave another node. -/
def ReleasesNoOther (nodeId : UInt32) (calls : List OwnerCall) : Prop :=
  ∀ i j, calls[i]? = some (.releaseSlot j) →
    lastMapOwner (calls.take i) j = 0 ∨ lastMapOwner (calls.take i) j = nodeId

theorem othersFromMaps_run (nodeId : UInt32) (calls : List OwnerCall) :
    OthersFromMaps nodeId calls (after ownerCall (new nodeId) calls) :=
  run_induction ownerCall (new nodeId) (OthersFromMaps nodeId) (othersFromMaps_new nodeId)
    (fun _ c h => h.ownerCall c) calls

/-- In every run the slots of other nodes change owner through maps only, exactly if none of them
is released. -/
theorem others_slots_kept (nodeId : UInt32) (calls : List OwnerCall) :
    EveryCall ownerCall (new nodeId) LeavesOthers calls ↔ ReleasesNoOther nodeId calls := by
  have hmaps := othersFromMaps_run nodeId
  constructor
  · intro hleaves i j hrelease
    have hstep := (leavesOthers_iff _ _).mp (hleaves i _ hrelease) j
      (lastMapOwner (calls.take i) j) rfl
    rw [(hmaps (calls.take i)).2] at hstep
    by_contra hother
    exact hstep ⟨rfl, not_or.mp hother⟩
  · intro hown i c hc
    apply (leavesOthers_iff _ c).mpr
    rintro j owner rfl howned
    obtain ⟨hmap, hne, hother⟩ := ((hmaps (calls.take i)).2 j owner).mp howned
    rcases hown i j hc with hfree | hnode
    · exact hne (hmap.symm.trans hfree)
    · exact hother (hmap.symm.trans hnode)

/-- Node 1 learns that node 2 holds slot 5, and releases it. -/
theorem others_slots_kept_released :
    ¬ EveryCall ownerCall (new 1) LeavesOthers
      [.applySlotMap ((new 2).claimSlot 5).1.frame, .releaseSlot 5] := by
  intro hleaves
  have howned := (othersFromMaps_run 1 [.applySlotMap ((new 2).claimSlot 5).1.frame]).2 5 2
  exact (leavesOthers_iff _ _).mp (hleaves 1 _ rfl) 5 2 rfl (howned.mpr (by decide))

end SlotScheduler

end Cirradio.Tdma
