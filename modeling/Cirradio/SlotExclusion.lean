import Cirradio.SlotClaims

/-!
# Slots held by two nodes

A node picks its traffic slot from its id alone, and the nodes do not exchange slot maps.
Two nodes are kept apart exactly by ids that differ modulo the number of traffic slots.
-/

namespace Cirradio.Node
open Security Hal Network Tdma Voice Fhss WhileLoops Relation

section Fleets
open RadioNode
variable {S σ κ Q ι : Type}

/-- No slot is held by two nodes. -/
def Exclusive (nodes : ι → RadioNode σ κ Q) : Prop :=
  ∀ slot i j, (nodes i).scheduler.ownerOf slot = .ok (nodes i).id →
    (nodes j).scheduler.ownerOf slot = .ok (nodes j).id → i = j

/-- No two ids are equal modulo the number of traffic slots. -/
def SlotsApart (nodes : ι → RadioNode σ κ Q) : Prop :=
  ∀ i j, i ≠ j → (nodes i).id.toNat % 14 ≠ (nodes j).id.toNat % 14

/-- Nodes that wait for their start, none of them with id 0. -/
structure Waiting [LT Q] [DecidableLT Q] [One Q] [Mul Q] [Zero Q] (P : Platform S σ κ)
    (nodes : ι → RadioNode σ κ Q) : Prop where
  reachable : ∀ i, Reachable P (nodes i)
  idle : ∀ i, (nodes i).state = .idle
  id_ne_zero : ∀ i, (nodes i).id ≠ 0

/-- The interleavings of the starts and the frames of nodes on one channel. -/
inductive FleetRun [DecidableEq ι] [LT Q] [DecidableLT Q] [One Q] [Mul Q] [Zero Q]
    (P : Platform S σ κ) (nodes₀ : ι → RadioNode σ κ Q) (c₀ : SimChannel S) :
    (ι → RadioNode σ κ Q) → SimChannel S → Prop
  | none : FleetRun P nodes₀ c₀ nodes₀ c₀
  | start {nodes : ι → RadioNode σ κ Q} {c : SimChannel S} (i : ι) :
      FleetRun P nodes₀ c₀ nodes c →
      FleetRun P nodes₀ c₀ (Function.update nodes i ((nodes i).start P).1) c
  | tick {nodes : ι → RadioNode σ κ Q} {c c' : SimChannel S} {limit now : ℕ} {i : ι}
      {n' : RadioNode σ κ Q} {result : Throws Unit} : FleetRun P nodes₀ c₀ nodes c →
      (nodes i).tick P limit now c = some (n', c', result) →
      FleetRun P nodes₀ c₀ (Function.update nodes i n') c'

namespace RadioNode

theorem trafficSlot_eq_iff {id id' : UInt32} (hid : id ≠ 0) (hid' : id' ≠ 0) :
    trafficSlot id = trafficSlot id' ↔ id.toNat % 14 = id'.toNat % 14 := by
  have hpred : ∀ {i : UInt32}, i ≠ 0 → (i - 1).toNat + 1 = i.toNat := by
    intro i hi
    have hpos : i.toNat ≠ 0 := fun h => hi (UInt32.toNat_inj.mp h)
    have hone : (1 : UInt32) ≤ i := UInt32.le_iff_toNat_le.mpr (Nat.one_le_iff_ne_zero.mpr hpos)
    rw [UInt32.toNat_sub_of_le _ _ hone]
    exact Nat.sub_add_cancel (Nat.one_le_iff_ne_zero.mpr hpos)
  rw [← UInt8.toNat_inj, trafficSlot_toNat, trafficSlot_toNat]
  have h := hpred hid
  have h' := hpred hid'
  omega

/-- Of all the slots a node holds at most its traffic slot. -/
def HoldsOnlyOwn (id : UInt32) (n : RadioNode σ κ Q) : Prop :=
  n.id = id ∧ ∀ slot, n.scheduler.ownerOf slot = .ok id → slot = trafficSlot id

theorem holdsOnlyOwn_of_free {n : RadioNode σ κ Q} (hid : n.id ≠ 0) (s : SlotScheduler)
    (hfree : ∀ slot, n.scheduler.ownerOf slot = (s.ownerOf slot).map fun _ => 0) :
    HoldsOnlyOwn n.id n := by
  refine ⟨rfl, fun slot howner => ?_⟩
  rw [hfree] at howner
  cases hs : s.ownerOf slot with
  | error e =>
    rw [hs] at howner
    cases howner
  | ok owner =>
    rw [hs] at howner
    exact absurd (Except.ok.inj howner).symm hid

variable {P : Platform S σ κ} {id : UInt32}

theorem HoldsOnlyOwn.start {n : RadioNode σ κ Q} (h : HoldsOnlyOwn id n) :
    HoldsOnlyOwn id (n.start P).1 := by
  obtain ⟨rfl, hslots⟩ := h
  by_cases hidle : n.state = .idle
  · rcases start_of_idle hidle (P := P) with ⟨keyMgr, e, heq⟩ | ⟨keyMgr, hopSeq, radio, heq⟩
    · rw [heq]
      exact ⟨rfl, hslots⟩
    · rw [heq]
      refine ⟨rfl, fun slot howner => ?_⟩
      simp only [SlotScheduler.ownerOf_claimSlot] at howner
      split at howner
      · next hclaimed => exact hclaimed.2
      · exact hslots slot howner
  · rw [RadioNode.start, if_pos hidle]
    exact ⟨rfl, hslots⟩

theorem HoldsOnlyOwn.tick [LT Q] [DecidableLT Q] [One Q] [Mul Q] [Zero Q] {limit now : ℕ}
    {n n' : RadioNode σ κ Q} {c c' : SimChannel S} {result : Throws Unit} (hid : id ≠ 0)
    (h : HoldsOnlyOwn id n) (htick : n.tick P limit now c = some (n', c', result)) :
    HoldsOnlyOwn id n' := by
  obtain ⟨rfl, hslots⟩ := h
  by_cases hidle : n.state = .idle
  · rw [tick_of_idle hidle] at htick
    cases htick
    exact ⟨rfl, hslots⟩
  · obtain ⟨hsame, -, -, hscheduler⟩ := tick_scheduler hidle htick
    rw [← hsame] at hid hslots ⊢
    cases result with
    | error e =>
      refine ⟨rfl, fun slot howner => hslots slot ?_⟩
      rwa [hscheduler] at howner
    | ok u =>
      refine holdsOnlyOwn_of_free hid n.scheduler fun slot => ?_
      rw [hscheduler]
      exact n.scheduler.ownerOf_advanceFrame slot

end RadioNode

section Run
variable [DecidableEq ι] [LT Q] [DecidableLT Q] [One Q] [Mul Q] [Zero Q] {P : Platform S σ κ}
  {nodes₀ nodes : ι → RadioNode σ κ Q} {c₀ c : SimChannel S}

theorem FleetRun.holdsOnlyOwn (hwaiting : Waiting P nodes₀) (h : FleetRun P nodes₀ c₀ nodes c) :
    ∀ i, HoldsOnlyOwn (nodes₀ i).id (nodes i) := by
  induction h with
  | none =>
    intro i
    refine holdsOnlyOwn_of_free (hwaiting.id_ne_zero i) (.new (nodes₀ i).id) fun slot => ?_
    rw [(hwaiting.reachable i).scheduler_of_idle (hwaiting.idle i)]
    exact SlotScheduler.ownerOf_newFrame (.new (nodes₀ i).id) 0 slot
  | start i _ ih =>
    exact (Function.forall_update_iff _ fun j n => HoldsOnlyOwn (nodes₀ j).id n).mpr
      ⟨(ih i).start, fun j _ => ih j⟩
  | @tick _ _ _ _ _ i _ _ _ htick ih =>
    exact (Function.forall_update_iff _ fun j n => HoldsOnlyOwn (nodes₀ j).id n).mpr
      ⟨(ih i).tick (hwaiting.id_ne_zero i) htick, fun j _ => ih j⟩

theorem FleetRun.exclusive (hwaiting : Waiting P nodes₀) (hapart : SlotsApart nodes₀)
    (h : FleetRun P nodes₀ c₀ nodes c) : Exclusive nodes := by
  intro slot i j hi hj
  obtain ⟨hidi, hslotsi⟩ := h.holdsOnlyOwn hwaiting i
  obtain ⟨hidj, hslotsj⟩ := h.holdsOnlyOwn hwaiting j
  rw [hidi] at hi
  rw [hidj] at hj
  have hslot : trafficSlot (nodes₀ i).id = trafficSlot (nodes₀ j).id :=
    (hslotsi slot hi).symm.trans (hslotsj slot hj)
  by_contra hne
  exact hapart i j hne
    ((trafficSlot_eq_iff (hwaiting.id_ne_zero i) (hwaiting.id_ne_zero j)).mp hslot)

/-- Two nodes that are started one after the other hold the same slot if their ids are equal
modulo the number of traffic slots. -/
theorem slotsApart_of_exclusive (hwaiting : Waiting P nodes₀)
    (hstarts : ∀ i, ((nodes₀ i).start P).2 = .ok ())
    (h : ∀ nodes c, FleetRun P nodes₀ c₀ nodes c → Exclusive nodes) : SlotsApart nodes₀ := by
  intro i j hne hmod
  have hslot := (trafficSlot_eq_iff (hwaiting.id_ne_zero i) (hwaiting.id_ne_zero j)).mpr hmod
  have hrun : FleetRun P nodes₀ c₀ _ c₀ := .start j (.start i .none)
  have howner : ∀ k, ((nodes₀ k).start P).1.scheduler.ownerOf (trafficSlot (nodes₀ k).id) =
      .ok ((nodes₀ k).start P).1.id := by
    intro k
    obtain ⟨-, hid, howner⟩ :=
      ownerOf_of_started (hwaiting.reachable k) (hwaiting.idle k) (hstarts k)
    rw [howner, hid]
  refine hne (h _ _ hrun (trafficSlot (nodes₀ i).id) i j ?_ ?_)
  · rw [Function.update_of_ne hne, Function.update_self]
    exact howner i
  · rw [Function.update_self, Function.update_of_ne hne.symm, hslot]
    exact howner j

end Run

/-- No two nodes with different ids hold one slot. -/
def SlotsExclusive : Prop :=
  ∀ (S σ κ Q ι : Type) [Finite ι] [DecidableEq ι] [LT Q] [DecidableLT Q] [One Q] [Mul Q] [Zero Q]
    (P : Platform S σ κ) (nodes₀ nodes : ι → RadioNode σ κ Q) (c₀ c : SimChannel S),
    Waiting P nodes₀ → Function.Injective (fun i => (nodes₀ i).id) →
    FleetRun P nodes₀ c₀ nodes c → Exclusive nodes

/-- Ids that differ modulo the number of traffic slots keep the slots apart in every run, and
where every node starts, nothing else does. -/
theorem exclusive_iff_slotsApart [DecidableEq ι] [LT Q] [DecidableLT Q] [One Q] [Mul Q] [Zero Q]
    {P : Platform S σ κ} {nodes₀ : ι → RadioNode σ κ Q} (hwaiting : Waiting P nodes₀)
    (c₀ : SimChannel S) :
    (SlotsApart nodes₀ → ∀ nodes c, FleetRun P nodes₀ c₀ nodes c → Exclusive nodes) ∧
      ((∀ i, ((nodes₀ i).start P).2 = .ok ()) →
        ((∀ nodes c, FleetRun P nodes₀ c₀ nodes c → Exclusive nodes) ↔ SlotsApart nodes₀)) := by
  have hsuffices : SlotsApart nodes₀ →
      ∀ nodes c, FleetRun P nodes₀ c₀ nodes c → Exclusive nodes :=
    fun hapart _ _ h => h.exclusive hwaiting hapart
  exact ⟨hsuffices, fun hstarts => ⟨slotsApart_of_exclusive hwaiting hstarts, hsuffices⟩⟩

/-- Two nodes on one channel, with the shared keys. -/
def pairOfNodes (id id' : UInt32) : Bool → SampleNode
  | false => (RadioNode.new samplePlatform id [] SimChannel.new).2.provisionKeys
      (List.replicate 32 0xAA) (List.replicate 32 0xBB)
  | true => (RadioNode.new samplePlatform id' [] SimChannel.new.registerRadio.1).2.provisionKeys
      (List.replicate 32 0xAA) (List.replicate 32 0xBB)

theorem pairOfNodes_waiting {id id' : UInt32} (hid : id ≠ 0) (hid' : id' ≠ 0) :
    Waiting samplePlatform (pairOfNodes id id') where
  reachable := fun
    | false => .provisionKeys _ _ (.new id [] SimChannel.new)
    | true => .provisionKeys _ _ (.new id' [] SimChannel.new.registerRadio.1)
  idle := fun
    | false => rfl
    | true => rfl
  id_ne_zero := fun
    | false => hid
    | true => hid'

/-- The channel with the radios of both nodes. -/
def fleetChannel : SimChannel UInt8 := SimChannel.new.registerRadio.1.registerRadio.1

/-- Nodes 1 and 2 never hold one slot together, nodes 1 and 15 do in some run. -/
theorem exclusive_iff_slotsApart_pair :
    (∀ nodes c, FleetRun samplePlatform (pairOfNodes 1 2) fleetChannel nodes c →
        Exclusive nodes) ∧
      ∃ nodes c, FleetRun samplePlatform (pairOfNodes 1 15) fleetChannel nodes c ∧
        ¬ Exclusive nodes := by
  have happart : SlotsApart (pairOfNodes 1 2) := by
    unfold SlotsApart
    decide
  have hstarts : ∀ i, ((pairOfNodes 1 15 i).start samplePlatform).2 = .ok () := by decide
  refine ⟨(exclusive_iff_slotsApart (pairOfNodes_waiting (by decide) (by decide))
    fleetChannel).1 happart, ?_⟩
  have hiff := (exclusive_iff_slotsApart (pairOfNodes_waiting (by decide) (by decide))
    fleetChannel).2 hstarts
  by_contra hnone
  have hruns : ∀ nodes c, FleetRun samplePlatform (pairOfNodes 1 15) fleetChannel nodes c →
      Exclusive nodes := fun nodes c hrun => not_not.mp fun hnot => hnone ⟨nodes, c, hrun, hnot⟩
  exact hiff.mp hruns false true (by decide) (by decide)

/-- Nodes 1 and 15 are started on one channel: both hold slot 1. -/
theorem not_slotsExclusive : ¬ SlotsExclusive := by
  intro h
  have hwaiting : Waiting samplePlatform (pairOfNodes 1 15) :=
    pairOfNodes_waiting (by decide) (by decide)
  have hstarts : ∀ i, ((pairOfNodes 1 15 i).start samplePlatform).2 = .ok () := by decide
  have hinj : Function.Injective fun i => (pairOfNodes 1 15 i).id := by decide
  have hruns : ∀ nodes c, FleetRun samplePlatform (pairOfNodes 1 15) fleetChannel nodes c →
      Exclusive nodes := fun nodes c hrun => h _ _ _ _ _ _ _ nodes _ c hwaiting hinj hrun
  have hapart := slotsApart_of_exclusive hwaiting hstarts hruns
  exact hapart false true (by decide) (by decide)

end Fleets
end Cirradio.Node
