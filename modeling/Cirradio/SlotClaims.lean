import Cirradio.CallRuns
import Cirradio.FrameCompletion
import Cirradio.NodeCalls

/-!
# How long a claimed slot is held

A claim is entered in the current frame, and the next frame starts with no owners. A node
claims its slot when it is started, and never again.
-/

namespace Cirradio.Tdma
open CallRuns

inductive SlotCall where
  | claimSlot (slotIndex : UInt8)
  | releaseSlot (slotIndex : UInt8)
  | advanceFrame
  deriving DecidableEq, Repr

namespace SlotScheduler

/-- The scheduler after a call, with the result of a claim. -/
def call (s : SlotScheduler) : SlotCall → SlotScheduler × Option Bool
  | .claimSlot slotIndex => ((s.claimSlot slotIndex).1, some (s.claimSlot slotIndex).2)
  | .releaseSlot slotIndex => (s.releaseSlot slotIndex, none)
  | .advanceFrame => (s.advanceFrame, none)

@[simp] theorem call_nodeId (s : SlotScheduler) (c : SlotCall) :
    (s.call c).1.nodeId = s.nodeId := by
  cases c with
  | claimSlot slotIndex => exact s.claimSlot_nodeId slotIndex
  | releaseSlot slotIndex => exact s.releaseSlot_nodeId slotIndex
  | advanceFrame => rfl

/-- The node holds the slot. -/
def Holds (id : UInt32) (slotIndex : UInt8) (s : SlotScheduler) : Prop :=
  s.nodeId = id ∧ s.ownerOf slotIndex = .ok id

theorem holds_of_claimed {s : SlotScheduler} {slotIndex : UInt8}
    (h : (s.claimSlot slotIndex).2 = true) :
    Holds s.nodeId slotIndex (s.claimSlot slotIndex).1 := by
  refine ⟨s.claimSlot_nodeId slotIndex, ?_⟩
  rw [ownerOf_claimSlot, if_pos ⟨h, rfl⟩]

/-- A slot is lost by its release and by the next frame, and by nothing else. -/
theorem Holds.call_iff {id : UInt32} {slotIndex : UInt8} {s : SlotScheduler}
    (h : Holds id slotIndex s) (c : SlotCall) :
    Holds id slotIndex (s.call c).1 ↔
      id = 0 ∨ (c ≠ .advanceFrame ∧ c ≠ .releaseSlot slotIndex) := by
  obtain ⟨hid, howner⟩ := h
  have hlost : (Except.map (fun _ => (0 : UInt32)) (.ok id : Security.Throws UInt32) = .ok id) ↔
      id = 0 := by
    constructor
    · intro heq
      exact (Except.ok.inj heq).symm
    · rintro rfl
      rfl
  have hiff : Holds id slotIndex (s.call c).1 ↔ (s.call c).1.ownerOf slotIndex = .ok id :=
    ⟨fun h => h.2, fun h => ⟨(s.call_nodeId c).trans hid, h⟩⟩
  rw [hiff]
  cases c with
  | claimSlot other =>
    have hkeeps : (s.claimSlot other).1.ownerOf slotIndex = .ok id := by
      rw [ownerOf_claimSlot, hid]
      split
      · rfl
      · exact howner
    simp [call, hkeeps]
  | releaseSlot other =>
    simp only [call, ownerOf_releaseSlot, howner]
    by_cases hother : slotIndex = other
    · simpa [hother] using hlost
    · have hne : other ≠ slotIndex := fun h => hother h.symm
      simp [hother, hne]
  | advanceFrame =>
    simp only [call, ownerOf_advanceFrame, howner]
    simpa using hlost

/-- A claimed slot that is not released is held up to the next frame. -/
theorem holds_iff_sameFrame {s : SlotScheduler} {slotIndex : UInt8}
    (hclaimed : (s.claimSlot slotIndex).2 = true) {calls : List SlotCall}
    (hkept : .releaseSlot slotIndex ∉ calls) :
    EveryState call (s.claimSlot slotIndex).1 (Holds s.nodeId slotIndex) calls ↔
      s.nodeId = 0 ∨ .advanceFrame ∉ calls := by
  rw [everyState_iff_everyCall call _ (holds_of_claimed hclaimed) (fun _ c h => h.call_iff c)]
  constructor
  · intro h
    refine or_iff_not_imp_left.mpr fun hid hmem => ?_
    obtain ⟨i, hi⟩ := List.mem_iff_getElem?.mp hmem
    exact ((h i _ hi).resolve_left hid).1 rfl
  · rintro (hid | hsame) i c hc
    · exact .inl hid
    · have hmem : c ∈ calls := List.mem_of_getElem? hc
      exact .inr ⟨fun h => hsame (h ▸ hmem), fun h => hkept (h ▸ hmem)⟩

end SlotScheduler
end Cirradio.Tdma

namespace Cirradio.Node
open Security Hal Network Tdma Voice Fhss WhileLoops Relation CallRuns

namespace RadioNode
variable {S σ κ Q : Type} {P : Platform S σ κ}

/-- The slot that a node claims when it is started. -/
def trafficSlot (id : UInt32) : UInt8 := (1 + (id - 1) % 14).toUInt8

theorem trafficSlot_toNat (id : UInt32) :
    (trafficSlot id).toNat = 1 + (id - 1).toNat % 14 := by
  have hmod : (id - 1).toNat % 14 < 14 := Nat.mod_lt _ (by decide)
  have hsum : (1 + (id - 1) % 14).toNat = 1 + (id - 1).toNat % 14 := by
    have hlt : 1 + (id - 1).toNat % 14 < 2 ^ 32 := by omega
    rw [UInt32.toNat_add, UInt32.toNat_mod]
    exact Nat.mod_eq_of_lt hlt
  rw [trafficSlot, UInt32.toNat_toUInt8, hsum]
  exact Nat.mod_eq_of_lt (by omega)

theorem claimSlot_new (id : UInt32) :
    ((SlotScheduler.new id).claimSlot (trafficSlot id)).2 = true := by
  have hnat := trafficSlot_toNat id
  have hmod : (id - 1).toNat % 14 < 14 := Nat.mod_lt _ (by decide)
  have hlt : (trafficSlot id).toNat < kSlotCount := by
    unfold kSlotCount
    omega
  have hfirst : (trafficSlot id).toNat ≠ 0 := by omega
  have hlast : (trafficSlot id).toNat ≤ 14 := by omega
  simp [SlotScheduler.claimSlot, SlotScheduler.new, Frame.new, Frame.typeForSlot, hlt, hfirst,
    hlast]

/-- A start of an idle node fails and leaves it idle, or claims its traffic slot. -/
theorem start_of_idle {n : RadioNode σ κ Q} (hidle : n.state = .idle) :
    (∃ keyMgr e, n.start P = ({ n with keyMgr }, .error e)) ∨
    ∃ keyMgr hopSeq radio, n.start P =
      ({ n with
          keyMgr, hopSeq, radio
          scheduler := (n.scheduler.claimSlot (trafficSlot n.id)).1
          state := .listening }, .ok ()) := by
  unfold RadioNode.start
  rw [if_neg (not_not.mpr hidle)]
  split
  · exact .inl ⟨_, _, rfl⟩
  · split
    · exact .inl ⟨_, _, rfl⟩
    · split
      · exact .inl ⟨_, _, rfl⟩
      · exact .inr ⟨_, _, _, rfl⟩

section Frames
variable [LT Q] [DecidableLT Q] [One Q] [Mul Q] [Zero Q]

theorem FrameStep.scheduler {limit now : ℕ}
    {read : List (MessageHeader × Bytes)} {n n' : RadioNode σ κ Q}
    (h : FrameStep P limit now read n n') : n'.scheduler = n.scheduler := by
  cases h with
  | tune freq => rfl
  | @data hdr payload _ _ _ =>
    obtain ⟨keyMgr, dataInbox, hnode, -⟩ := openData_node hdr payload n (P := P)
    rw [hnode]
  | @voice hdr payload _ _ _ =>
    obtain ⟨keyMgr, voiceCodec, voiceInbox, hnode, -⟩ := openVoice_node hdr payload n (P := P)
    rw [hnode]
  | beacon _ _ hbeacon =>
    obtain ⟨discovery, router, rfl, -⟩ := onBeacon_node hbeacon
    rfl

/-- What a frame of a started node does to its scheduler. -/
theorem tick_scheduler {limit now : ℕ} {n n' : RadioNode σ κ Q} {c c' : SimChannel S}
    {result : Throws Unit} (hstarted : n.state ≠ .idle)
    (h : n.tick P limit now c = some (n', c', result)) :
    n'.id = n.id ∧ n'.state = n.state ∧ n'.frameNumber = (n.ended result).frameNumber ∧
      n'.scheduler = (n.ended result).scheduler := by
  obtain ⟨⟨n₁, hsteps, rfl⟩, -⟩ := tick_ended hstarted h
  have hstays := stays_of_steps hsteps
  have hscheduler : n₁.scheduler = n.scheduler := by
    clear hstays h
    induction hsteps with
    | refl => rfl
    | tail _ hstep ih => exact hstep.scheduler.trans ih
  cases result with
  | error e => exact ⟨hstays.id, hstays.state, hstays.frameNumber, hscheduler⟩
  | ok u =>
    exact ⟨hstays.id, hstays.state, congrArg (· + 1) hstays.frameNumber,
      congrArg SlotScheduler.advanceFrame hscheduler⟩

/-- Up to its start a node has the first frame, without owners. -/
theorem Reachable.scheduler_of_idle {n : RadioNode σ κ Q} (h : Reachable P n) :
    n.state = .idle → n.scheduler = .new n.id := by
  induction h with
  | new id hsm c => exact fun _ => rfl
  | provisionKeys tek fhek _ ih => exact ih
  | @start n _ ih =>
    intro hstopped
    by_cases hidle : n.state = .idle
    · rcases start_of_idle hidle (P := P) with ⟨keyMgr, e, heq⟩ | ⟨keyMgr, hopSeq, radio, heq⟩
      · rw [heq]
        exact ih hidle
      · rw [heq] at hstopped
        cases hstopped
    · rw [RadioNode.start, if_pos hidle] at hstopped
      exact absurd hstopped hidle
  | @tick n n' now c c' result _ hreturns ih =>
    intro hstopped
    obtain ⟨limit, hlimit⟩ := hreturns
    have htick : n.tick P limit now c = some (n', c', result) := hlimit limit (Nat.le_refl limit)
    by_cases hidle : n.state = .idle
    · rw [tick_of_idle hidle] at htick
      cases htick
      exact ih hidle
    · obtain ⟨-, hstate, -⟩ := tick_scheduler hidle htick
      exact absurd (hstate.symm.trans hstopped) hidle
  | sendData dest payload c _ ih =>
    obtain ⟨keyMgr, radio, heq, -, -⟩ := sendData_node dest payload _ c (P := P)
    rw [heq]
    exact ih
  | voiceTx dest audio c _ ih =>
    obtain ⟨voiceCodec, keyMgr, radio, heq, -, -⟩ := voiceTx_node dest audio _ c (P := P)
    rw [heq]
    exact ih
  | receiveData _ ih => exact ih
  | voiceRx _ ih => exact ih
  | keys keyMgr _ ih => exact ih

theorem ownerOf_of_started {n : RadioNode σ κ Q} (hn : Reachable P n) (hidle : n.state = .idle)
    (hstart : (n.start P).2 = .ok ()) :
    (n.start P).1.state ≠ .idle ∧ (n.start P).1.id = n.id ∧
      (n.start P).1.scheduler.ownerOf (trafficSlot n.id) = .ok n.id := by
  rcases start_of_idle hidle (P := P) with ⟨keyMgr, e, heq⟩ | ⟨keyMgr, hopSeq, radio, heq⟩
  · rw [heq] at hstart
    cases hstart
  · rw [heq]
    refine ⟨fun hstopped => ?_, rfl, ?_⟩
    · cases hstopped
    · simp only [hn.scheduler_of_idle hidle]
      exact (SlotScheduler.holds_of_claimed (claimSlot_new n.id)).2

/-- Frames one after another, with the node and the channel at the start of each. Other
radios use the channel in between. -/
inductive Frames (P : Platform S σ κ) (n : RadioNode σ κ Q) :
    List (RadioNode σ κ Q × SimChannel S) → RadioNode σ κ Q → Prop
  | none : Frames P n [] n
  | tick {frames : List (RadioNode σ κ Q × SimChannel S)} {n₁ n₂ : RadioNode σ κ Q} {now : ℕ}
      {c c' : SimChannel S} {result : Throws Unit} : Frames P n frames n₁ →
      Returns (fun limit => n₁.tick P limit now c) (n₂, c', result) →
      Frames P n (frames ++ [(n₁, c)]) n₂

end Frames

/-- A frame that a voice message cuts short. -/
def CutShort (P : Platform S σ κ) (frame : RadioNode σ κ Q × SimChannel S) : Prop :=
  ∃ m ∈ frameMessages P frame.1 frame.2, VoiceFault P frame.1 m

section Run
variable [Preorder Q] [WellFoundedGT Q] [DecidableLT Q] [One Q] [Mul Q] [Zero Q]
  (hdec : DecryptsPurely P.hsm) (haes : AesReturns P.aes)
include hdec haes

/-- A frame keeps the owners of the slots exactly if it is cut short. -/
theorem tick_cutShort_or_advances {n n' : RadioNode σ κ Q} {now : ℕ} {c c' : SimChannel S}
    {result : Throws Unit} (hn : Reachable P n) (hstarted : n.state ≠ .idle)
    (h : Returns (fun limit => n.tick P limit now c) (n', c', result)) :
    (CutShort P (n, c) ∧ n'.scheduler = n.scheduler) ∨
    (¬ CutShort P (n, c) ∧ n'.scheduler = n.scheduler.advanceFrame) := by
  obtain ⟨n₁, c₁, result₁, hreturns, hiff⟩ := tick_completes_iff hdec haes hn hstarted now c
  cases h.unique hreturns
  obtain ⟨limit, hlimit⟩ := h
  obtain ⟨-, -, hframe, hscheduler⟩ := tick_scheduler hstarted (hlimit limit (Nat.le_refl limit))
  have hshort : CutShort P (n, c) ↔ ¬ Completes n n' result := by
    rw [hiff]
    simp [CutShort]
  rw [hshort]
  cases result with
  | error e =>
    refine .inl ⟨fun hcompletes => ?_, hscheduler⟩
    cases hcompletes.1
  | ok u =>
    have hcompletes : Completes n n' (.ok ()) :=
      ⟨rfl, hframe, congrArg (fun s => s.frame.frameNumber) hscheduler⟩
    exact .inr ⟨not_not.mpr hcompletes, hscheduler⟩

open Classical in
/-- The first frame that is not cut short takes the slot of a started node away. -/
theorem Frames.ownerOf {n n' : RadioNode σ κ Q} {frames : List (RadioNode σ κ Q × SimChannel S)}
    (hn : Reachable P n) (hidle : n.state = .idle) (hstart : (n.start P).2 = .ok ())
    (h : Frames P (n.start P).1 frames n') :
    (Reachable P n' ∧ n'.state ≠ .idle) ∧ n'.scheduler.ownerOf (trafficSlot n.id) =
      .ok (if ∀ f ∈ frames, CutShort P f then n.id else 0) := by
  induction h with
  | none =>
    obtain ⟨hstarted, -, howner⟩ := ownerOf_of_started hn hidle hstart
    rw [if_pos (by simp)]
    exact ⟨⟨.start hn, hstarted⟩, howner⟩
  | @tick frames n₁ n₂ now c c' result _ hreturns ih =>
    obtain ⟨⟨hn₁, hstarted⟩, howner⟩ := ih
    obtain ⟨limit, hlimit⟩ := hreturns
    obtain ⟨-, hstate, -, -⟩ := tick_scheduler hstarted (hlimit limit (Nat.le_refl limit))
    refine ⟨⟨.tick hn₁ ⟨limit, hlimit⟩, fun h => hstarted (hstate.symm.trans h)⟩, ?_⟩
    simp only [List.forall_mem_append, List.forall_mem_singleton]
    rcases tick_cutShort_or_advances hdec haes hn₁ hstarted ⟨limit, hlimit⟩ with
      ⟨hshort, heq⟩ | ⟨hfull, heq⟩
    · rw [heq, howner]
      simp only [hshort, and_true]
    · have hnot : ¬ ((∀ f ∈ frames, CutShort P f) ∧ CutShort P (n₁, c)) := fun h => hfull h.2
      rw [heq, SlotScheduler.ownerOf_advanceFrame, howner, if_neg hnot]
      rfl

theorem Frames.holds_iff {n n' : RadioNode σ κ Q} {frames : List (RadioNode σ κ Q × SimChannel S)}
    (hn : Reachable P n) (hidle : n.state = .idle) (hstart : (n.start P).2 = .ok ())
    (h : Frames P (n.start P).1 frames n') :
    n'.scheduler.ownerOf (trafficSlot n.id) = .ok n.id ↔
      n.id = 0 ∨ ∀ f ∈ frames, CutShort P f := by
  rw [(h.ownerOf hdec haes hn hidle hstart).2]
  split
  · next hshort => exact ⟨fun _ => .inr hshort, fun _ => rfl⟩
  · next hfull =>
    constructor
    · intro heq
      exact .inl (Except.ok.inj heq).symm
    · rintro (hzero | hshort)
      · rw [hzero]
      · exact absurd hshort hfull

end Run

/-- A slot is held after its claim up to its release, and a started node holds its slot. -/
def ClaimsLast : Prop :=
  (∀ (s : SlotScheduler) (slotIndex : UInt8) (calls : List SlotCall),
    (s.claimSlot slotIndex).2 = true → .releaseSlot slotIndex ∉ calls →
    EveryState SlotScheduler.call (s.claimSlot slotIndex).1
      (SlotScheduler.Holds s.nodeId slotIndex) calls) ∧
  ∀ (S σ κ Q : Type) [Preorder Q] [WellFoundedGT Q] [DecidableLT Q] [One Q] [Mul Q] [Zero Q]
    (P : Platform S σ κ), DecryptsPurely P.hsm → AesReturns P.aes →
    ∀ n n' : RadioNode σ κ Q, Reachable P n → n.state = .idle → (n.start P).2 = .ok () →
    ∀ frames, Frames P (n.start P).1 frames n' →
      n'.scheduler.ownerOf (trafficSlot n.id) = .ok n.id

/-- A claimed slot is held exactly up to the next frame, and the slot of a started node
exactly up to its first frame that is not cut short. -/
theorem claimed_slot_held_iff [Preorder Q] [WellFoundedGT Q] [DecidableLT Q] [One Q] [Mul Q]
    [Zero Q] (hdec : DecryptsPurely P.hsm) (haes : AesReturns P.aes) :
    (∀ (s : SlotScheduler) (slotIndex : UInt8) (calls : List SlotCall),
      (s.claimSlot slotIndex).2 = true → .releaseSlot slotIndex ∉ calls →
      (EveryState SlotScheduler.call (s.claimSlot slotIndex).1
          (SlotScheduler.Holds s.nodeId slotIndex) calls ↔
        s.nodeId = 0 ∨ .advanceFrame ∉ calls)) ∧
    ∀ n n' : RadioNode σ κ Q, Reachable P n → n.state = .idle → (n.start P).2 = .ok () →
      ∀ frames, Frames P (n.start P).1 frames n' →
        (n'.scheduler.ownerOf (trafficSlot n.id) = .ok n.id ↔
          n.id = 0 ∨ ∀ f ∈ frames, CutShort P f) := by
  constructor
  · intro s slotIndex calls hclaimed hkept
    exact SlotScheduler.holds_iff_sameFrame hclaimed hkept
  · intro n n' hn hidle hstart frames hframes
    exact hframes.holds_iff hdec haes hn hidle hstart

/-- A node before its start. -/
def stoppedNode (id : UInt32) : SampleNode :=
  (RadioNode.new samplePlatform id [] SimChannel.new).2.provisionKeys
    (List.replicate 32 0xAA) (List.replicate 32 0xBB)

theorem exists_frame (c : SimChannel UInt8) :
    ∃ n', Frames samplePlatform ((stoppedNode 2).start samplePlatform).1
      [(sampleNode 2, c)] n' := by
  obtain ⟨n', c', result, hreturns, -, -⟩ := tick_spec samplePlatform_decrypts samplePlatform_aes
    ((sampleNode_reachable 2).sound samplePlatform_decrypts samplePlatform_aes) (by decide) 0 c
  exact ⟨n', .tick .none hreturns⟩

/-- A scheduler with one claim after another, and node 2 after a frame that is cut short and
after one that has nothing to read. -/
theorem claimed_slot_held_iff_frames :
    (EveryState SlotScheduler.call ((SlotScheduler.new 1).claimSlot 5).1
        (SlotScheduler.Holds 1 5) [.claimSlot 6] ↔
      (1 : UInt32) = 0 ∨ SlotCall.advanceFrame ∉ [SlotCall.claimSlot 6]) ∧
    (∃ n', Frames samplePlatform ((stoppedNode 2).start samplePlatform).1
        [(sampleNode 2, replayChannel)] n' ∧ n'.scheduler.ownerOf (trafficSlot 2) = .ok 2) ∧
    ∃ n', Frames samplePlatform ((stoppedNode 2).start samplePlatform).1
        [(sampleNode 2, SimChannel.new)] n' ∧ n'.scheduler.ownerOf (trafficSlot 2) ≠ .ok 2 := by
  have hclaims := claimed_slot_held_iff samplePlatform_decrypts samplePlatform_aes
    (Q := MeshRouter.Percent)
  have hnode := hclaims.2 (stoppedNode 2)
  have hreach : Reachable samplePlatform (stoppedNode 2) :=
    .provisionKeys _ _ (.new 2 [] SimChannel.new)
  refine ⟨hclaims.1 (.new 1) 5 [.claimSlot 6] (by decide) (by decide), ?_, ?_⟩
  · obtain ⟨n', hframes⟩ := exists_frame replayChannel
    refine ⟨n', hframes, (hnode n' hreach rfl (by decide) _ hframes).mpr (.inr fun f hf => ?_)⟩
    rw [List.mem_singleton.mp hf]
    exact replay_voiceFault
  · obtain ⟨n', hframes⟩ := exists_frame SimChannel.new
    refine ⟨n', hframes, fun hheld => ?_⟩
    have hread : frameMessages samplePlatform (sampleNode 2) SimChannel.new = [] := by
      have hdiscovery : discoveryRead samplePlatform (sampleNode 2) SimChannel.new = [] := by decide
      have hhop : hopRead samplePlatform (sampleNode 2) (SimChannel.new.receive
          (sampleNode 2).radio.radioId kDiscoveryFreq kReadSize).1 = [] := by decide
      rw [frameMessages, hdiscovery, hhop, messages_nil, List.append_nil]
    rcases (hnode n' hreach rfl (by decide) _ hframes).mp hheld with hzero | hshort
    · exact absurd hzero (by decide)
    · obtain ⟨m, hm, -⟩ := hshort _ List.mem_cons_self
      rw [hread] at hm
      cases hm

/-- Node 1 claims slot 5 and the frame ends. -/
theorem not_claimsLast : ¬ ClaimsLast := by
  intro h
  obtain ⟨-, howner⟩ := h.1 (.new 1) 5 [.advanceFrame] (by decide) (by decide) 1
  revert howner
  decide

end RadioNode
end Cirradio.Node
