import Cirradio.EmissionControl
import Cirradio.QuietFrames

/-!
# The zeroize command

The shell answers `crypto zeroize` with success, but it only clears a flag of its own. The
node keeps its keys, so it is silent and deaf afterwards only where it would have been so
before.
-/

namespace Cirradio.Node
open Security Hal Network Tdma Voice Fhss Transec WhileLoops RadioNode

/-- A node with what its shell works on: the EMCON manager and the flag for the keys. -/
structure ShellNode (σ κ Q : Type) where
  node : RadioNode σ κ Q
  emcon : EmconManager Unit
  keysActive : Bool

section Calls
variable {S σ κ Q : Type} (P : Platform S σ κ)

def ShellNode.cliExecute (cmd : String) (s : ShellNode σ κ Q) :
    ShellNode σ κ Q × Option CommandResult :=
  match CliShell.tokenize cmd with
  | "crypto" :: args =>
    let (keysActive, result) := CliShell.handleCrypto args s.keysActive
    ({ s with keysActive }, some result)
  | _ =>
    let (emcon, result) := CliShell.execute nullAxiRegs cmd s.emcon
    ({ s with emcon }, result)

theorem ShellNode.cliExecute_node (cmd : String) (s : ShellNode σ κ Q) :
    (s.cliExecute cmd).1.node = s.node := by
  unfold cliExecute
  split
  · rfl
  · rfl

/-- The calls that send or receive under the TEK. -/
inductive NodeCall.Traffic : NodeCall → Prop
  | tick (now : ℕ) : Traffic (.tick now)
  | sendData (dest : UInt32) (payload : Bytes) : Traffic (.sendData dest payload)
  | voiceTx (dest : UInt32) (audio : List Int16) : Traffic (.voiceTx dest audio)

/-- A call after the command, with the node and the channel before and after it. -/
structure TrafficStep (S σ κ Q : Type) where
  call : NodeCall
  node : RadioNode σ κ Q
  before : SimChannel S
  later : RadioNode σ κ Q
  after : SimChannel S

/-- The runs of a started node from a successful `crypto zeroize` on. Others may change the
channel in between. -/
inductive CommandedRun [LT Q] [DecidableLT Q] [One Q] [Mul Q] [Zero Q] :
    List (TrafficStep S σ κ Q) → RadioNode σ κ Q → SimChannel S → Prop
  | zeroize {s s' : ShellNode σ κ Q} {result : CommandResult} (c : SimChannel S) :
      Reachable P s.node → s.node.state ≠ .idle →
      s.cliExecute "crypto zeroize" = (s', some result) → result.success = true →
      CommandedRun [] s'.node c
  | others {steps : List (TrafficStep S σ κ Q)} {n : RadioNode σ κ Q} {c : SimChannel S}
      (c' : SimChannel S) : CommandedRun steps n c → CommandedRun steps n c'
  | call {steps : List (TrafficStep S σ κ Q)} {n n' : RadioNode σ κ Q} {c c' : SimChannel S}
      {limit : ℕ} {call : NodeCall} : CommandedRun steps n c → call.Traffic →
      n.call P limit c call = some (n', c') →
      CommandedRun (steps ++ [⟨call, n, c, n', c'⟩]) n' c'

namespace TrafficStep

/-- Another radio, which the channel keeps queues for. -/
def Other (t : TrafficStep S σ κ Q) (id : UInt32) : Prop :=
  id ≠ t.node.radio.radioId ∧ t.before.registeredRadios.count id = 1

/-- Nothing is put on the channel but at most a beacon, which is not encrypted, and what is
decrypted is not added to an inbox. -/
structure Keyless (t : TrafficStep S σ κ Q) : Prop where
  sent : ∀ id, t.Other id → ∀ freq,
    t.after.buffered id freq = t.before.buffered id freq ∨
      ∃ m : WireMessage, m.header.msgType = kMsgTypeBeacon ∧ t.after.buffered id freq =
        t.before.buffered id freq ++ bytesToSamples P.format m.bytes
  received : SameInboxes t.node t.later

/-- A frame reads only quiet messages, and data and voice are sent without keys, or where
the codec, the HSM or the cipher fails. -/
def Meets (t : TrafficStep S σ κ Q) : Prop :=
  match t.call with
  | .tick _ => t.node.Quiet P (frameMessages P t.node t.before)
  | .sendData _ payload => t.node.keyMgr.isInitialized = false ∨ t.node.Mute P payload
  | .voiceTx _ audio => t.node.keyMgr.isInitialized = false ∨
      ∀ encoded, (t.node.voiceCodec.encode P.codec2 audio).2 = .ok encoded →
        t.node.Mute P encoded
  | _ => True

/-- What the call sends would be heard: there is another radio, and no partition. -/
def Heard (t : TrafficStep S σ κ Q) : Prop := (∃ id, t.Other id) ∧ t.before.drops = false

end TrafficStep
end Calls

section Steps
variable {S σ κ Q : Type} {P : Platform S σ κ}

namespace RadioNode

theorem sendData_sameInboxes (dest : UInt32) (payload : Bytes) (n : RadioNode σ κ Q)
    (c : SimChannel S) : SameInboxes n (n.sendData P dest payload c).1 := by
  obtain ⟨keyMgr, radio, hnode, -⟩ := sendData_node dest payload n c (P := P)
  rw [hnode]
  exact ⟨rfl, rfl⟩

theorem voiceTx_sameInboxes (dest : UInt32) (audio : List Int16) (n : RadioNode σ κ Q)
    (c : SimChannel S) : SameInboxes n (n.voiceTx P dest audio c).1 := by
  obtain ⟨voiceCodec, keyMgr, radio, hnode, -⟩ := voiceTx_node dest audio n c (P := P)
  rw [hnode]
  exact ⟨rfl, rfl⟩

end RadioNode

section Run
variable [LT Q] [DecidableLT Q] [One Q] [Mul Q] [Zero Q]

namespace RadioNode

theorem Reachable.txEnabled {n : RadioNode σ κ Q} (h : Reachable P n) :
    n.state ≠ .idle → n.radio.txEnabled = true := by
  induction h with
  | new id hsm c => exact fun hstate => (hstate rfl).elim
  | provisionKeys tek fhek _ ih => exact ih
  | @start n _ ih => exact (start_stationed n).txEnabled ih
  | @tick n n' now c c' result _ hreturns ih =>
    obtain ⟨limit, hlimit⟩ := hreturns
    have htick : n.tick P limit now c = some (n', c', result) := hlimit limit (Nat.le_refl _)
    have hcall : n.call P limit c (.tick now) = some (n', c') := by
      rw [call, htick, Option.map_some]
    exact (call_stationed hcall).txEnabled ih
  | @sendData n dest payload c _ ih =>
    have hcall : n.call P 0 c (.sendData dest payload) = some (_, _) := rfl
    exact (call_stationed hcall).txEnabled ih
  | @voiceTx n dest audio c _ ih =>
    have hcall : n.call P 0 c (.voiceTx dest audio) = some (_, _) := rfl
    exact (call_stationed hcall).txEnabled ih
  | receiveData _ ih => exact ih
  | voiceRx _ ih => exact ih
  | keys keyMgr _ ih => exact ih

theorem call_state {limit : ℕ} {n n' : RadioNode σ κ Q} {c c' : SimChannel S}
    {call : NodeCall} (hcall : call.Traffic) (h : n.call P limit c call = some (n', c'))
    (hstarted : n.state ≠ .idle) : n'.state = n.state := by
  cases hcall with
  | tick now =>
    obtain ⟨r, hr, heq⟩ := Option.map_eq_some_iff.mp h
    cases heq
    obtain ⟨⟨n₁, hsteps, hn'⟩, -⟩ := tick_steps hstarted hr
    rw [← (stays_of_steps hsteps).state]
    rcases hn' with hn' | hn'
    · rw [hn']
    · rw [hn']
      rfl
  | sendData dest payload =>
    cases h
    obtain ⟨keyMgr, radio, hnode, -⟩ := sendData_node dest payload n c (P := P)
    rw [hnode]
  | voiceTx dest audio =>
    cases h
    obtain ⟨voiceCodec, keyMgr, radio, hnode, -⟩ := voiceTx_node dest audio n c (P := P)
    rw [hnode]

end RadioNode

/-- What is true of a step of a run. -/
structure TrafficStep.Taken (P : Platform S σ κ) (t : TrafficStep S σ κ Q) : Prop where
  traffic : t.call.Traffic
  call : ∃ limit, t.node.call P limit t.before t.call = some (t.later, t.after)
  started : t.node.state ≠ .idle
  txEnabled : t.node.radio.txEnabled = true

theorem CommandedRun.taken {steps : List (TrafficStep S σ κ Q)} {n : RadioNode σ κ Q}
    {c : SimChannel S} (h : CommandedRun P steps n c) :
    (n.state ≠ .idle ∧ n.radio.txEnabled = true) ∧ ∀ t ∈ steps, t.Taken P := by
  induction h with
  | @zeroize s s' result c hreach hstarted hcmd _ =>
    have hnode : s'.node = s.node := by
      rw [← s.cliExecute_node "crypto zeroize", hcmd]
    rw [hnode]
    exact ⟨⟨hstarted, hreach.txEnabled hstarted⟩, fun t ht => (List.not_mem_nil ht).elim⟩
  | others c' _ ih => exact ih
  | @call steps n n' c c' limit call _ htraffic hcall ih =>
    obtain ⟨⟨hstarted, htx⟩, hsteps⟩ := ih
    have hstarted' : n'.state ≠ .idle := by
      rw [call_state htraffic hcall hstarted]
      exact hstarted
    refine ⟨⟨hstarted', (call_stationed hcall).txEnabled (fun _ => htx) hstarted'⟩,
      fun t ht => ?_⟩
    rcases List.mem_append.mp ht with ht | ht
    · exact hsteps t ht
    · rw [List.mem_singleton.mp ht]
      exact ⟨htraffic, ⟨limit, hcall⟩, hstarted, htx⟩

namespace TrafficStep
variable {t : TrafficStep S σ κ Q}

/-- The condition is that a frame reads only quiet messages, and that the other calls send
nothing. -/
theorem Taken.meets_iff (h : t.Taken P) : t.Meets P ↔
    (t.node.onAir P t.call = none ∨ ∃ now, t.call = .tick now) ∧
      ∀ now, t.call = .tick now → t.node.Quiet P (frameMessages P t.node t.before) := by
  obtain ⟨call, n, c, n', c'⟩ := t
  have htraffic : call.Traffic := h.traffic
  have hstarted : n.state ≠ .idle := h.started
  cases htraffic with
  | tick now => simp [Meets]
  | sendData dest payload => simp [Meets, onAir_sendData_eq_none_iff, hstarted]
  | voiceTx dest audio => simp [Meets, onAir_voiceTx_eq_none_iff, hstarted]

/-- Only a frame can add to the inboxes. -/
theorem Taken.sameInboxes_iff (hdec : DecryptsPurely P.hsm) (h : t.Taken P) :
    SameInboxes t.node t.later ↔
      ∀ now, t.call = .tick now → t.node.Quiet P (frameMessages P t.node t.before) := by
  obtain ⟨call, n, c, n', c'⟩ := t
  have htraffic : call.Traffic := h.traffic
  have htaken : ∃ limit, n.call P limit c call = some (n', c') := h.call
  obtain ⟨limit, hcall⟩ := htaken
  cases htraffic with
  | tick now =>
    obtain ⟨r, hr, heq⟩ := Option.map_eq_some_iff.mp hcall
    cases heq
    simp only [NodeCall.tick.injEq, forall_eq']
    exact tick_quiet hdec h.started hr
  | sendData dest payload =>
    cases hcall
    exact iff_of_true (sendData_sameInboxes dest payload n c) nofun
  | voiceTx dest audio =>
    cases hcall
    exact iff_of_true (voiceTx_sameInboxes dest audio n c) nofun

theorem Taken.sent_iff (h : t.Taken P) {id : UInt32} (hother : t.Other id)
    (freq : Frequency) :
    (t.after.buffered id freq = t.before.buffered id freq ∨
      ∃ m : WireMessage, m.header.msgType = kMsgTypeBeacon ∧ t.after.buffered id freq =
        t.before.buffered id freq ++ bytesToSamples P.format m.bytes) ↔
    (t.node.carried t.before freq (t.node.onAir P t.call) = [] ∨ ∃ m : WireMessage,
      m.header.msgType = kMsgTypeBeacon ∧
        t.node.carried t.before freq (t.node.onAir P t.call) = m.bytes) := by
  obtain ⟨limit, hcall⟩ := h.call
  exact beaconOnly_iff (call_carried hcall hother.1 hother.2 freq)

theorem Taken.keyless (hdec : DecryptsPurely P.hsm) (h : t.Taken P) (hmeets : t.Meets P) :
    t.Keyless P := by
  obtain ⟨hair, hquiet⟩ := h.meets_iff.mp hmeets
  refine ⟨fun id hother freq => ?_, (h.sameInboxes_iff hdec).mpr hquiet⟩
  rw [h.sent_iff hother freq]
  exact carries_beacon hair t.before freq

theorem Taken.meets (hdec : DecryptsPurely P.hsm) (h : t.Taken P) (hheard : t.Heard)
    (hkeyless : t.Keyless P) : t.Meets P := by
  obtain ⟨⟨id, hother⟩, hdrops⟩ := hheard
  refine h.meets_iff.mpr ⟨?_, (h.sameInboxes_iff hdec).mp hkeyless.received⟩
  refine of_carries_beacon (fun _ => h.txEnabled) hdrops fun freq => ?_
  rw [← h.sent_iff hother freq]
  exact hkeyless.sent id hother freq

end TrafficStep

/-- When every later call meets the condition, nothing is sent or received under the TEK
after the command. Where what the node sends is heard, this is so only then. -/
theorem commandZeroizes_iff_meets (hdec : DecryptsPurely P.hsm)
    {steps : List (TrafficStep S σ κ Q)} {n : RadioNode σ κ Q} {c : SimChannel S}
    (h : CommandedRun P steps n c) :
    ((∀ t ∈ steps, t.Meets P) → ∀ t ∈ steps, t.Keyless P) ∧
      ((∀ t ∈ steps, t.Heard) →
        ((∀ t ∈ steps, t.Keyless P) ↔ ∀ t ∈ steps, t.Meets P)) := by
  have hkeyless : (∀ t ∈ steps, t.Meets P) → ∀ t ∈ steps, t.Keyless P :=
    fun hmeets t ht => (h.taken.2 t ht).keyless hdec (hmeets t ht)
  refine ⟨hkeyless, fun hheard => ⟨fun hall t ht => ?_, hkeyless⟩⟩
  exact (h.taken.2 t ht).meets hdec (hheard t ht) (hall t ht)

end Run
end Steps

/-- After the zeroize command a node neither sends nor receives under the TEK. -/
def CommandZeroizes : Prop :=
  ∀ (S σ κ Q : Type) [LT Q] [DecidableLT Q] [One Q] [Mul Q] [Zero Q] (P : Platform S σ κ),
    DecryptsPurely P.hsm → ∀ (steps : List (TrafficStep S σ κ Q)) (n : RadioNode σ κ Q)
      (c : SimChannel S), CommandedRun P steps n c → ∀ t ∈ steps, t.Keyless P

abbrev SampleTraffic := TrafficStep UInt8 (List (Option Bytes)) Unit MeshRouter.Percent

/-- Node 1, started with the shared keys. -/
def shellNode : ShellNode (List (Option Bytes)) Unit MeshRouter.Percent :=
  ⟨sampleNode 1, .new nullAxiRegs (), true⟩

example : (shellNode.cliExecute "crypto zeroize").1.keysActive = false := by decide

theorem commanded_sampleNode : CommandedRun samplePlatform [] (sampleNode 1) sharedChannel :=
  .zeroize (s := shellNode) sharedChannel (sampleNode_reachable 1) (by decide) rfl rfl

/-- A data message for node 1 that is not encrypted under its TEK. -/
def strangeWire : WireMessage := ⟨⟨kMsgTypeData, 2, 1, 3⟩, [1, 2, 3], rfl⟩

def strangeChannel : SimChannel UInt8 :=
  sharedChannel.transmit 2 kDiscoveryFreq strangeWire.bytes

theorem reads_strangeWire : frameMessages samplePlatform (sampleNode 1) strangeChannel =
    [strangeWire.parsed] := by
  have hdiscovery : discoveryRead samplePlatform (sampleNode 1) strangeChannel =
      WireMessage.stream [strangeWire] := by decide +kernel
  have hhop : hopRead samplePlatform (sampleNode 1) (strangeChannel.receive
      (sampleNode 1).radio.radioId kDiscoveryFreq kReadSize).1 = [] := by decide +kernel
  rw [frameMessages, hdiscovery, hhop, WireMessage.messages_stream, messages_nil,
    List.append_nil]
  rfl

/-- A frame that reads the message does not take it for one under the TEK. -/
theorem commandZeroizes_iff_meets_frame : ∃ t : SampleTraffic, ∃ n c,
    CommandedRun samplePlatform [t] n c ∧ t.call = .tick 0 ∧
      frameMessages samplePlatform t.node t.before = [strangeWire.parsed] ∧
      t.Keyless samplePlatform := by
  obtain ⟨n', c', result, ⟨limit, hlimit⟩, -, -⟩ := tick_spec samplePlatform_decrypts
    samplePlatform_aes ((sampleNode_reachable 1).sound samplePlatform_decrypts
      samplePlatform_aes) (by decide) 0 strangeChannel
  have h : (sampleNode 1).tick samplePlatform limit 0 strangeChannel = some (n', c', result) :=
    hlimit limit (Nat.le_refl limit)
  have htick : (sampleNode 1).call samplePlatform limit strangeChannel (.tick 0) =
      some (n', c') := by
    simp only [RadioNode.call, h, Option.map_some]
  have hrun := (commanded_sampleNode.others strangeChannel).call (.tick 0) htick
  refine ⟨_, n', c', hrun, rfl, reads_strangeWire,
    (commandZeroizes_iff_meets samplePlatform_decrypts hrun).1 ?_ _ List.mem_cons_self⟩
  intro t ht
  rw [List.mem_singleton.mp ht]
  change (sampleNode 1).Quiet samplePlatform (frameMessages _ (sampleNode 1) strangeChannel)
  rw [reads_strangeWire]
  refine ⟨?_, .inr trivial⟩
  rintro ⟨-, -, plaintext, hplaintext, -⟩
  have hrefused : (KeyManager.decryptWithTek samplePlatform.hsm strangeWire.parsed.2
      (sampleNode 1).keyMgr).2 = .ok none := rfl
  rw [hrefused] at hplaintext
  cases hplaintext

/-- The data that node 1 sends after the command is heard by node 2. -/
theorem not_commandZeroizes : ¬ CommandZeroizes := by
  intro h
  have hsend : (sampleNode 1).call samplePlatform 0 sharedChannel (.sendData 2 [1, 2, 3]) =
      some (_, _) := rfl
  have hrun := commanded_sampleNode.call (.sendData 2 [1, 2, 3]) hsend
  have hkeyless := h _ _ _ _ samplePlatform samplePlatform_decrypts _ _ _ hrun _
    List.mem_cons_self
  have htaken := hrun.taken.2 _ List.mem_cons_self
  have hmeets := htaken.meets samplePlatform_decrypts ⟨⟨2, by decide, by decide⟩, rfl⟩ hkeyless
  rcases (htaken.meets_iff.mp hmeets).1 with hnone | ⟨now, htick⟩
  · have hair : (sampleNode 1).onAir samplePlatform (.sendData 2 [1, 2, 3]) ≠ none := by decide
    exact hair hnone
  · cases htick

end Cirradio.Node
