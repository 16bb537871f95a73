import Cirradio.FrameCompletion
import Cirradio.FrameInbox
import Cirradio.NodeCalls
import Cirradio.WireMessages
import Mathlib.Logic.Function.Basic

/-!
# Where delivered data comes from

An attacker records what is sent and injects any samples. It cannot make a ciphertext that
decrypts under the TEK, but the header of a message is not covered by the encryption and
nothing tells a message from its copy. So the payload of an entry in an inbox is one that
was encrypted before, by a data or voice call; its source and its freshness mean nothing.
-/

namespace Cirradio.Node
open Security Hal Network Tdma Voice Fhss WhileLoops Relation

namespace RadioNode
variable {S σ κ Q : Type}

section Calls
variable (P : Platform S σ κ)

/-- What a call encrypts, with the type and the destination of the message. -/
def plaintext (n : RadioNode σ κ Q) : NodeCall → Option (UInt8 × UInt32 × Bytes)
  | .sendData dest payload =>
    if n.state = .idle ∨ n.keyMgr.isInitialized = false then none
    else some (kMsgTypeData, dest, payload)
  | .voiceTx dest audio =>
    if n.state = .idle ∨ n.keyMgr.isInitialized = false then none
    else
      match (n.voiceCodec.encode P.codec2 audio).2 with
      | .error _ => none
      | .ok encoded => some (kMsgTypeVoice, dest, encoded)
  | _ => none

/-- A call gets a ciphertext of the plaintext, and composes its message with the header. -/
structure Encrypts (n : RadioNode σ κ Q) (call : NodeCall) (hdr : MessageHeader)
    (plaintext ciphertext : Bytes) : Prop where
  composed : n.plaintext P call = some (hdr.msgType, hdr.dstNode, plaintext)
  sealed : (KeyManager.encryptWithTek P.hsm plaintext n.keyMgr).2 = .ok (some ciphertext)
  srcNode : hdr.srcNode = n.id
  payloadLen : hdr.payloadLen = UInt32.ofNat ciphertext.length

/-- The value of the TEK that the node holds. -/
def tekValue {E : IHsmEngine σ} (K : KeyObjects E) (n : RadioNode σ κ Q) : Option Bytes :=
  n.keyMgr.tek.bind (K.key n.keyMgr.hsm)

/-- A message that was read is delivered as an entry. -/
structure Delivers (n : RadioNode σ κ Q) (hdr : MessageHeader) (ciphertext : Bytes)
    (e : ReceivedData) : Prop where
  msgType : hdr.msgType = kMsgTypeData
  addressed : n.addressed hdr = true
  source : e.source = hdr.srcNode
  payload : (KeyManager.decryptWithTek P.hsm ciphertext n.keyMgr).2 = .ok (some e.payload)

end Calls

variable {P : Platform S σ κ}

theorem Encrypts.sendData {n : RadioNode σ κ Q} {call : NodeCall} {hdr : MessageHeader}
    {plaintext ciphertext : Bytes} (h : n.Encrypts P call hdr plaintext ciphertext)
    (htype : hdr.msgType = kMsgTypeData) : call = .sendData hdr.dstNode plaintext := by
  have hplain := h.composed
  rw [htype] at hplain
  unfold RadioNode.plaintext at hplain
  split at hplain
  · split at hplain
    · cases hplain
    · cases hplain
      rfl
  · split at hplain
    · cases hplain
    · split at hplain
      · cases hplain
      · cases hplain
  · cases hplain

theorem start_inbox (n : RadioNode σ κ Q) : (n.start P).1.dataInbox = n.dataInbox := by
  obtain ⟨keyMgr, hopSeq, radio, scheduler, state, hnode, -⟩ := start_node n (P := P)
  rw [hnode]

section Frames
variable [LT Q] [DecidableLT Q] [One Q] [Mul Q] [Zero Q]
  {limit now : ℕ} {read : List (MessageHeader × Bytes)}

/-- The steps of a frame deliver messages that it has read, under the keys at its start. -/
theorem steps_inbox (hdec : DecryptsPurely P.hsm) {n n' : RadioNode σ κ Q}
    (h : ReflTransGen (FrameStep P limit now read) n n') :
    ∃ pushed, n'.dataInbox = n.dataInbox ++ pushed ∧ ∀ e ∈ pushed, ∃ m ∈ read,
      n.Delivers P m.1 m.2 e := by
  induction h with
  | refl => exact ⟨[], (List.append_nil _).symm, fun e he => (List.not_mem_nil he).elim⟩
  | @tail n₁ n₂ hsteps hstep ih =>
    obtain ⟨pushed, hinbox, hpushed⟩ := ih
    have hstays := stays_of_steps hsteps
    cases hstep with
    | tune freq => exact ⟨pushed, hinbox, hpushed⟩
    | @data hdr payload hread htype hto =>
      refine ⟨pushed ++ (n₁.opened P hdr payload).toList, ?_, fun e he => ?_⟩
      · rw [openData_inbox, hinbox, List.append_assoc]
      · rcases List.mem_append.mp he with he | he
        · exact hpushed e he
        · obtain ⟨hsource, hplain⟩ := eq_of_opened (Option.mem_toList.mp he)
          refine ⟨(hdr, payload), hread, htype, ?_, hsource, ?_⟩
          · unfold addressed at hto ⊢
            rwa [hstays.id] at hto
          · rwa [hstays.keyMgr hdec] at hplain
    | voice _ _ _ => exact ⟨pushed, (openVoice_inbox _ _ n₁).trans hinbox, hpushed⟩
    | beacon _ _ hbeacon => exact ⟨pushed, (onBeacon_inbox hbeacon).trans hinbox, hpushed⟩

/-- Only frames add to the inbox, and what they add are messages that they have read. -/
theorem call_inbox (hdec : DecryptsPurely P.hsm) {n n' : RadioNode σ κ Q} {c c' : SimChannel S}
    {call : NodeCall} (h : n.call P limit c call = some (n', c')) {e : ReceivedData}
    (he : e ∈ n'.dataInbox.drop n.dataInbox.length) :
    (∃ now, call = .tick now) ∧ ∃ m ∈ frameMessages P n c, n.Delivers P m.1 m.2 e := by
  have hnone : ∀ {inbox : List ReceivedData}, inbox.length ≤ n.dataInbox.length →
      e ∉ inbox.drop n.dataInbox.length := by
    intro inbox hle hmem
    rw [List.drop_eq_nil_of_le hle] at hmem
    exact List.not_mem_nil hmem
  cases call with
  | tick now =>
    obtain ⟨r, hr, heq⟩ := Option.map_eq_some_iff.mp h
    cases heq
    refine ⟨⟨now, rfl⟩, ?_⟩
    by_cases hidle : n.state = .idle
    · rw [tick_of_idle hidle] at hr
      cases hr
      exact (hnone (Nat.le_refl _) he).elim
    · obtain ⟨⟨n₁, hsteps, hn'⟩, -⟩ := tick_steps hidle hr
      obtain ⟨pushed, hinbox, hpushed⟩ := steps_inbox hdec hsteps
      have hinbox' : r.1.dataInbox = n.dataInbox ++ pushed := by
        rcases hn' with hn' | hn' <;> rw [hn'] <;> exact hinbox
      rw [hinbox', List.drop_left] at he
      exact hpushed e he
  | sendData dest payload =>
    cases h
    obtain ⟨keyMgr, radio, hnode, -⟩ := sendData_node dest payload n c (P := P)
    rw [hnode] at he
    exact (hnone (Nat.le_refl _) he).elim
  | voiceTx dest audio =>
    cases h
    obtain ⟨voiceCodec, keyMgr, radio, hnode, -⟩ := voiceTx_node dest audio n c (P := P)
    rw [hnode] at he
    exact (hnone (Nat.le_refl _) he).elim
  | start =>
    cases h
    rw [start_inbox] at he
    exact (hnone (Nat.le_refl _) he).elim
  | provisionKeys tek fhek => cases h; exact (hnone (Nat.le_refl _) he).elim
  | receiveData =>
    cases h
    refine (hnone ?_ he).elim
    change n.dataInbox.tail.length ≤ _
    rw [List.length_tail]
    exact Nat.sub_le _ 1
  | voiceRx => cases h; exact (hnone (Nat.le_refl _) he).elim

end Frames
end RadioNode

section Runs
open RadioNode
variable {S σ κ Q ι : Type}

/-- A call of a node: the node and the channel before it, and the node after it. -/
structure NetStep (S σ κ Q ι : Type) where
  actor : ι
  call : NodeCall
  node : RadioNode σ κ Q
  channel : SimChannel S
  after : RadioNode σ κ Q

/-- The entries that a call adds to the inbox of the node. -/
def NetStep.pushed (t : NetStep S σ κ Q ι) : List ReceivedData :=
  t.after.dataInbox.drop t.node.dataInbox.length

section Net
variable (P : Platform S σ κ) (K : KeyObjects P.hsm)

/-- What decrypts of the messages that a frame reads has been encrypted before by a call,
under the same key. -/
def Unforged (steps : List (NetStep S σ κ Q ι)) (n : RadioNode σ κ Q) (c : SimChannel S) :
    Prop :=
  ∀ m ∈ frameMessages P n c, ∀ plaintext,
    (KeyManager.decryptWithTek P.hsm m.2 n.keyMgr).2 = .ok (some plaintext) →
      ∃ t ∈ steps, ∃ hdr, t.node.Encrypts P t.call hdr plaintext m.2 ∧
        t.node.tekValue K = n.tekValue K

variable [LT Q] [DecidableLT Q] [One Q] [Mul Q] [Zero Q] [DecidableEq ι]

/-- The runs of nodes on a channel where an attacker injects samples, which it may have
recorded, but cannot forge a ciphertext. -/
inductive NetRun : List (NetStep S σ κ Q ι) → (ι → RadioNode σ κ Q) → SimChannel S → Prop
  | new {nodes : ι → RadioNode σ κ Q} (c : SimChannel S) :
      (∀ i, ∃ id hsm c', nodes i = (RadioNode.new P id hsm c').2) → NetRun [] nodes c
  | inject {steps : List (NetStep S σ κ Q ι)} {nodes : ι → RadioNode σ κ Q} {c : SimChannel S}
      (senderId : UInt32) (freq : Frequency) (samples : List S) :
      NetRun steps nodes c → NetRun steps nodes (c.transmit senderId freq samples)
  | call {steps : List (NetStep S σ κ Q ι)} {nodes : ι → RadioNode σ κ Q} {c c' : SimChannel S}
      {limit : ℕ} {i : ι} {call : NodeCall} {n' : RadioNode σ κ Q} : NetRun steps nodes c →
      (∀ now, call = .tick now → Unforged P K steps (nodes i) c) →
      (nodes i).call P limit c call = some (n', c') →
      NetRun (steps ++ [⟨i, call, nodes i, c, n'⟩]) (Function.update nodes i n') c'

end Net

variable {P : Platform S σ κ} {K : KeyObjects P.hsm}
  [LT Q] [DecidableLT Q] [One Q] [Mul Q] [Zero Q] [DecidableEq ι]

/-- The payload of an entry that a node gets has been encrypted before under its TEK, by a
data call or, as a codec frame, by a voice call. Where the message has reached the node
with the header it was sent with, the entry is as the data call that sent it says. -/
theorem delivered_was_encrypted (hdec : DecryptsPurely P.hsm)
    {steps : List (NetStep S σ κ Q ι)} {nodes : ι → RadioNode σ κ Q} {c : SimChannel S}
    (h : NetRun P K steps nodes c) {j : ℕ} {t : NetStep S σ κ Q ι} (hj : steps[j]? = some t)
    {e : ReceivedData} (he : e ∈ t.pushed) :
    ∃ i u hdr hdr' ciphertext, i < j ∧ steps[i]? = some u ∧
      u.node.Encrypts P u.call hdr e.payload ciphertext ∧
      u.node.tekValue K = t.node.tekValue K ∧
      (hdr', ciphertext) ∈ frameMessages P t.node t.channel ∧
      t.node.Delivers P hdr' ciphertext e ∧
      (hdr' = hdr → ∃ dest, u.call = .sendData dest e.payload ∧ u.node.id = e.source ∧
        (dest = t.node.id ∨ dest = 0)) := by
  induction h with
  | new c _ => cases hj
  | inject senderId freq samples _ ih => exact ih hj
  | @call steps nodes c c' limit a call n' _ hunforged hcall ih =>
    rcases Nat.lt_or_ge j steps.length with hlt | hge
    · rw [List.getElem?_append_left hlt] at hj
      obtain ⟨i, u, hdr, hdr', ciphertext, hi, hu, hrest⟩ := ih hj
      exact ⟨i, u, hdr, hdr', ciphertext, hi,
        by rwa [List.getElem?_append_left (by omega)], hrest⟩
    · rw [List.getElem?_append_right hge, List.getElem?_singleton] at hj
      split at hj
      · next hlast =>
        cases hj
        obtain ⟨⟨now, hnow⟩, ⟨hdr', ciphertext⟩, hread, hdelivers⟩ := call_inbox hdec hcall he
        obtain ⟨u, hu, hdr, hencrypts, htek⟩ :=
          hunforged now hnow (hdr', ciphertext) hread e.payload hdelivers.payload
        obtain ⟨i, hi, hget⟩ := List.getElem_of_mem hu
        refine ⟨i, u, hdr, hdr', ciphertext, by omega, ?_, hencrypts, htek, hread, hdelivers, ?_⟩
        · rw [List.getElem?_append_left hi, List.getElem?_eq_getElem hi, hget]
        · rintro rfl
          have hto := hdelivers.addressed
          unfold addressed at hto
          rw [Bool.or_eq_true, beq_iff_eq, beq_iff_eq] at hto
          exact ⟨hdr'.dstNode, hencrypts.sendData hdelivers.msgType,
            hencrypts.srcNode.symm.trans hdelivers.source.symm, hto⟩
      · cases hj

/-- The entries that a node gets, with the positions of their frames. -/
def deliveries (steps : List (NetStep S σ κ Q ι)) (b : ι) : List (ℕ × ReceivedData) :=
  steps.zipIdx.flatMap fun t =>
    if t.1.actor = b then t.1.pushed.map fun e => (t.2, e) else []

/-- Every node holds the TEK when it is started. -/
def SharedTek (P : Platform S σ κ) (K : KeyObjects P.hsm) (tek : Bytes)
    (steps : List (NetStep S σ κ Q ι)) : Prop :=
  ∀ t ∈ steps, t.node.state ≠ .idle → t.node.tekValue K = some tek

end Runs

/-- The entries a node gets are matched, each to its own, with earlier data calls to it. -/
def DataAuthentic : Prop :=
  ∀ (S σ κ Q ι : Type) [LT Q] [DecidableLT Q] [One Q] [Mul Q] [Zero Q] [DecidableEq ι]
    (P : Platform S σ κ) (K : KeyObjects P.hsm), DecryptsPurely P.hsm →
    ∀ (steps : List (NetStep S σ κ Q ι)) (nodes : ι → RadioNode σ κ Q) (c : SimChannel S)
      (tek : Bytes), NetRun P K steps nodes c → SharedTek P K tek steps → ∀ b, ∃ f : ℕ → ℕ,
        Set.InjOn f {k | k < (deliveries steps b).length} ∧
          ∀ k j e, (deliveries steps b)[k]? = some (j, e) → f k < j ∧ ∃ t dest,
            steps[f k]? = some t ∧ t.call = .sendData dest e.payload ∧ t.node.id = e.source ∧
              (dest = (nodes b).id ∨ dest = 0)

section Samples
open RadioNode

/-- A channel with the radios of two nodes and of an attacker. -/
def attackedChannel : SimChannel UInt8 :=
  SimChannel.new.registerRadio.1.registerRadio.1.registerRadio.1

def alice : SampleNode := (RadioNode.new samplePlatform 1 [] SimChannel.new).2

def bob : SampleNode := (RadioNode.new samplePlatform 2 [] SimChannel.new.registerRadio.1).2

def keyed (n : SampleNode) : SampleNode :=
  n.provisionKeys (List.replicate 32 0xAA) (List.replicate 32 0xBB)

def started (n : SampleNode) : SampleNode := ((keyed n).start samplePlatform).1

/-- Node 1 sends three bytes to node 2. -/
def sentChannel : SimChannel UInt8 :=
  ((started alice).sendData samplePlatform 2 [1, 2, 3] attackedChannel).2.1

def aliceSent : SampleNode :=
  ((started alice).sendData samplePlatform 2 [1, 2, 3] attackedChannel).1

def sampleCiphertext : Bytes := List.replicate 32 0xAA ++ [1, 2, 3]

def recordedWire : WireMessage := ⟨⟨kMsgTypeData, 1, 2, 35⟩, sampleCiphertext, rfl⟩

/-- The message with node 7 as its source. -/
def alteredWire : WireMessage := ⟨⟨kMsgTypeData, 7, 2, 35⟩, sampleCiphertext, rfl⟩

def alteredChannel : SimChannel UInt8 := sentChannel.transmit 3 kDiscoveryFreq alteredWire.bytes

def nodesOf (a b : SampleNode) : Bool → SampleNode
  | false => a
  | true => b

abbrev SampleNetStep := NetStep UInt8 (List (Option Bytes)) Unit MeshRouter.Percent Bool

/-- Both nodes are started, and node 1 sends. -/
def sendingSteps : List SampleNetStep :=
  let keys := NodeCall.provisionKeys (List.replicate 32 0xAA) (List.replicate 32 0xBB)
  [⟨false, keys, alice, attackedChannel, keyed alice⟩,
    ⟨false, .start, keyed alice, attackedChannel, started alice⟩,
    ⟨true, keys, bob, attackedChannel, keyed bob⟩,
    ⟨true, .start, keyed bob, attackedChannel, started bob⟩,
    ⟨false, .sendData 2 [1, 2, 3], started alice, attackedChannel, aliceSent⟩]

theorem update_nodesOf_false (a b a' : SampleNode) :
    Function.update (nodesOf a b) false a' = nodesOf a' b := by
  funext i
  cases i <;> rfl

theorem update_nodesOf_true (a b b' : SampleNode) :
    Function.update (nodesOf a b) true b' = nodesOf a b' := by
  funext i
  cases i <;> rfl

theorem sendingSteps_run :
    NetRun samplePlatform tableKeys sendingSteps (nodesOf aliceSent (started bob))
      alteredChannel := by
  have h₀ : NetRun samplePlatform tableKeys [] (nodesOf alice bob) attackedChannel := by
    refine .new attackedChannel fun i => ?_
    cases i with
    | false => exact ⟨1, [], SimChannel.new, rfl⟩
    | true => exact ⟨2, [], SimChannel.new.registerRadio.1, rfl⟩
  have hkeysA : (nodesOf alice bob false).call samplePlatform 0 attackedChannel
      (.provisionKeys (List.replicate 32 0xAA) (List.replicate 32 0xBB)) =
      some (keyed alice, attackedChannel) := rfl
  have h₁ := h₀.call (by intro now h; cases h) hkeysA
  rw [update_nodesOf_false] at h₁
  have hstartA : (nodesOf (keyed alice) bob false).call samplePlatform 0 attackedChannel
      .start = some (started alice, attackedChannel) := rfl
  have h₂ := h₁.call (by intro now h; cases h) hstartA
  rw [update_nodesOf_false] at h₂
  have hkeysB : (nodesOf (started alice) bob true).call samplePlatform 0 attackedChannel
      (.provisionKeys (List.replicate 32 0xAA) (List.replicate 32 0xBB)) =
      some (keyed bob, attackedChannel) := rfl
  have h₃ := h₂.call (by intro now h; cases h) hkeysB
  rw [update_nodesOf_true] at h₃
  have hstartB : (nodesOf (started alice) (keyed bob) true).call samplePlatform 0
      attackedChannel .start = some (started bob, attackedChannel) := rfl
  have h₄ := h₃.call (by intro now h; cases h) hstartB
  rw [update_nodesOf_true] at h₄
  have hsend : (nodesOf (started alice) (started bob) false).call samplePlatform 0
      attackedChannel (.sendData 2 [1, 2, 3]) = some (aliceSent, sentChannel) := rfl
  have h₅ := h₄.call (by intro now h; cases h) hsend
  rw [update_nodesOf_false] at h₅
  exact h₅.inject 3 kDiscoveryFreq alteredWire.bytes

theorem bob_reads : frameMessages samplePlatform (started bob) alteredChannel =
    [alteredWire.parsed, recordedWire.parsed] := by
  have hdiscovery : discoveryRead samplePlatform (started bob) alteredChannel =
      WireMessage.stream [alteredWire] := by decide +kernel
  have hhop : hopRead samplePlatform (started bob)
      (alteredChannel.receive (started bob).radio.radioId kDiscoveryFreq kReadSize).1 =
      WireMessage.stream [recordedWire] := by decide +kernel
  rw [frameMessages, hdiscovery, hhop, WireMessage.messages_stream, WireMessage.messages_stream]
  rfl

theorem bob_unforged :
    Unforged samplePlatform tableKeys sendingSteps (started bob) alteredChannel := by
  have hencrypts : (started alice).Encrypts samplePlatform (.sendData 2 [1, 2, 3])
      recordedWire.header [1, 2, 3] sampleCiphertext := ⟨rfl, rfl, rfl, rfl⟩
  have htek : (started alice).tekValue tableKeys = (started bob).tekValue tableKeys := rfl
  have hopens : (KeyManager.decryptWithTek samplePlatform.hsm sampleCiphertext
      (started bob).keyMgr).2 = .ok (some [1, 2, 3]) := rfl
  intro m hm plaintext hplaintext
  rw [bob_reads] at hm
  have hciphertext : m.2 = sampleCiphertext := by
    simp only [List.mem_cons, List.not_mem_nil, or_false] at hm
    rcases hm with rfl | rfl <;> rfl
  rw [hciphertext] at hplaintext ⊢
  rw [hopens] at hplaintext
  cases hplaintext
  exact ⟨_, List.mem_of_getElem? (rfl : sendingSteps[4]? = some _), recordedWire.header,
    hencrypts, htek⟩

theorem bob_frame : ∃ n' c' result, (started bob).tick samplePlatform 3 0 alteredChannel =
    some (n', c', result) ∧ n'.dataInbox = [⟨7, [1, 2, 3]⟩, ⟨1, [1, 2, 3]⟩] := by
  have h : ((started bob).tick samplePlatform 3 0 alteredChannel).map (fun r => r.1.dataInbox) =
      some [⟨7, [1, 2, 3]⟩, ⟨1, [1, 2, 3]⟩] := by decide +kernel
  obtain ⟨⟨n', c', result⟩, htick, hinbox⟩ := Option.map_eq_some_iff.mp h
  exact ⟨n', c', result, htick, hinbox⟩

theorem exists_deliveringRun : ∃ (t : SampleNetStep) (nodes : Bool → SampleNode)
    (c : SimChannel UInt8), NetRun samplePlatform tableKeys (sendingSteps ++ [t]) nodes c ∧
      t.actor = true ∧ t.node = started bob ∧
      t.pushed = [⟨7, [1, 2, 3]⟩, ⟨1, [1, 2, 3]⟩] := by
  obtain ⟨n', c', result, htick, hinbox⟩ := bob_frame
  have hcall : (nodesOf aliceSent (started bob) true).call samplePlatform 3 alteredChannel
      (.tick 0) = some (n', c') := by
    simp only [nodesOf, RadioNode.call, htick, Option.map_some]
  have hrun := sendingSteps_run.call (by intro now h; exact bob_unforged) hcall
  rw [update_nodesOf_true] at hrun
  have hempty : (started bob).dataInbox = [] := start_inbox (keyed bob)
  have hpushed : NetStep.pushed (⟨true, .tick 0, started bob, alteredChannel, n'⟩ :
      SampleNetStep) = [⟨7, [1, 2, 3]⟩, ⟨1, [1, 2, 3]⟩] := by
    rw [NetStep.pushed, hempty, hinbox]
    rfl
  exact ⟨⟨true, .tick 0, started bob, alteredChannel, n'⟩, nodesOf aliceSent n', c', hrun, rfl,
    rfl, hpushed⟩

theorem delivered_was_encrypted_replay : ∃ (t : SampleNetStep) (e : ReceivedData)
    (u : SampleNetStep) (hdr : MessageHeader) (ciphertext : Bytes), e ∈ t.pushed ∧
      e.source = 7 ∧ u.node.Encrypts samplePlatform u.call hdr e.payload ciphertext := by
  obtain ⟨t, nodes, c, hrun, -, -, hpushed⟩ := exists_deliveringRun
  have he : (⟨7, [1, 2, 3]⟩ : ReceivedData) ∈ t.pushed := by
    rw [hpushed]
    exact List.mem_cons_self
  have hlast : (sendingSteps ++ [t])[5]? = some t := rfl
  obtain ⟨i, u, hdr, hdr', ciphertext, -, -, hencrypts, -⟩ :=
    delivered_was_encrypted samplePlatform_decrypts hrun hlast he
  exact ⟨t, _, u, hdr, ciphertext, he, rfl, hencrypts⟩

theorem sendingSteps_sharedTek {t : SampleNetStep} (ht : t.node = started bob) :
    SharedTek samplePlatform tableKeys (List.replicate 32 0xAA) (sendingSteps ++ [t]) := by
  intro u hu hstarted
  simp only [sendingSteps, List.cons_append, List.nil_append, List.mem_cons,
    List.not_mem_nil, or_false] at hu
  rcases hu with rfl | rfl | rfl | rfl | rfl | rfl
  · exact (hstarted rfl).elim
  · exact (hstarted rfl).elim
  · exact (hstarted rfl).elim
  · exact (hstarted rfl).elim
  · rfl
  · rw [ht]
    rfl

/-- Node 2 gets an entry from node 7, which is not there. -/
theorem not_dataAuthentic : ¬ DataAuthentic := by
  intro h
  obtain ⟨t, nodes, c, hrun, hactor, hnode, hpushed⟩ := exists_deliveringRun
  obtain ⟨f, -, hf⟩ := h _ _ _ _ _ samplePlatform tableKeys samplePlatform_decrypts _ _ _ _
    hrun (sendingSteps_sharedTek hnode) true
  have hnone : deliveries sendingSteps true = [] := rfl
  have hfirst : (deliveries (sendingSteps ++ [t]) true)[0]? = some (5, ⟨7, [1, 2, 3]⟩) := by
    have hlast : deliveries (sendingSteps ++ [t]) true = deliveries sendingSteps true ++
        if t.actor = true then t.pushed.map fun e => (5, e) else [] := by
      rw [deliveries, List.zipIdx_append, List.flatMap_append]
      simp [deliveries, sendingSteps]
    rw [hlast, hnone, if_pos hactor, hpushed]
    rfl
  obtain ⟨-, u, dest, hu, -, hsource, -⟩ := hf 0 5 _ hfirst
  -- the nodes that act are nodes 1 and 2
  have hids : ∀ u ∈ sendingSteps ++ [t], u.node.id = 1 ∨ u.node.id = 2 := by
    intro u hu
    simp only [sendingSteps, List.cons_append, List.nil_append, List.mem_cons,
      List.not_mem_nil, or_false] at hu
    rcases hu with rfl | rfl | rfl | rfl | rfl | rfl
    · exact .inl rfl
    · exact .inl rfl
    · exact .inr rfl
    · exact .inr rfl
    · exact .inl rfl
    · rw [hnode]
      exact .inr rfl
  rcases hids u (List.mem_of_getElem? hu) with hid | hid <;>
  · rw [hid] at hsource
    cases hsource

end Samples
end Cirradio.Node
