import Cirradio.RadioNodeTick

/-!
# Frames that end normally

The states a node reaches by its operations, whatever is on the channel and whatever is
done to its keys, are sound, so what a frame does follows from the messages it reads.
An attacker who turns the type of a recorded data message into voice makes a frame throw.
-/

namespace Cirradio.Node
open Security Hal Network Tdma Voice Fhss WhileLoops

namespace RadioNode
variable {S σ κ Q : Type}

section Reachable
variable [LT Q] [DecidableLT Q] [One Q] [Mul Q] [Zero Q] (P : Platform S σ κ)

/-- The states of a node. Other radios change the channel in between, and the key
manager may be used from outside. -/
inductive Reachable : RadioNode σ κ Q → Prop
  | new (id : UInt32) (hsm : σ) (c : SimChannel S) : Reachable (RadioNode.new P id hsm c).2
  | provisionKeys {n : RadioNode σ κ Q} (tek fhek : Bytes) :
      Reachable n → Reachable (n.provisionKeys tek fhek)
  | start {n : RadioNode σ κ Q} : Reachable n → Reachable (n.start P).1
  | tick {n n' : RadioNode σ κ Q} {now : ℕ} {c c' : SimChannel S} {result : Throws Unit} :
      Reachable n → Returns (fun limit => n.tick P limit now c) (n', c', result) → Reachable n'
  | sendData {n : RadioNode σ κ Q} (dest : UInt32) (payload : Bytes) (c : SimChannel S) :
      Reachable n → Reachable (n.sendData P dest payload c).1
  | voiceTx {n : RadioNode σ κ Q} (dest : UInt32) (audio : List Int16) (c : SimChannel S) :
      Reachable n → Reachable (n.voiceTx P dest audio c).1
  | receiveData {n : RadioNode σ κ Q} : Reachable n → Reachable n.receiveData.1
  | voiceRx {n : RadioNode σ κ Q} : Reachable n → Reachable n.voiceRx.1
  | keys {n : RadioNode σ κ Q} (keyMgr : KeyManager σ) :
      Reachable n → Reachable { n with keyMgr }

end Reachable

section Sound
variable {P : Platform S σ κ}

theorem Sound.start {n : RadioNode σ κ Q} (h : n.Sound) : (n.start P).1.Sound := by
  unfold RadioNode.start
  split
  · exact h
  · split
    · exact ⟨h.own, h.key⟩
    · split
      · exact ⟨h.own, h.key⟩
      · split
        · exact ⟨h.own, h.key⟩
        · next hopSeq hnew =>
          refine ⟨h.own, fun h' hh' => ?_⟩
          cases hh'
          exact HopSequencer.new_fhek hnew

theorem Sound.sendEncrypted {n : RadioNode σ κ Q} (h : n.Sound) (msgType : UInt8)
    (dest : UInt32) (payload : Bytes) (c : SimChannel S) :
    (n.sendEncrypted P msgType dest payload c).1.Sound := by
  unfold RadioNode.sendEncrypted
  split
  · exact ⟨h.own, h.key⟩
  · exact ⟨h.own, h.key⟩
  · simp only
    split
    · exact ⟨h.own, h.key⟩
    · split
      · exact ⟨h.own, h.key⟩
      · exact ⟨h.own, h.key⟩

theorem Sound.sendData {n : RadioNode σ κ Q} (h : n.Sound) (dest : UInt32) (payload : Bytes)
    (c : SimChannel S) : (n.sendData P dest payload c).1.Sound := by
  unfold RadioNode.sendData
  split
  · exact h
  · exact h.sendEncrypted _ dest payload c

theorem Sound.voiceTx {n : RadioNode σ κ Q} (h : n.Sound) (dest : UInt32)
    (audio : List Int16) (c : SimChannel S) : (n.voiceTx P dest audio c).1.Sound := by
  unfold RadioNode.voiceTx
  split
  · exact h
  · split
    · exact ⟨h.own, h.key⟩
    · apply Sound.sendEncrypted
      exact ⟨h.own, h.key⟩

end Sound

section Frames
variable [Preorder Q] [WellFoundedGT Q] [DecidableLT Q] [One Q] [Mul Q] [Zero Q]
  {P : Platform S σ κ}

theorem Reachable.sound (hdec : DecryptsPurely P.hsm) (haes : AesReturns P.aes)
    {n : RadioNode σ κ Q} (h : Reachable P n) : n.Sound := by
  induction h with
  | new id hsm c => exact ⟨MeshRouter.own_new id, fun h hnone => nomatch hnone⟩
  | provisionKeys tek fhek _ ih => exact ⟨ih.own, ih.key⟩
  | start _ ih => exact ih.start
  | @tick n n' now c c' result _ hreturns ih =>
    by_cases hidle : n.state = .idle
    · unfold RadioNode.tick at hreturns
      simp only [hidle, if_true] at hreturns
      have heq := hreturns.unique (.pure (n, c, Except.ok ()))
      cases heq
      exact ih
    · obtain ⟨n₁, c₁, result₁, hreturns₁, hsound, -⟩ := tick_spec hdec haes ih hidle now c
      have heq := hreturns.unique hreturns₁
      cases heq
      exact hsound
  | sendData dest payload c _ ih => exact ih.sendData dest payload c
  | voiceTx dest audio c _ ih => exact ih.voiceTx dest audio c
  | receiveData _ ih => exact ⟨ih.own, ih.key⟩
  | voiceRx _ ih => exact ⟨ih.own, ih.key⟩
  | keys keyMgr _ ih => exact ⟨ih.own, ih.key⟩

/-- A frame of a started node completes exactly when none of the messages it reads is a
voice message for the node that cannot be decoded. -/
theorem tick_completes_iff (hdec : DecryptsPurely P.hsm) (haes : AesReturns P.aes)
    {n : RadioNode σ κ Q} (hn : Reachable P n) (hstarted : n.state ≠ .idle) (now : ℕ)
    (c : SimChannel S) :
    ∃ n' c' result, Returns (fun limit => n.tick P limit now c) (n', c', result) ∧
      (Completes n n' result ↔ ∀ m ∈ frameMessages P n c, ¬ VoiceFault P n m) := by
  obtain ⟨n', c', result, hreturns, -, hiff⟩ :=
    tick_spec hdec haes (hn.sound hdec haes) hstarted now c
  exact ⟨n', c', result, hreturns, hiff⟩

end Frames

/-- Received bytes cannot abort a frame. -/
def FramesComplete : Prop :=
  ∀ (S σ κ Q : Type) [Preorder Q] [WellFoundedGT Q] [DecidableLT Q] [One Q] [Mul Q] [Zero Q]
    (P : Platform S σ κ) (K : KeyObjects P.hsm), IdealAead K → DecryptsPurely P.hsm →
    AesReturns P.aes → ∀ n : RadioNode σ κ Q, Reachable P n → n.state ≠ .idle →
    ∀ (now : ℕ) (c : SimChannel S), ∃ n' c' result,
      Returns (fun limit => n.tick P limit now c) (n', c', result) ∧ Completes n n' result

/-- A platform for runs on fixed inputs: samples are bytes, the HSM is the table, a block
is its own encryption, and a codec frame has six bytes. -/
def samplePlatform : Platform UInt8 (List (Option Bytes)) Unit where
  format := ⟨fun b => b, fun b => b.toNat, fun _ => rfl⟩
  hsm := tableHsm
  aes := fun _ block => .ok block
  codec2 :=
    { create := (), samplesPerFrame := 320, bytesPerFrame := 6
      encode := fun _ _ => ((), List.replicate 6 0)
      decode := fun _ _ => ((), List.replicate 320 0) }

abbrev SampleNode := RadioNode (List (Option Bytes)) Unit MeshRouter.Percent

/-- A node with the shared keys, on a channel of its own. -/
def sampleNode (id : UInt32) : SampleNode :=
  (((RadioNode.new samplePlatform id [] SimChannel.new).2.provisionKeys
    (List.replicate 32 0xAA) (List.replicate 32 0xBB)).start samplePlatform).1

/-- What node 1 sends to node 2 as data: three bytes under the TEK. -/
def recordedMessage : Bytes :=
  serializeHeader ⟨kMsgTypeData, 1, 2, 35⟩ ++ (List.replicate 32 0xAA ++ [1, 2, 3])

example : ((sampleNode 1).sendData samplePlatform 2 [1, 2, 3]
    (SimChannel.new.registerRadio.1).registerRadio.1).2.1.buffered 2 225000000 =
      recordedMessage := by decide

/-- Node 2's channel, with the recorded message sent again by another radio, on the
discovery frequency and with the type of a voice message. -/
def replayChannel : SimChannel UInt8 :=
  ((SimChannel.new.registerRadio.1).registerRadio.1).transmit 2 kDiscoveryFreq
    (kMsgTypeVoice :: recordedMessage.tail)

theorem sampleNode_reachable (id : UInt32) : Reachable samplePlatform (sampleNode id) :=
  .start (.provisionKeys _ _ (.new id [] SimChannel.new))

theorem samplePlatform_decrypts : DecryptsPurely samplePlatform.hsm :=
  fun s h ciphertext => ⟨(tableKey s h).bind fun k => tableUnwrap k ciphertext, rfl⟩

theorem samplePlatform_aes : AesReturns samplePlatform.aes := fun _ block _ => ⟨block, rfl⟩

theorem tableKeys_idealAead : IdealAead tableKeys := by
  intro s h ciphertext plaintext hdecrypt
  refine ⟨s, h, rfl, ?_⟩
  change (Except.ok ((tableKey s h).bind fun k => tableUnwrap k ciphertext) :
    Throws (Option Bytes)) = _ at hdecrypt
  change (Except.ok ((tableKey s h).map fun k => k ++ plaintext) :
    Throws (Option Bytes)) = _
  cases hkey : tableKey s h with
  | none => simp [hkey] at hdecrypt
  | some k =>
    rw [hkey] at hdecrypt
    have hunwrap : tableUnwrap k ciphertext = some plaintext := by simpa using hdecrypt
    unfold tableUnwrap at hunwrap
    split at hunwrap
    · next hprefix =>
      rw [← Option.some.inj hunwrap, Option.map_some]
      conv_rhs => rw [← List.take_append_drop k.length ciphertext, hprefix]
    · cases hunwrap

theorem replay_voiceFault :
    ∃ m ∈ frameMessages samplePlatform (sampleNode 2) replayChannel,
      VoiceFault samplePlatform (sampleNode 2) m := by
  have hread : discoveryRead samplePlatform (sampleNode 2) replayChannel =
      kMsgTypeVoice :: recordedMessage.tail := by decide
  refine ⟨(⟨kMsgTypeVoice, 1, 2, 35⟩, List.replicate 32 0xAA ++ [1, 2, 3]),
    List.mem_append_left _ ?_, rfl, by decide, by decide, [1, 2, 3], rfl, by decide⟩
  rw [hread]
  exact mem_messages_front ⟨kMsgTypeVoice, 1, 2, 35⟩ (by decide) (by decide)

theorem tick_completes_iff_replay :
    ∃ n' c' result, Returns
        (fun limit => (sampleNode 2).tick samplePlatform limit 0 replayChannel)
        (n', c', result) ∧
      (Completes (sampleNode 2) n' result ↔
        ∀ m ∈ frameMessages samplePlatform (sampleNode 2) replayChannel,
          ¬ VoiceFault samplePlatform (sampleNode 2) m) :=
  tick_completes_iff samplePlatform_decrypts samplePlatform_aes (sampleNode_reachable 2)
    (by decide) 0 replayChannel

/-- The replayed message aborts the frame of node 2. -/
theorem not_framesComplete : ¬ FramesComplete := by
  intro h
  have hstarted : (sampleNode 2).state ≠ .idle := by decide
  obtain ⟨n', c', result, hreturns, hcompletes⟩ := h UInt8 (List (Option Bytes)) Unit
    MeshRouter.Percent samplePlatform tableKeys tableKeys_idealAead samplePlatform_decrypts
    samplePlatform_aes (sampleNode 2) (sampleNode_reachable 2) hstarted 0 replayChannel
  obtain ⟨n₁, c₁, result₁, hreturns₁, -, hiff⟩ := tick_spec samplePlatform_decrypts
    samplePlatform_aes ((sampleNode_reachable 2).sound samplePlatform_decrypts samplePlatform_aes)
    hstarted 0 replayChannel
  have heq := hreturns.unique hreturns₁
  cases heq
  obtain ⟨m, hm, hfault⟩ := replay_voiceFault
  exact hiff.mp hcompletes m hm hfault

end RadioNode
end Cirradio.Node
