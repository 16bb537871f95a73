import Cirradio.FrameSteps

/-!
# The calls of a node

What a user of a node can call, and what a call puts on the channel: nothing, or one
message at one frequency.
-/

namespace Cirradio.Node
open Security Hal Network Tdma Voice Fhss WhileLoops Relation

inductive NodeCall where
  | provisionKeys (tek fhek : Bytes)
  | start
  | tick (now : ℕ)
  | sendData (dest : UInt32) (payload : Bytes)
  | voiceTx (dest : UInt32) (audio : List Int16)
  | receiveData
  | voiceRx
  deriving DecidableEq, Repr

namespace RadioNode
variable {S σ κ Q : Type}

section Calls
variable (P : Platform S σ κ)

/-- The node and the channel after a call, whether or not it throws. -/
def call [LT Q] [DecidableLT Q] [One Q] [Mul Q] [Zero Q] (limit : ℕ) (n : RadioNode σ κ Q)
    (c : SimChannel S) : NodeCall → Option (RadioNode σ κ Q × SimChannel S)
  | .provisionKeys tek fhek => some (n.provisionKeys tek fhek, c)
  | .start => some ((n.start P).1, c)
  | .tick now => (n.tick P limit now c).map fun r => (r.1, r.2.1)
  | .sendData dest payload =>
    some ((n.sendData P dest payload c).1, (n.sendData P dest payload c).2.1)
  | .voiceTx dest audio =>
    some ((n.voiceTx P dest audio c).1, (n.voiceTx P dest audio c).2.1)
  | .receiveData => some (n.receiveData.1, c)
  | .voiceRx => some (n.voiceRx.1, c)

def beaconHeader (n : RadioNode σ κ Q) : MessageHeader := ⟨kMsgTypeBeacon, n.id, 0, 9⟩

def beaconPayload (n : RadioNode σ κ Q) : Bytes :=
  encodeU32 n.discovery.nodeId ++ encodeU32 n.discovery.netId ++
    [UInt8.ofNat (n.discovery.discoveredNodes.length + 1)]

/-- The message with a plaintext under the TEK, and its frequency. -/
def sealed (msgType : UInt8) (dest : UInt32) (plaintext : Bytes) (n : RadioNode σ κ Q) :
    Option (Frequency × MessageHeader × Bytes) :=
  match (KeyManager.encryptWithTek P.hsm plaintext n.keyMgr).2, n.hopSeq with
  | .ok (some encrypted), some hopSeq =>
    match hopSeq.getHopFrequency P.aes 0 n.frameNumber 0 with
    | .error _ => none
    | .ok freq => some (freq, ⟨msgType, n.id, dest, UInt32.ofNat encrypted.length⟩, encrypted)
  | _, _ => none

/-- The message that a call sends, with its frequency. -/
def onAir (n : RadioNode σ κ Q) : NodeCall → Option (Frequency × MessageHeader × Bytes)
  | .tick _ =>
    if n.state = .idle then none
    else some (kDiscoveryFreq, n.beaconHeader, n.beaconPayload)
  | .sendData dest payload =>
    if n.state = .idle ∨ n.keyMgr.isInitialized = false then none
    else n.sealed P kMsgTypeData dest payload
  | .voiceTx dest audio =>
    if n.state = .idle ∨ n.keyMgr.isInitialized = false then none
    else
      match (n.voiceCodec.encode P.codec2 audio).2 with
      | .error _ => none
      | .ok encoded => n.sealed P kMsgTypeVoice dest encoded
  | _ => none

/-- The channel after the node has sent a message, if any. -/
def putOnAir (n : RadioNode σ κ Q) (c : SimChannel S) :
    Option (Frequency × MessageHeader × Bytes) → SimChannel S
  | none => c
  | some (freq, hdr, payload) =>
    (n.transmitOnChannel P c freq (serializeHeader hdr ++ payload)).2

end Calls

variable {P : Platform S σ κ}

/-- Other radios get a transmission unless the transmitter is disabled or the partition
drops it. -/
theorem transmitOnChannel_buffered (n : RadioNode σ κ Q) (c : SimChannel S)
    (freq freq' : Frequency) (payload : Bytes) {id : UInt32} (hne : id ≠ n.radio.radioId)
    (hid : c.registeredRadios.count id = 1) :
    (n.transmitOnChannel P c freq payload).2.buffered id freq' = c.buffered id freq' ++
      if n.radio.txEnabled = true ∧ c.drops = false ∧ freq' = freq then
        bytesToSamples P.format payload
      else [] := by
  have h := c.buffered_transmit hne hid freq freq' (bytesToSamples P.format payload)
  change ((n.radio.tune freq).transmit c _).1.buffered id freq' = _
  unfold SimRadioHal.transmit
  by_cases henabled : n.radio.txEnabled = true
  · have htuned : (n.radio.tune freq).txEnabled = true := henabled
    rw [if_pos htuned]
    simp only [henabled, true_and]
    exact h
  · have htuned : ¬ (n.radio.tune freq).txEnabled = true := henabled
    rw [if_neg htuned]
    simp [henabled]

/-- What another radio gets of a message that is sent. -/
def carried (n : RadioNode σ κ Q) (c : SimChannel S) (freq : Frequency) :
    Option (Frequency × MessageHeader × Bytes) → Bytes
  | none => []
  | some (freq', hdr, payload) =>
    if n.radio.txEnabled = true ∧ c.drops = false ∧ freq = freq' then
      serializeHeader hdr ++ payload
    else []

theorem putOnAir_buffered (n : RadioNode σ κ Q) (c : SimChannel S) (freq : Frequency)
    (message : Option (Frequency × MessageHeader × Bytes)) {id : UInt32}
    (hne : id ≠ n.radio.radioId) (hid : c.registeredRadios.count id = 1) :
    (n.putOnAir P c message).buffered id freq =
      c.buffered id freq ++ bytesToSamples P.format (n.carried c freq message) := by
  cases message with
  | none => exact (List.append_nil _).symm
  | some message =>
    obtain ⟨freq', hdr, payload⟩ := message
    simp only [putOnAir, carried, transmitOnChannel_buffered n c freq' freq _ hne hid]
    split <;> rfl

theorem transmitOnChannel_registeredRadios (n : RadioNode σ κ Q) (c : SimChannel S)
    (freq : Frequency) (payload : Bytes) :
    (n.transmitOnChannel P c freq payload).2.registeredRadios = c.registeredRadios := by
  change ((n.radio.tune freq).transmit c _).1.registeredRadios = _
  unfold SimRadioHal.transmit
  split
  · exact c.transmit_registeredRadios _ _ _
  · rfl

theorem transmitOnChannel_partitionActive (n : RadioNode σ κ Q) (c : SimChannel S)
    (freq : Frequency) (payload : Bytes) :
    (n.transmitOnChannel P c freq payload).2.partitionActive = c.partitionActive := by
  change ((n.radio.tune freq).transmit c _).1.partitionActive = _
  unfold SimRadioHal.transmit
  split
  · exact c.transmit_partitionActive _ _ _
  · rfl

/-- An encrypted message is sent as it is sealed, or nothing is sent. -/
theorem sendEncrypted_channel (msgType : UInt8) (dest : UInt32) (plaintext : Bytes)
    (n : RadioNode σ κ Q) (c : SimChannel S) :
    (n.sendEncrypted P msgType dest plaintext c).2.1 =
      n.putOnAir P c (n.sealed P msgType dest plaintext) := by
  unfold sendEncrypted sealed
  rcases KeyManager.encryptWithTek P.hsm plaintext n.keyMgr with ⟨keyMgr, e | _ | encrypted⟩
  · rfl
  · rfl
  · cases n.hopSeq with
    | none => rfl
    | some hopSeq =>
      simp only
      cases hopSeq.getHopFrequency P.aes 0 n.frameNumber 0 with
      | error e => rfl
      | ok freq => rfl

theorem sendData_channel (dest : UInt32) (payload : Bytes) (n : RadioNode σ κ Q)
    (c : SimChannel S) :
    (n.sendData P dest payload c).2.1 = n.putOnAir P c (n.onAir P (.sendData dest payload)) := by
  by_cases hmute : n.state = .idle ∨ n.keyMgr.isInitialized = false
  · simp only [sendData, onAir, if_pos hmute]
    rfl
  · simp only [sendData, onAir, if_neg hmute]
    exact sendEncrypted_channel _ dest payload n c

theorem voiceTx_channel (dest : UInt32) (audio : List Int16) (n : RadioNode σ κ Q)
    (c : SimChannel S) :
    (n.voiceTx P dest audio c).2.1 = n.putOnAir P c (n.onAir P (.voiceTx dest audio)) := by
  by_cases hmute : n.state = .idle ∨ n.keyMgr.isInitialized = false
  · simp only [voiceTx, onAir, if_pos hmute]
    rfl
  · simp only [voiceTx, onAir, if_neg hmute]
    rcases n.voiceCodec.encode P.codec2 audio with ⟨voiceCodec, e | encoded⟩
    · rfl
    · exact sendEncrypted_channel _ dest encoded { n with voiceCodec } c

/-- The radio after a message is sent, if any. -/
def tunedTo (n : RadioNode σ κ Q) (message : Option (Frequency × MessageHeader × Bytes)) :
    SimRadioHal :=
  message.elim n.radio fun m => n.radio.tune m.1

theorem sendEncrypted_tuned (msgType : UInt8) (dest : UInt32) (payload : Bytes)
    (n : RadioNode σ κ Q) (c : SimChannel S) :
    (n.sendEncrypted P msgType dest payload c).1 =
      { n with
          keyMgr := (KeyManager.encryptWithTek P.hsm payload n.keyMgr).1
          radio := n.tunedTo (n.sealed P msgType dest payload) } := by
  unfold sendEncrypted sealed
  rcases KeyManager.encryptWithTek P.hsm payload n.keyMgr with ⟨keyMgr, e | _ | encrypted⟩
  · rfl
  · rfl
  · cases hseq : n.hopSeq with
    | none => simp only [tunedTo, Option.elim_none]
    | some hopSeq =>
      cases hfreq : hopSeq.getHopFrequency P.aes 0 n.frameNumber 0 with
      | error e => simp only [hfreq, tunedTo, Option.elim_none]
      | ok freq => simp only [hfreq, tunedTo, Option.elim_some, transmitOnChannel]

theorem sendEncrypted_node (msgType : UInt8) (dest : UInt32) (plaintext : Bytes)
    (n : RadioNode σ κ Q) (c : SimChannel S) :
    ∃ radio, (n.sendEncrypted P msgType dest plaintext c).1 =
        { n with keyMgr := (KeyManager.encryptWithTek P.hsm plaintext n.keyMgr).1, radio } ∧
      radio.radioId = n.radio.radioId ∧ radio.txEnabled = n.radio.txEnabled := by
  refine ⟨_, sendEncrypted_tuned msgType dest plaintext n c, ?_⟩
  cases n.sealed P msgType dest plaintext with
  | none => exact ⟨rfl, rfl⟩
  | some m => exact ⟨rfl, rfl⟩

theorem sendData_node (dest : UInt32) (payload : Bytes) (n : RadioNode σ κ Q)
    (c : SimChannel S) :
    ∃ keyMgr radio, (n.sendData P dest payload c).1 = { n with keyMgr, radio } ∧
      radio.radioId = n.radio.radioId ∧ radio.txEnabled = n.radio.txEnabled := by
  unfold sendData
  split
  · exact ⟨n.keyMgr, n.radio, rfl, rfl, rfl⟩
  · obtain ⟨radio, hnode, hradio⟩ := sendEncrypted_node kMsgTypeData dest payload n c (P := P)
    exact ⟨_, radio, hnode, hradio⟩

theorem voiceTx_node (dest : UInt32) (audio : List Int16) (n : RadioNode σ κ Q)
    (c : SimChannel S) :
    ∃ voiceCodec keyMgr radio, (n.voiceTx P dest audio c).1 =
        { n with voiceCodec, keyMgr, radio } ∧
      radio.radioId = n.radio.radioId ∧ radio.txEnabled = n.radio.txEnabled := by
  unfold voiceTx
  split
  · exact ⟨n.voiceCodec, n.keyMgr, n.radio, rfl, rfl, rfl⟩
  · rcases n.voiceCodec.encode P.codec2 audio with ⟨voiceCodec, e | encoded⟩
    · exact ⟨voiceCodec, n.keyMgr, n.radio, rfl, rfl, rfl⟩
    · obtain ⟨radio, hnode, hradio⟩ :=
        sendEncrypted_node kMsgTypeVoice dest encoded { n with voiceCodec } c (P := P)
      exact ⟨voiceCodec, _, radio, hnode, hradio⟩

/-- What a call keeps of a node: who it is, and that it transmits once it is started. -/
structure Stationed (n n' : RadioNode σ κ Q) : Prop where
  id : n'.id = n.id
  radioId : n'.radio.radioId = n.radio.radioId
  txEnabled : (n.state ≠ .idle → n.radio.txEnabled = true) →
    n'.state ≠ .idle → n'.radio.txEnabled = true

theorem Stationed.refl (n : RadioNode σ κ Q) : Stationed n n := ⟨rfl, rfl, fun h => h⟩

theorem start_node (n : RadioNode σ κ Q) :
    ∃ keyMgr hopSeq radio scheduler state,
      (n.start P).1 = { n with keyMgr, hopSeq, radio, scheduler, state } ∧
      radio.radioId = n.radio.radioId ∧
      (radio.txEnabled = true ∨ radio = n.radio ∧ state = n.state) := by
  unfold start
  split
  · exact ⟨n.keyMgr, n.hopSeq, n.radio, n.scheduler, n.state, rfl, rfl, .inr ⟨rfl, rfl⟩⟩
  · split
    · exact ⟨_, n.hopSeq, n.radio, n.scheduler, n.state, rfl, rfl, .inr ⟨rfl, rfl⟩⟩
    · split
      · exact ⟨_, n.hopSeq, n.radio, n.scheduler, n.state, rfl, rfl, .inr ⟨rfl, rfl⟩⟩
      · split
        · exact ⟨_, n.hopSeq, n.radio, n.scheduler, n.state, rfl, rfl, .inr ⟨rfl, rfl⟩⟩
        · exact ⟨_, _, _, _, .listening, rfl, rfl, .inl rfl⟩

theorem start_stationed (n : RadioNode σ κ Q) : Stationed n (n.start P).1 := by
  obtain ⟨keyMgr, hopSeq, radio, scheduler, state, hnode, hradio, htx⟩ := start_node n (P := P)
  rw [hnode]
  refine ⟨rfl, hradio, fun h hstate => ?_⟩
  rcases htx with htx | ⟨rfl, rfl⟩
  · exact htx
  · exact h hstate

variable [LT Q] [DecidableLT Q] [One Q] [Mul Q] [Zero Q]

theorem call_stationed {limit : ℕ} {n n' : RadioNode σ κ Q} {c c' : SimChannel S}
    {call : NodeCall} (h : n.call P limit c call = some (n', c')) : Stationed n n' := by
  cases call with
  | tick now =>
    obtain ⟨r, hr, heq⟩ := Option.map_eq_some_iff.mp h
    cases heq
    by_cases hidle : n.state = .idle
    · rw [tick_of_idle hidle] at hr
      cases hr
      exact .refl n
    · obtain ⟨⟨n₁, hsteps, hn'⟩, -⟩ := tick_steps hidle hr
      have hstays := stays_of_steps hsteps
      have hstationed : Stationed n n₁ := ⟨hstays.id, hstays.radioId, fun htx hstate => by
        rw [hstays.txEnabled]
        exact htx (by rwa [← hstays.state])⟩
      rcases hn' with hn' | hn'
      · rw [hn']
        exact hstationed
      · rw [hn']
        exact ⟨hstationed.id, hstationed.radioId, hstationed.txEnabled⟩
  | sendData dest payload =>
    cases h
    obtain ⟨keyMgr, radio, hnode, hradio, htx⟩ := sendData_node dest payload n c (P := P)
    rw [hnode]
    exact ⟨rfl, hradio, fun h hstate => htx.trans (h hstate)⟩
  | voiceTx dest audio =>
    cases h
    obtain ⟨voiceCodec, keyMgr, radio, hnode, hradio, htx⟩ := voiceTx_node dest audio n c (P := P)
    rw [hnode]
    exact ⟨rfl, hradio, fun h hstate => htx.trans (h hstate)⟩
  | start => cases h; exact start_stationed n
  | provisionKeys tek fhek => cases h; exact ⟨rfl, rfl, fun h => h⟩
  | receiveData => cases h; exact ⟨rfl, rfl, fun h => h⟩
  | voiceRx => cases h; exact ⟨rfl, rfl, fun h => h⟩

/-- Apart from what the node reads, a call puts on the channel the message it sends. -/
theorem call_channel {limit : ℕ} {n n' : RadioNode σ κ Q} {c c' : SimChannel S}
    {call : NodeCall} (h : n.call P limit c call = some (n', c')) :
    ReadOnly n.radio.radioId (n.putOnAir P c (n.onAir P call)) c' := by
  cases call with
  | tick now =>
    obtain ⟨r, hr, heq⟩ := Option.map_eq_some_iff.mp h
    cases heq
    by_cases hidle : n.state = .idle
    · rw [tick_of_idle hidle] at hr
      cases hr
      simp only [onAir, if_pos hidle]
      exact .refl _ c
    · simp only [onAir, if_neg hidle]
      exact (tick_steps hidle hr).2
  | sendData dest payload =>
    cases h
    rw [← sendData_channel]
    exact .refl _ _
  | voiceTx dest audio =>
    cases h
    rw [← voiceTx_channel]
    exact .refl _ _
  | provisionKeys tek fhek => cases h; exact .refl _ c
  | start => cases h; exact .refl _ c
  | receiveData => cases h; exact .refl _ c
  | voiceRx => cases h; exact .refl _ c

end RadioNode
end Cirradio.Node
