import Cirradio.KeyManager
import Cirradio.MeshRouter
import Cirradio.PeerDiscovery
import Cirradio.SimChannel
import Cirradio.SlotScheduler
import Cirradio.VoiceCodec
import Cirradio.WireFraming

/-!
# The radio node

A node beacons on the discovery frequency and visits the messages it reads there and on
its hop frequency, once a frame. Nothing in a frame catches what a visit throws.
-/

namespace Cirradio.Node
open Security Hal Network Tdma Voice Fhss

inductive NodeState where
  | idle
  | listening
  | active
  deriving DecidableEq, Repr

structure ReceivedData where
  source : UInt32
  payload : Bytes
  deriving DecidableEq, Repr

structure ReceivedVoice where
  source : UInt32
  audio : List Int16
  deriving DecidableEq, Repr

/-- What a node runs on: samples, its HSM, the AES call of the sequencer, codec2. -/
structure Platform (S σ κ : Type) where
  format : SampleFormat S
  hsm : IHsmEngine σ
  aes : AesEcb
  codec2 : Codec2 κ

structure RadioNode (σ κ Q : Type) where
  id : UInt32
  state : NodeState
  frameNumber : UInt32
  provisionedTek : Bytes
  provisionedFhek : Bytes
  keysProvisioned : Bool
  radio : SimRadioHal
  keyMgr : KeyManager σ
  hopSeq : Option HopSequencer
  scheduler : SlotScheduler
  router : MeshRouter Q
  discovery : PeerDiscovery
  voiceCodec : VoiceCodec κ
  dataInbox : List ReceivedData
  voiceInbox : List ReceivedVoice

def kMsgTypeBeacon : UInt8 := 0
def kMsgTypeData : UInt8 := 1
def kMsgTypeVoice : UInt8 := 2

def kMinFreq : Frequency := 225000000
def kMaxFreq : Frequency := 512000000
def kChannelSpacing : Frequency := 25000
def kDiscoveryFreq : Frequency := 300000000

/-- The samples of one read. -/
def kReadSize : ℕ := 4096

variable {S σ κ Q : Type}

def bytesToSamples (format : SampleFormat S) (data : Bytes) : List S := data.map format.ofByte

def samplesToBytes (format : SampleFormat S) (samples : List S) : Bytes :=
  samples.map fun s => UInt8.ofNat (max 0 (min (format.roundReal s) 255)).toNat

namespace RadioNode

section Calls
variable (P : Platform S σ κ)

/-- A new node on a channel, with the HSM as it is after the identity key. -/
def new (id : UInt32) (hsm : σ) (c : SimChannel S) : SimChannel S × RadioNode σ κ Q :=
  ((SimRadioHal.new c).1,
    { id, state := .idle, frameNumber := 0
      provisionedTek := [], provisionedFhek := [], keysProvisioned := false
      radio := (SimRadioHal.new c).2
      keyMgr := .new hsm
      hopSeq := none
      scheduler := .new id
      router := .new id
      discovery := .new id
      voiceCodec := .new P.codec2
      dataInbox := [], voiceInbox := [] })

def provisionKeys (n : RadioNode σ κ Q) (tek fhek : Bytes) : RadioNode σ κ Q :=
  { n with provisionedTek := tek, provisionedFhek := fhek, keysProvisioned := true }

/-- Calls to the key manager up to the first that throws. -/
def inOrder : List (KeyManager σ → KeyManager σ × Throws Unit) →
    KeyManager σ → KeyManager σ × Throws Unit
  | [], m => (m, .ok ())
  | call :: calls, m =>
    match call m with
    | (m, .error e) => (m, .error e)
    | (m, .ok ()) => inOrder calls m

/-- How `start` gets its keys. -/
def startKeys (n : RadioNode σ κ Q) : List (KeyManager σ → KeyManager σ × Throws Unit) :=
  if n.keysProvisioned then
    [KeyManager.initializeKek P.hsm, KeyManager.setTekRaw P.hsm n.provisionedTek,
      KeyManager.setFhekRaw P.hsm n.provisionedFhek]
  else if !n.keyMgr.isInitialized then
    [KeyManager.initializeKek P.hsm, KeyManager.generateTek P.hsm, KeyManager.generateFhek P.hsm]
  else []

def start (n : RadioNode σ κ Q) : RadioNode σ κ Q × Throws Unit :=
  if n.state ≠ .idle then (n, .ok ())
  else
    match inOrder (n.startKeys P) n.keyMgr with
    | (keyMgr, .error e) => ({ n with keyMgr }, .error e)
    | (keyMgr, .ok ()) =>
      match KeyManager.exportFhekForFpga P.hsm keyMgr with
      | (keyMgr, .error e) => ({ n with keyMgr }, .error e)
      | (keyMgr, .ok fhek) =>
        match HopSequencer.new fhek kMinFreq kMaxFreq kChannelSpacing with
        | .error e => ({ n with keyMgr }, .error e)
        | .ok hopSeq =>
          ({ n with
              keyMgr, hopSeq := some hopSeq
              radio := (n.radio.setTxEnabled true).configure ⟨kDiscoveryFreq, 48000, 25000, 10⟩
              scheduler := (n.scheduler.claimSlot (1 + (n.id - 1) % 14).toUInt8).1
              state := .listening }, .ok ())

def transmitOnChannel (n : RadioNode σ κ Q) (c : SimChannel S) (freq : Frequency)
    (payload : Bytes) : RadioNode σ κ Q × SimChannel S :=
  let radio := n.radio.tune freq
  ({ n with radio }, (radio.transmit c (bytesToSamples P.format payload)).1)

def receiveFromChannel (n : RadioNode σ κ Q) (c : SimChannel S) (freq : Frequency) :
    RadioNode σ κ Q × SimChannel S × Bytes :=
  let radio := n.radio.tune freq
  ({ n with radio }, (radio.receive c kReadSize).1,
    samplesToBytes P.format (radio.receive c kReadSize).2)

/-- The first step of a frame: the beacon. -/
def sendBeacon (now : ℕ) (n : RadioNode σ κ Q) (c : SimChannel S) :
    RadioNode σ κ Q × SimChannel S :=
  let beacon := n.discovery.generateBeacon now
    (UInt8.ofNat (n.discovery.discoveredNodes.length + 1))
  let beaconPayload := encodeU32 beacon.nodeId ++ encodeU32 beacon.netId ++ [beacon.numNodes]
  let hdr : MessageHeader := ⟨kMsgTypeBeacon, n.id, 0, UInt32.ofNat beaconPayload.length⟩
  n.transmitOnChannel P c kDiscoveryFreq (serializeHeader hdr ++ beaconPayload)

def addressed (n : RadioNode σ κ Q) (hdr : MessageHeader) : Bool :=
  hdr.dstNode == n.id || hdr.dstNode == 0

/-- The payload of a data message, if it decrypts, goes to the inbox. -/
def openData (hdr : MessageHeader) (payload : Bytes) (n : RadioNode σ κ Q) :
    RadioNode σ κ Q × Throws Unit :=
  if n.keyMgr.isInitialized then
    match KeyManager.decryptWithTek P.hsm payload n.keyMgr with
    | (keyMgr, .error e) => ({ n with keyMgr }, .error e)
    | (keyMgr, .ok none) => ({ n with keyMgr }, .ok ())
    | (keyMgr, .ok (some decrypted)) =>
      ({ n with keyMgr, dataInbox := n.dataInbox ++ [⟨hdr.srcNode, decrypted⟩] }, .ok ())
  else (n, .ok ())

/-- The payload of a voice message, if it decrypts, is decoded into the inbox. -/
def openVoice (hdr : MessageHeader) (payload : Bytes) (n : RadioNode σ κ Q) :
    RadioNode σ κ Q × Throws Unit :=
  if n.keyMgr.isInitialized then
    match KeyManager.decryptWithTek P.hsm payload n.keyMgr with
    | (keyMgr, .error e) => ({ n with keyMgr }, .error e)
    | (keyMgr, .ok none) => ({ n with keyMgr }, .ok ())
    | (keyMgr, .ok (some decrypted)) =>
      match n.voiceCodec.decode P.codec2 decrypted with
      | (voiceCodec, .error e) => ({ n with keyMgr, voiceCodec }, .error e)
      | (voiceCodec, .ok audio) =>
        ({ n with keyMgr, voiceCodec, voiceInbox := n.voiceInbox ++ [⟨hdr.srcNode, audio⟩] },
          .ok ())
  else (n, .ok ())

def onHopMessage (hdr : MessageHeader) (payload : Bytes) (n : RadioNode σ κ Q) :
    RadioNode σ κ Q × Throws Unit :=
  if hdr.msgType == kMsgTypeData && n.addressed hdr then n.openData P hdr payload
  else if hdr.msgType == kMsgTypeVoice && n.addressed hdr then n.openVoice P hdr payload
  else (n, .ok ())

variable [LT Q] [DecidableLT Q] [One Q] [Mul Q] [Zero Q]

/-- A beacon of a new node adds it to the neighbours, with quality one. -/
def onBeacon (limit : ℕ) (now : ℕ) (payload : Bytes) (n : RadioNode σ κ Q) :
    Option (RadioNode σ κ Q × Throws Unit) := do
  let rxBeacon : DiscoveryBeacon :=
    ⟨decodeU32 payload, decodeU32 (payload.drop 4), payload.getD 8 0, now⟩
  let (discovery, isNew) := n.discovery.processBeacon rxBeacon
  if isNew then
    let router ← n.router.updateNeighbor limit rxBeacon.nodeId 1
    some ({ n with discovery, router }, .ok ())
  else some ({ n with discovery }, .ok ())

def onDiscoveryMessage (limit : ℕ) (now : ℕ) (hdr : MessageHeader) (payload : Bytes)
    (n : RadioNode σ κ Q) : Option (RadioNode σ κ Q × Throws Unit) :=
  if hdr.msgType == kMsgTypeBeacon && decide (9 ≤ hdr.payloadLen) then
    n.onBeacon limit now payload
  else if hdr.msgType == kMsgTypeData then
    if n.addressed hdr then some (n.openData P hdr payload) else some (n, .ok ())
  else if hdr.msgType == kMsgTypeVoice then
    if n.addressed hdr then some (n.openVoice P hdr payload) else some (n, .ok ())
  else some (n, .ok ())

/-- The last step of a frame. -/
def advance (n : RadioNode σ κ Q) : RadioNode σ κ Q :=
  { n with scheduler := n.scheduler.advanceFrame, frameNumber := n.frameNumber + 1 }

/-- The steps of a frame after the discovery frequency. `size_t` has 64 bits. -/
def finishTick (limit : ℕ) (n : RadioNode σ κ Q) (c : SimChannel S) :
    Option (RadioNode σ κ Q × SimChannel S × Throws Unit) :=
  match n.hopSeq with
  | none => some (n.advance, c, .ok ())
  | some hopSeq =>
    match hopSeq.getHopFrequency P.aes 0 n.frameNumber 0 with
    | .error e => some (n, c, .error e)
    | .ok hopFreq => do
      let (n, c, hopData) := n.receiveFromChannel P c hopFreq
      let (n, result) ← parseMessages 64 limit (fun hdr payload n => some (n.onHopMessage P hdr payload))
        hopData n
      match result with
      | .error e => some (n, c, .error e)
      | .ok () => some (n.advance, c, .ok ())

/-- One frame. `none` when a loop does not end within the limit. -/
def tick (limit : ℕ) (now : ℕ) (n : RadioNode σ κ Q) (c : SimChannel S) :
    Option (RadioNode σ κ Q × SimChannel S × Throws Unit) :=
  if n.state = .idle then some (n, c, .ok ())
  else do
    let (n, c) := n.sendBeacon P now c
    let (n, c, rxData) := n.receiveFromChannel P c kDiscoveryFreq
    let (n, result) ← parseMessages 64 limit (onDiscoveryMessage P limit now) rxData n
    match result with
    | .error e => some (n, c, .error e)
    | .ok () => n.finishTick P limit c

/-- A message under the TEK on the hop frequency. -/
def sendEncrypted (msgType : UInt8) (dest : UInt32) (payload : Bytes) (n : RadioNode σ κ Q)
    (c : SimChannel S) : RadioNode σ κ Q × SimChannel S × Throws Unit :=
  match KeyManager.encryptWithTek P.hsm payload n.keyMgr with
  | (keyMgr, .error e) => ({ n with keyMgr }, c, .error e)
  | (keyMgr, .ok none) => ({ n with keyMgr }, c, .ok ())
  | (keyMgr, .ok (some encrypted)) =>
    let hdr : MessageHeader := ⟨msgType, n.id, dest, UInt32.ofNat encrypted.length⟩
    match n.hopSeq with
    | none => ({ n with keyMgr }, c, .ok ())
    | some hopSeq =>
      match hopSeq.getHopFrequency P.aes 0 n.frameNumber 0 with
      | .error e => ({ n with keyMgr }, c, .error e)
      | .ok freq =>
        let (n, c) := { n with keyMgr }.transmitOnChannel P c freq (serializeHeader hdr ++ encrypted)
        (n, c, .ok ())

def sendData (dest : UInt32) (payload : Bytes) (n : RadioNode σ κ Q) (c : SimChannel S) :
    RadioNode σ κ Q × SimChannel S × Throws Unit :=
  if n.state = .idle ∨ n.keyMgr.isInitialized = false then (n, c, .ok ())
  else n.sendEncrypted P kMsgTypeData dest payload c

def voiceTx (dest : UInt32) (audio : List Int16) (n : RadioNode σ κ Q) (c : SimChannel S) :
    RadioNode σ κ Q × SimChannel S × Throws Unit :=
  if n.state = .idle ∨ n.keyMgr.isInitialized = false then (n, c, .ok ())
  else
    match n.voiceCodec.encode P.codec2 audio with
    | (voiceCodec, .error e) => ({ n with voiceCodec }, c, .error e)
    | (voiceCodec, .ok encoded) =>
      { n with voiceCodec }.sendEncrypted P kMsgTypeVoice dest encoded c

end Calls

def receiveData (n : RadioNode σ κ Q) : RadioNode σ κ Q × Option ReceivedData :=
  ({ n with dataInbox := n.dataInbox.tail }, n.dataInbox.head?)

def voiceRx (n : RadioNode σ κ Q) : RadioNode σ κ Q × Option ReceivedVoice :=
  ({ n with voiceInbox := n.voiceInbox.tail }, n.voiceInbox.head?)

def peers (n : RadioNode σ κ Q) : List UInt32 := n.discovery.discoveredNodes

end RadioNode
end Cirradio.Node
