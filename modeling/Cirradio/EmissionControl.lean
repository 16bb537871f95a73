import Cirradio.EmconManager
import Cirradio.FrameCompletion
import Cirradio.NodeCalls
import Cirradio.WireMessages

/-!
# Radio silence

At EMCON level 0 a node is meant to put nothing on the channel, and at level 1 only
beacons. The node keeps its level in the manager and does not ask for it before it sends,
so it is silent only where it would not have sent at the normal level either.
-/

namespace Cirradio.Node
open Security Hal Network Tdma Voice Fhss Transec WhileLoops RadioNode

/-- A node with its EMCON manager, whose registers are none, and its identity key. -/
structure EmconNode (σ κ Q : Type) where
  node : RadioNode σ κ Q
  emcon : EmconManager Unit
  ikHandle : CkHandle
  zeroized : Bool

inductive EmconCall where
  | node (call : NodeCall)
  | setLevel (level : Int) (unlock : Bool)
  | cliExecute (input : String)
  | zeroizeImmediate
  deriving DecidableEq, Repr

section Calls
variable {S σ κ Q : Type} (P : Platform S σ κ) (shutdown : σ → σ)

namespace EmconNode

def new (id : UInt32) (hsm : σ) (ikHandle : CkHandle) (c : SimChannel S) :
    SimChannel S × EmconNode σ κ Q :=
  ((RadioNode.new P id hsm c (Q := Q)).1,
    ⟨(RadioNode.new P id hsm c).2, .new nullAxiRegs (), ikHandle, false⟩)

/-- Only the first zeroize does anything. Its hook forces silence. -/
def zeroizeImmediate (s : EmconNode σ κ Q) : EmconNode σ κ Q :=
  if s.zeroized then s
  else
    let (regs, keyMgr, ikHandle) :=
      zeroizeRun nullAxiRegs P.hsm shutdown s.ikHandle s.emcon.regs s.node.keyMgr
    { node := { s.node with keyMgr }
      emcon := EmconManager.forceEmcon0 nullAxiRegs { s.emcon with regs }
      ikHandle, zeroized := true }

def call [LT Q] [DecidableLT Q] [One Q] [Mul Q] [Zero Q] (limit : ℕ) (s : EmconNode σ κ Q)
    (c : SimChannel S) : EmconCall → Option (EmconNode σ κ Q × SimChannel S)
  | .node call => (s.node.call P limit c call).map fun r => ({ s with node := r.1 }, r.2)
  | .setLevel level unlock =>
    some ({ s with emcon := (EmconManager.setLevel nullAxiRegs level unlock s.emcon).1 }, c)
  | .cliExecute input =>
    some ({ s with emcon := (CliShell.execute nullAxiRegs input s.emcon).1 }, c)
  | .zeroizeImmediate => some (s.zeroizeImmediate P shutdown, c)

end EmconNode

/-- A call, the node and the channel before it, and the channel after it. -/
structure EmconStep (S σ κ Q : Type) where
  call : EmconCall
  state : EmconNode σ κ Q
  before : SimChannel S
  after : SimChannel S

/-- The runs of a node, with their calls. Others may change the channel in between. -/
inductive EmconRun [LT Q] [DecidableLT Q] [One Q] [Mul Q] [Zero Q] :
    List (EmconStep S σ κ Q) → EmconNode σ κ Q → SimChannel S → Prop
  | new (id : UInt32) (hsm : σ) (ikHandle : CkHandle) (c : SimChannel S) :
      EmconRun [] (EmconNode.new P id hsm ikHandle c).2 (EmconNode.new P id hsm ikHandle c (Q := Q)).1
  | others {steps : List (EmconStep S σ κ Q)} {s : EmconNode σ κ Q} {c : SimChannel S}
      (c' : SimChannel S) : EmconRun steps s c → EmconRun steps s c'
  | call {steps : List (EmconStep S σ κ Q)} {s s' : EmconNode σ κ Q} {c c' : SimChannel S}
      {limit : ℕ} {call : EmconCall} : EmconRun steps s c →
      s.call P shutdown limit c call = some (s', c') →
      EmconRun (steps ++ [⟨call, s, c, c'⟩]) s' c'

namespace EmconStep

def level (t : EmconStep S σ κ Q) : Int := t.state.emcon.currentLevel

/-- Another radio, which the channel keeps queues for. -/
def Other (t : EmconStep S σ κ Q) (id : UInt32) : Prop :=
  id ≠ t.state.node.radio.radioId ∧ t.before.registeredRadios.count id = 1

/-- At level 0 no sample is put on the channel, and at level 1 no more than a beacon. -/
structure Obeys (t : EmconStep S σ κ Q) : Prop where
  silent : t.level = 0 → ∀ id, t.Other id → ∀ freq,
    t.after.buffered id freq = t.before.buffered id freq
  beacons : t.level = 1 → ∀ id, t.Other id → ∀ freq,
    t.after.buffered id freq = t.before.buffered id freq ∨
      ∃ m : WireMessage, m.header.msgType = kMsgTypeBeacon ∧ t.after.buffered id freq =
        t.before.buffered id freq ++ bytesToSamples P.format m.bytes

end EmconStep

namespace RadioNode

/-- No ciphertext of the plaintext is returned, or no frequency for it. -/
def Mute (n : RadioNode σ κ Q) (plaintext : Bytes) : Prop :=
  (∀ encrypted, (KeyManager.encryptWithTek P.hsm plaintext n.keyMgr).2 ≠ .ok (some encrypted)) ∨
    ∀ hopSeq freq, n.hopSeq = some hopSeq →
      hopSeq.getHopFrequency P.aes 0 n.frameNumber 0 ≠ .ok freq

end RadioNode

namespace EmconStep

/-- At level 0 frames are run only by an idle node, and at levels 0 and 1 data and voice are
sent only by a node that is idle or without keys, or whose codec, HSM or cipher fails. -/
def Meets (t : EmconStep S σ κ Q) : Prop :=
  match t.call with
  | .node (.tick _) => t.level = 0 → t.state.node.state = .idle
  | .node (.sendData _ payload) => t.level = 0 ∨ t.level = 1 →
    t.state.node.state = .idle ∨ t.state.node.keyMgr.isInitialized = false ∨
      t.state.node.Mute P payload
  | .node (.voiceTx _ audio) => t.level = 0 ∨ t.level = 1 →
    t.state.node.state = .idle ∨ t.state.node.keyMgr.isInitialized = false ∨
      ∀ encoded, (t.state.node.voiceCodec.encode P.codec2 audio).2 = .ok encoded →
        t.state.node.Mute P encoded
  | _ => True

/-- What the call sends would be heard: there is another radio, and no partition. -/
def Heard (t : EmconStep S σ κ Q) : Prop := (∃ id, t.Other id) ∧ t.before.drops = false

end EmconStep
end Calls

section Steps
variable {S σ κ Q : Type} {P : Platform S σ κ} {shutdown : σ → σ}

theorem sealed_eq_none_iff (msgType : UInt8) (dest : UInt32) (plaintext : Bytes)
    (n : RadioNode σ κ Q) : n.sealed P msgType dest plaintext = none ↔ n.Mute P plaintext := by
  unfold RadioNode.sealed RadioNode.Mute
  rcases (KeyManager.encryptWithTek P.hsm plaintext n.keyMgr).2 with e | _ | encrypted
  · simp
  · simp
  · cases hseq : n.hopSeq with
    | none => simp
    | some hopSeq =>
      cases hfreq : hopSeq.getHopFrequency P.aes 0 n.frameNumber 0 with
      | error e =>
        refine ⟨fun _ => .inr ?_, fun _ => by simp only [hfreq]⟩
        rintro _ freq h
        cases h
        rw [hfreq]
        exact nofun
      | ok freq => simp [hfreq]

theorem onAir_voiceTx_eq_none_iff (dest : UInt32) (audio : List Int16) (n : RadioNode σ κ Q) :
    n.onAir P (.voiceTx dest audio) = none ↔ n.state = .idle ∨
      n.keyMgr.isInitialized = false ∨ ∀ encoded,
        (n.voiceCodec.encode P.codec2 audio).2 = .ok encoded → n.Mute P encoded := by
  rw [← or_assoc]
  by_cases hmute : n.state = .idle ∨ n.keyMgr.isInitialized = false
  · simp [RadioNode.onAir, hmute]
  · rw [or_iff_right hmute]
    simp only [RadioNode.onAir, if_neg hmute]
    rcases (n.voiceCodec.encode P.codec2 audio).2 with e | encoded
    · simp
    · simp only [sealed_eq_none_iff, Except.ok.injEq, forall_eq']

theorem onAir_sendData_eq_none_iff (dest : UInt32) (payload : Bytes) (n : RadioNode σ κ Q) :
    n.onAir P (.sendData dest payload) = none ↔ n.state = .idle ∨
      n.keyMgr.isInitialized = false ∨ n.Mute P payload := by
  rw [← or_assoc]
  by_cases hmute : n.state = .idle ∨ n.keyMgr.isInitialized = false
  · simp [RadioNode.onAir, hmute]
  · rw [or_iff_right hmute]
    simp only [RadioNode.onAir, if_neg hmute, sealed_eq_none_iff]

/-- The condition is that nothing is sent, or at level 1 nothing but the beacon of a frame. -/
theorem EmconStep.meets_iff (t : EmconStep S σ κ Q) :
    t.Meets P ↔ ∀ call, t.call = .node call → (t.level = 0 → t.state.node.onAir P call = none) ∧
      (t.level = 1 → t.state.node.onAir P call = none ∨ ∃ now, call = .tick now) := by
  unfold Meets
  rcases t.call with call | _ | _ | _
  · simp only [EmconCall.node.injEq, forall_eq']
    cases call with
    | tick now => simp [RadioNode.onAir]
    | sendData dest payload =>
      simp only [onAir_sendData_eq_none_iff, reduceCtorEq, exists_false, or_false, ← or_imp]
    | voiceTx dest audio =>
      simp only [onAir_voiceTx_eq_none_iff, reduceCtorEq, exists_false, or_false, ← or_imp]
    | provisionKeys tek fhek => simp [RadioNode.onAir]
    | start => simp [RadioNode.onAir]
    | receiveData => simp [RadioNode.onAir]
    | voiceRx => simp [RadioNode.onAir]
  all_goals simp

/-- What is sent is a beacon in a frame, and data or voice in the other calls. -/
theorem onAir_eq_some {n : RadioNode σ κ Q} {call : NodeCall} {freq : Frequency}
    {hdr : MessageHeader} {payload : Bytes} (h : n.onAir P call = some (freq, hdr, payload)) :
    n.state ≠ .idle ∧ ((∃ now, call = .tick now) ∧ hdr = n.beaconHeader ∧
      payload = n.beaconPayload ∨ hdr.msgType = kMsgTypeData ∨ hdr.msgType = kMsgTypeVoice) := by
  have hsealed : ∀ {msgType dest plaintext}, n.sealed P msgType dest plaintext =
      some (freq, hdr, payload) → hdr.msgType = msgType := by
    intro msgType dest plaintext h
    unfold RadioNode.sealed at h
    split at h
    · split at h
      · cases h
      · cases h
        rfl
    · cases h
  cases call with
  | tick now =>
    by_cases hidle : n.state = .idle
    · simp [RadioNode.onAir, hidle] at h
    · simp only [RadioNode.onAir, if_neg hidle] at h
      cases h
      exact ⟨hidle, .inl ⟨⟨now, rfl⟩, rfl, rfl⟩⟩
  | sendData dest data =>
    by_cases hmute : n.state = .idle ∨ n.keyMgr.isInitialized = false
    · simp [RadioNode.onAir, hmute] at h
    · simp only [RadioNode.onAir, if_neg hmute] at h
      exact ⟨fun hidle => hmute (.inl hidle), .inr (.inl (hsealed h))⟩
  | voiceTx dest audio =>
    by_cases hmute : n.state = .idle ∨ n.keyMgr.isInitialized = false
    · simp [RadioNode.onAir, hmute] at h
    · simp only [RadioNode.onAir, if_neg hmute] at h
      split at h
      · cases h
      · exact ⟨fun hidle => hmute (.inl hidle), .inr (.inr (hsealed h))⟩
  | provisionKeys tek fhek => cases h
  | start => cases h
  | receiveData => cases h
  | voiceRx => cases h

theorem carried_eq_self {n : RadioNode σ κ Q} {c : SimChannel S} {freq : Frequency}
    {hdr : MessageHeader} {payload : Bytes} (htx : n.radio.txEnabled = true)
    (hdrops : c.drops = false) :
    n.carried c freq (some (freq, hdr, payload)) = serializeHeader hdr ++ payload :=
  if_pos ⟨htx, hdrops, rfl⟩

/-- A call that sends nothing, or is a frame, carries at most a beacon. -/
theorem RadioNode.carries_beacon {n : RadioNode σ κ Q} {call : NodeCall}
    (h : n.onAir P call = none ∨ ∃ now, call = .tick now) (c : SimChannel S)
    (freq : Frequency) :
    n.carried c freq (n.onAir P call) = [] ∨ ∃ m : WireMessage,
      m.header.msgType = kMsgTypeBeacon ∧ n.carried c freq (n.onAir P call) = m.bytes := by
  rcases h with hnone | ⟨now, rfl⟩
  · rw [hnone]
    exact .inl rfl
  · by_cases hidle : n.state = .idle
    · simp only [RadioNode.onAir, if_pos hidle]
      exact .inl rfl
    · simp only [RadioNode.onAir, if_neg hidle, RadioNode.carried]
      split
      · exact .inr ⟨⟨n.beaconHeader, n.beaconPayload, rfl⟩, rfl, rfl⟩
      · exact .inl rfl

/-- Where it would be heard, a call that carries at most a beacon sends nothing or is a
frame. -/
theorem RadioNode.of_carries_beacon {n : RadioNode σ κ Q} {call : NodeCall}
    {c : SimChannel S} (htx : n.state ≠ .idle → n.radio.txEnabled = true)
    (hdrops : c.drops = false)
    (h : ∀ freq, n.carried c freq (n.onAir P call) = [] ∨ ∃ m : WireMessage,
      m.header.msgType = kMsgTypeBeacon ∧ n.carried c freq (n.onAir P call) = m.bytes) :
    n.onAir P call = none ∨ ∃ now, call = .tick now := by
  cases hair : n.onAir P call with
  | none => exact .inl rfl
  | some message =>
    obtain ⟨freq, hdr, payload⟩ := message
    obtain ⟨hstarted, hkind⟩ := onAir_eq_some hair
    have hfreq := h freq
    rw [hair, carried_eq_self (htx hstarted) hdrops] at hfreq
    rcases hfreq with hempty | ⟨m, hm, hbytes⟩
    · cases hempty
    · -- what was sent is a beacon, so the call is a frame
      have htype : hdr.msgType = kMsgTypeBeacon := by
        rw [← hm]
        exact (List.cons.inj hbytes).1
      rcases hkind with ⟨htick, -⟩ | hdata | hvoice
      · exact .inr htick
      · rw [hdata] at htype
        cases htype
      · rw [hvoice] at htype
        cases htype

/-- What the queue of another radio shows of the bytes that were carried. -/
theorem beaconOnly_iff {format : SampleFormat S} {queue later : List S} {data : Bytes}
    (h : later = queue ++ bytesToSamples format data) :
    (later = queue ∨ ∃ m : WireMessage, m.header.msgType = kMsgTypeBeacon ∧
      later = queue ++ bytesToSamples format m.bytes) ↔
    (data = [] ∨ ∃ m : WireMessage, m.header.msgType = kMsgTypeBeacon ∧ data = m.bytes) := by
  have hinj : ∀ data', later = queue ++ bytesToSamples format data' ↔ data = data' := by
    intro data'
    constructor
    · intro heq
      rw [h, List.append_cancel_left_eq] at heq
      rw [← samplesToBytes_bytesToSamples format data, heq, samplesToBytes_bytesToSamples]
    · rintro rfl
      exact h
  have hempty := hinj []
  rw [show bytesToSamples format [] = [] from rfl, List.append_nil] at hempty
  simp only [hempty, hinj]

section Run
variable [LT Q] [DecidableLT Q] [One Q] [Mul Q] [Zero Q]

theorem RadioNode.call_carried {limit : ℕ} {n n' : RadioNode σ κ Q} {c c' : SimChannel S}
    {call : NodeCall} (h : n.call P limit c call = some (n', c')) {id : UInt32}
    (hne : id ≠ n.radio.radioId) (hid : c.registeredRadios.count id = 1) (freq : Frequency) :
    c'.buffered id freq = c.buffered id freq ++
      bytesToSamples P.format (n.carried c freq (n.onAir P call)) := by
  rw [(call_channel h).buffered id hne freq, putOnAir_buffered _ _ _ _ hne hid]

/-- A call of the node changes another radio's queue by what it carries; the other calls
change none. -/
theorem EmconNode.call_buffered {limit : ℕ} {s s' : EmconNode σ κ Q} {c c' : SimChannel S}
    {call : EmconCall} (h : s.call P shutdown limit c call = some (s', c')) :
    (∃ nodeCall, call = .node nodeCall ∧
      ∀ id, id ≠ s.node.radio.radioId → c.registeredRadios.count id = 1 → ∀ freq,
        c'.buffered id freq = c.buffered id freq ++ bytesToSamples P.format
          (s.node.carried c freq (s.node.onAir P nodeCall))) ∨
      (∀ nodeCall, call ≠ .node nodeCall) ∧ c' = c := by
  cases call with
  | node nodeCall =>
    left
    refine ⟨nodeCall, rfl, fun id hne hid freq => ?_⟩
    obtain ⟨⟨n', c₁⟩, hcall, heq⟩ := Option.map_eq_some_iff.mp h
    cases heq
    exact call_carried hcall hne hid freq
  | setLevel level unlock => cases h; exact .inr ⟨nofun, rfl⟩
  | cliExecute input => cases h; exact .inr ⟨nofun, rfl⟩
  | zeroizeImmediate => cases h; exact .inr ⟨nofun, rfl⟩

theorem EmconNode.call_txEnabled {limit : ℕ} {s s' : EmconNode σ κ Q} {c c' : SimChannel S}
    {call : EmconCall} (h : s.call P shutdown limit c call = some (s', c'))
    (htx : s.node.state ≠ .idle → s.node.radio.txEnabled = true) :
    s'.node.state ≠ .idle → s'.node.radio.txEnabled = true := by
  cases call with
  | node nodeCall =>
    obtain ⟨⟨n', c₁⟩, hcall, heq⟩ := Option.map_eq_some_iff.mp h
    cases heq
    exact (call_stationed hcall).txEnabled htx
  | setLevel level unlock => cases h; exact htx
  | cliExecute input => cases h; exact htx
  | zeroizeImmediate =>
    cases h
    unfold zeroizeImmediate
    split
    · exact htx
    · exact htx

/-- What is true of a step of a run. -/
structure EmconStep.Taken (P : Platform S σ κ) (shutdown : σ → σ) (t : EmconStep S σ κ Q) :
    Prop where
  call : ∃ limit s', t.state.call P shutdown limit t.before t.call = some (s', t.after)
  txEnabled : t.state.node.state ≠ .idle → t.state.node.radio.txEnabled = true

theorem EmconRun.taken {steps : List (EmconStep S σ κ Q)} {s : EmconNode σ κ Q}
    {c : SimChannel S} (h : EmconRun P shutdown steps s c) :
    (s.node.state ≠ .idle → s.node.radio.txEnabled = true) ∧
      ∀ t ∈ steps, t.Taken P shutdown := by
  induction h with
  | new id hsm ikHandle c =>
    exact ⟨fun hidle => (hidle rfl).elim, fun t ht => (List.not_mem_nil ht).elim⟩
  | others c' _ ih => exact ih
  | @call steps s s' c c' limit call _ hcall ih =>
    refine ⟨EmconNode.call_txEnabled hcall ih.1, fun t ht => ?_⟩
    rcases List.mem_append.mp ht with ht | ht
    · exact ih.2 t ht
    · rw [List.mem_singleton.mp ht]
      exact ⟨⟨limit, s', hcall⟩, ih.1⟩

theorem EmconStep.Taken.obeys {t : EmconStep S σ κ Q} (h : t.Taken P shutdown)
    (hmeets : t.Meets P) : t.Obeys P := by
  rw [meets_iff] at hmeets
  obtain ⟨limit, s', hcall⟩ := h.call
  rcases EmconNode.call_buffered hcall with ⟨call, hnode, hbuffered⟩ | ⟨-, heq⟩
  · obtain ⟨hsilent, hbeacons⟩ := hmeets call hnode
    refine ⟨fun hlevel id hother freq => ?_, fun hlevel id hother freq => ?_⟩
    · rw [hbuffered id hother.1 hother.2, hsilent hlevel]
      exact List.append_nil _
    · rw [beaconOnly_iff (hbuffered id hother.1 hother.2 freq)]
      exact carries_beacon (hbeacons hlevel) t.before freq
  · exact ⟨fun _ id _ freq => congrArg (fun c : SimChannel S => c.buffered id freq) heq,
      fun _ id _ freq => .inl (congrArg (fun c : SimChannel S => c.buffered id freq) heq)⟩

/-- Where it is heard, a step that obeys the level meets the condition. -/
theorem EmconStep.Taken.meets {t : EmconStep S σ κ Q} (h : t.Taken P shutdown)
    (hheard : t.Heard) (hobeys : t.Obeys P) : t.Meets P := by
  rw [meets_iff]
  intro call hnode
  obtain ⟨limit, s', hcall⟩ := h.call
  obtain ⟨⟨id, hother⟩, hdrops⟩ := hheard
  rcases EmconNode.call_buffered hcall with ⟨call', hnode', hbuffered⟩ | ⟨hno, -⟩
  · rw [hnode] at hnode'
    cases hnode'
    refine ⟨fun hlevel => ?_, fun hlevel => ?_⟩
    · cases hair : t.state.node.onAir P call with
      | none => rfl
      | some message =>
        obtain ⟨freq, hdr, payload⟩ := message
        have hgot := hbuffered id hother.1 hother.2 freq
        rw [hair, carried_eq_self (h.txEnabled (onAir_eq_some hair).1) hdrops,
          hobeys.silent hlevel id hother freq, List.self_eq_append_right] at hgot
        cases hgot
    · refine of_carries_beacon h.txEnabled hdrops fun freq => ?_
      rw [← beaconOnly_iff (hbuffered id hother.1 hother.2 freq)]
      exact hobeys.beacons hlevel id hother freq
  · exact (hno call hnode).elim

/-- When every call meets the condition, the node obeys its level in all of them. Where
what it sends is heard, it obeys only then. -/
theorem radioSilence_iff_meets {steps : List (EmconStep S σ κ Q)} {s : EmconNode σ κ Q}
    {c : SimChannel S} (h : EmconRun P shutdown steps s c) :
    ((∀ t ∈ steps, t.Meets P) → ∀ t ∈ steps, t.Obeys P) ∧
      ((∀ t ∈ steps, t.Heard) →
        ((∀ t ∈ steps, t.Obeys P) ↔ ∀ t ∈ steps, t.Meets P)) := by
  have hobeys : (∀ t ∈ steps, t.Meets P) → ∀ t ∈ steps, t.Obeys P :=
    fun hmeets t ht => (h.taken.2 t ht).obeys (hmeets t ht)
  refine ⟨hobeys, fun hheard => ⟨fun hall t ht => ?_, hobeys⟩⟩
  exact (h.taken.2 t ht).meets (hheard t ht) (hall t ht)

end Run

end Steps

/-- At level 0 a node puts nothing on the channel, and at level 1 only beacons. -/
def RadioSilence : Prop :=
  ∀ (S σ κ Q : Type) [LT Q] [DecidableLT Q] [One Q] [Mul Q] [Zero Q] (P : Platform S σ κ)
    (shutdown : σ → σ) (steps : List (EmconStep S σ κ Q)) (s : EmconNode σ κ Q)
    (c : SimChannel S), EmconRun P shutdown steps s c → ∀ t ∈ steps, t.Obeys P

abbrev SampleStep := EmconStep UInt8 (List (Option Bytes)) Unit MeshRouter.Percent

abbrev SampleEmconNode := EmconNode (List (Option Bytes)) Unit MeshRouter.Percent

/-- A channel with the radios 1 and 2. -/
def sharedChannel : SimChannel UInt8 := SimChannel.new.registerRadio.1.registerRadio.1

def unkeyedNode : SampleEmconNode := (EmconNode.new samplePlatform 1 [] 1 SimChannel.new).2

def keyedNode : SampleEmconNode :=
  { unkeyedNode with
    node := unkeyedNode.node.provisionKeys (List.replicate 32 0xAA) (List.replicate 32 0xBB) }

def startedNode : SampleEmconNode := { unkeyedNode with node := sampleNode 1 }

def levelNode (level : Int) : SampleEmconNode :=
  { startedNode with
    emcon := (EmconManager.setLevel nullAxiRegs level false startedNode.emcon).1 }

/-- Node 1 is started, and its level is set. -/
def levelSteps (level : Int) : List SampleStep :=
  [⟨.node (.provisionKeys (List.replicate 32 0xAA) (List.replicate 32 0xBB)), unkeyedNode,
      sharedChannel, sharedChannel⟩,
    ⟨.node .start, keyedNode, sharedChannel, sharedChannel⟩,
    ⟨.setLevel level false, startedNode, sharedChannel, sharedChannel⟩]

theorem levelSteps_run (level : Int) :
    EmconRun samplePlatform (fun s => s) (levelSteps level) (levelNode level) sharedChannel := by
  have h₀ : EmconRun samplePlatform (fun s => s) [] unkeyedNode sharedChannel :=
    .others sharedChannel (.new 1 [] 1 SimChannel.new)
  have hkeys : unkeyedNode.call samplePlatform (fun s => s) 0 sharedChannel
      (.node (.provisionKeys (List.replicate 32 0xAA) (List.replicate 32 0xBB))) =
      some (keyedNode, sharedChannel) := rfl
  have hstart : keyedNode.call samplePlatform (fun s => s) 0 sharedChannel (.node .start) =
      some (startedNode, sharedChannel) := rfl
  have hset : startedNode.call samplePlatform (fun s => s) 0 sharedChannel
      (.setLevel level false) = some (levelNode level, sharedChannel) := rfl
  exact ((h₀.call hkeys).call hstart).call hset

theorem exists_levelFrame (level : Int) : ∃ (t : SampleStep) (s : SampleEmconNode)
    (c : SimChannel UInt8), EmconRun samplePlatform (fun s => s) (levelSteps level ++ [t]) s c ∧
      t.call = .node (.tick 0) ∧ t.state = levelNode level ∧ t.before = sharedChannel := by
  obtain ⟨n', c', result, ⟨limit, hlimit⟩, -, -⟩ := tick_spec samplePlatform_decrypts
    samplePlatform_aes ((sampleNode_reachable 1).sound samplePlatform_decrypts
      samplePlatform_aes) (by decide) 0 sharedChannel
  have h : (sampleNode 1).tick samplePlatform limit 0 sharedChannel = some (n', c', result) :=
    hlimit limit (Nat.le_refl limit)
  have htick : (levelNode level).call samplePlatform (fun s => s) limit sharedChannel
      (.node (.tick 0)) = some ({ levelNode level with node := n' }, c') := by
    simp only [EmconNode.call, RadioNode.call, levelNode, startedNode, h, Option.map_some]
  exact ⟨_, _, _, (levelSteps_run level).call htick, rfl, rfl, rfl⟩

/-- At level 1 a frame obeys. -/
theorem radioSilence_iff_meets_beacon : ∃ (steps : List SampleStep) (s : SampleEmconNode)
    (c : SimChannel UInt8), EmconRun samplePlatform (fun s => s) steps s c ∧
      (∃ t ∈ steps, t.call = .node (.tick 0) ∧ t.level = 1 ∧ t.state.node.state ≠ .idle) ∧
      ∀ t ∈ steps, t.Obeys samplePlatform := by
  obtain ⟨t, s, c, hrun, hcall, hstate, -⟩ := exists_levelFrame 1
  have hlevel : t.level = 1 := by
    rw [EmconStep.level, hstate]
    decide
  have hstarted : t.state.node.state ≠ .idle := by
    rw [hstate]
    decide
  refine ⟨_, s, c, hrun, ⟨t, List.mem_append_right _ List.mem_cons_self, hcall, hlevel,
    hstarted⟩, (radioSilence_iff_meets hrun).1 fun t' ht' => ?_⟩
  rcases List.mem_append.mp ht' with ht' | ht'
  · simp only [levelSteps, List.mem_cons, List.not_mem_nil, or_false] at ht'
    rcases ht' with rfl | rfl | rfl
    · trivial
    · trivial
    · trivial
  · rw [List.mem_singleton.mp ht', EmconStep.Meets, hcall]
    intro hsilent
    rw [hlevel] at hsilent
    cases hsilent

/-- At level 0 a frame still puts its beacon on the channel. -/
theorem not_radioSilence : ¬ RadioSilence := by
  intro h
  obtain ⟨t, s, c, hrun, hcall, hstate, hbefore⟩ := exists_levelFrame 0
  have ht : t ∈ levelSteps 0 ++ [t] := List.mem_append_right _ List.mem_cons_self
  have hheard : t.Heard := by
    rw [EmconStep.Heard, hbefore]
    refine ⟨⟨2, ?_⟩, rfl⟩
    rw [EmconStep.Other, hbefore, hstate]
    decide
  have hmeets := (hrun.taken.2 t ht).meets hheard (h _ _ _ _ _ _ _ s c hrun t ht)
  rw [EmconStep.Meets, hcall] at hmeets
  have hidle := hmeets (by rw [EmconStep.level, hstate]; decide)
  rw [hstate] at hidle
  cases hidle

end Cirradio.Node
