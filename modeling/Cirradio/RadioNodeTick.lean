import Cirradio.LinkStateFlooding
import Cirradio.RadioNode

/-!
# A frame of the radio node

A frame ends normally unless a voice message is read whose payload decrypts to anything
but one codec frame: the decoder throws, and the frame and the scheduler stay where they
are.
-/

namespace Cirradio.Node
open Security Hal Network Tdma Voice Fhss WhileLoops

/-- Decryption returns, and leaves the engine as it is. -/
def DecryptsPurely {σ : Type} (E : IHsmEngine σ) : Prop :=
  ∀ s h ciphertext, ∃ plaintext, E.decrypt s h ciphertext = (s, .ok plaintext)

/-- The cipher takes every key of 32 bytes. -/
def AesReturns (aes : AesEcb) : Prop :=
  ∀ key block, key.length = 32 → ∃ output, aes key block = .ok output

/-- What decrypts under a key is a result of encrypting the plaintext under that key. -/
def IdealAead {σ : Type} {E : IHsmEngine σ} (K : KeyObjects E) : Prop :=
  ∀ s h ciphertext plaintext, (E.decrypt s h ciphertext).2 = .ok (some plaintext) →
    ∃ s' h', K.key s' h' = K.key s h ∧ (E.encrypt s' h' plaintext).2 = .ok (some ciphertext)

section Samples
variable {S : Type}

theorem samplesToBytes_bytesToSamples (format : SampleFormat S) (data : Bytes) :
    samplesToBytes format (bytesToSamples format data) = data := by
  unfold samplesToBytes bytesToSamples
  rw [List.map_map]
  conv_rhs => rw [← List.map_id data]
  apply List.map_congr_left
  intro b _
  have hb : b.toNat < 256 := b.toNat_lt
  have hclamp : max (0 : ℤ) (min (b.toNat : ℤ) 255) = b.toNat := by omega
  rw [Function.comp_apply, format.roundReal_ofByte, hclamp, Int.toNat_natCast, id]
  exact UInt8.ofNat_toNat

theorem samplesToBytes_take (format : SampleFormat S) (data : Bytes) (n : ℕ) :
    samplesToBytes format ((bytesToSamples format data).take n) = data.take n := by
  have h : (bytesToSamples format data).take n = bytesToSamples format (data.take n) :=
    List.map_take.symm
  rw [h, samplesToBytes_bytesToSamples]

end Samples

namespace RadioNode
variable {S σ κ Q : Type}

/-- The payload decrypts to something else than one codec frame. -/
def Undecodable (P : Platform S σ κ) (n : RadioNode σ κ Q) (payload : Bytes) : Prop :=
  n.keyMgr.isInitialized = true ∧ ∃ plaintext,
    (KeyManager.decryptWithTek P.hsm payload n.keyMgr).2 = .ok (some plaintext) ∧
      intOfSize plaintext.length ≠ P.codec2.bytesPerFrame

/-- A voice message for this node that cannot be decoded. -/
def VoiceFault (P : Platform S σ κ) (n : RadioNode σ κ Q) (m : MessageHeader × Bytes) : Prop :=
  m.1.msgType = kMsgTypeVoice ∧ n.addressed m.1 = true ∧ n.Undecodable P m.2

/-- What visiting messages leaves alone. -/
structure Keeps (n n' : RadioNode σ κ Q) : Prop where
  id : n'.id = n.id
  keyMgr : n'.keyMgr = n.keyMgr
  frameNumber : n'.frameNumber = n.frameNumber
  scheduler : n'.scheduler = n.scheduler
  hopSeq : n'.hopSeq = n.hopSeq
  radioId : n'.radio.radioId = n.radio.radioId
  own : n.router.Own → n'.router.Own

theorem Keeps.refl (n : RadioNode σ κ Q) : Keeps n n := ⟨rfl, rfl, rfl, rfl, rfl, rfl, fun h => h⟩

theorem Keeps.trans {n n' n'' : RadioNode σ κ Q} (h : Keeps n n') (h' : Keeps n' n'') :
    Keeps n n'' where
  id := h'.id.trans h.id
  keyMgr := h'.keyMgr.trans h.keyMgr
  frameNumber := h'.frameNumber.trans h.frameNumber
  scheduler := h'.scheduler.trans h.scheduler
  hopSeq := h'.hopSeq.trans h.hopSeq
  radioId := h'.radioId.trans h.radioId
  own := fun hown => h'.own (h.own hown)

theorem Keeps.voiceFault_iff {P : Platform S σ κ} {n n' : RadioNode σ κ Q} (h : Keeps n n')
    (m : MessageHeader × Bytes) : VoiceFault P n' m ↔ VoiceFault P n m := by
  unfold VoiceFault Undecodable addressed
  rw [h.id, h.keyMgr]

section Opening
variable {P : Platform S σ κ} (hdec : DecryptsPurely P.hsm)
include hdec

theorem decryptWithTek_pure {m : KeyManager σ} (hinit : m.isInitialized = true)
    (payload : Bytes) :
    ∃ plaintext, KeyManager.decryptWithTek P.hsm payload m = (m, .ok plaintext) := by
  unfold KeyManager.isInitialized at hinit
  unfold KeyManager.decryptWithTek
  cases htek : m.tek with
  | none => simp [htek] at hinit
  | some tek =>
    obtain ⟨plaintext, hplaintext⟩ := hdec m.hsm tek payload
    refine ⟨plaintext, ?_⟩
    simp only [hplaintext]
    rw [← htek]

theorem openData_ok (n : RadioNode σ κ Q) (hdr : MessageHeader) (payload : Bytes) :
    ∃ n', n.openData P hdr payload = (n', .ok ()) ∧ Keeps n n' := by
  unfold openData
  by_cases hinit : n.keyMgr.isInitialized = true
  · obtain ⟨plaintext, hplaintext⟩ := decryptWithTek_pure hdec hinit payload
    rw [if_pos hinit, hplaintext]
    cases plaintext with
    | none => exact ⟨_, rfl, .refl n⟩
    | some plaintext =>
      exact ⟨_, rfl, ⟨rfl, rfl, rfl, rfl, rfl, rfl, fun h => h⟩⟩
  · rw [if_neg hinit]
    exact ⟨n, rfl, .refl n⟩

/-- Opening a voice message throws exactly when it cannot be decoded. -/
theorem openVoice_spec (n : RadioNode σ κ Q) (hdr : MessageHeader) (payload : Bytes) :
    ∃ n' result, n.openVoice P hdr payload = (n', result) ∧ Keeps n n' ∧
      (result = .ok () ↔ ¬ n.Undecodable P payload) := by
  unfold openVoice Undecodable
  by_cases hinit : n.keyMgr.isInitialized = true
  · obtain ⟨plaintext, hplaintext⟩ := decryptWithTek_pure hdec hinit payload
    rw [if_pos hinit, hplaintext]
    cases plaintext with
    | none => exact ⟨_, _, rfl, .refl n, by simp⟩
    | some plaintext =>
      by_cases hframe : intOfSize plaintext.length = P.codec2.bytesPerFrame
      · have hdecode : n.voiceCodec.decode P.codec2 plaintext =
            (⟨(P.codec2.decode n.voiceCodec.codec2 plaintext).1⟩,
              .ok (P.codec2.decode n.voiceCodec.codec2 plaintext).2) :=
          if_neg (not_not.mpr hframe)
        simp only [hdecode]
        refine ⟨_, _, rfl, ⟨rfl, rfl, rfl, rfl, rfl, rfl, fun h => h⟩, ?_⟩
        simp [hframe]
      · have hdecode : n.voiceCodec.decode P.codec2 plaintext =
            (n.voiceCodec, .error "Input data size does not match expected frame bytes") :=
          if_pos hframe
        simp only [hdecode]
        refine ⟨_, _, rfl, ⟨rfl, rfl, rfl, rfl, rfl, rfl, fun h => h⟩, ?_⟩
        simp [hinit, hframe]
  · rw [if_neg hinit]
    exact ⟨n, _, rfl, .refl n, by simp [hinit]⟩

end Opening

/-- What a visit does: it keeps the node, and throws exactly at a voice fault. -/
def VisitSpec (P : Platform S σ κ) (onMessage : ℕ → OnMessage (RadioNode σ κ Q)) : Prop :=
  ∀ (m : MessageHeader × Bytes) (n : RadioNode σ κ Q), n.router.Own →
    ∃ n' result, Returns (fun limit => onMessage limit m.1 m.2 n) (n', result) ∧ Keeps n n' ∧
      (result = .ok () ↔ ¬ VoiceFault P n m)

/-- Visiting messages ends normally exactly when none of them is a voice fault. -/
theorem VisitSpec.visits {P : Platform S σ κ} {onMessage : ℕ → OnMessage (RadioNode σ κ Q)}
    (h : VisitSpec P onMessage) (ms : List (MessageHeader × Bytes)) {n : RadioNode σ κ Q}
    (hown : n.router.Own) :
    ∃ n' result, Visits onMessage ms n (n', result) ∧ Keeps n n' ∧
      (result = .ok () ↔ ∀ m ∈ ms, ¬ VoiceFault P n m) := by
  induction ms generalizing n with
  | nil => exact ⟨n, .ok (), .done n, .refl n, by simp⟩
  | cons m ms ih =>
    obtain ⟨n₁, result, hreturns, hkeeps, hiff⟩ := h m n hown
    cases result with
    | error e =>
      refine ⟨n₁, .error e, .throws ms hreturns, hkeeps, ?_⟩
      constructor
      · intro hok
        cases hok
      · intro hall
        cases hiff.mpr (hall m List.mem_cons_self)
    | ok u =>
      cases u
      obtain ⟨n', result', hvisits, hkeeps', hiff'⟩ := ih (hkeeps.own hown)
      refine ⟨n', result', .next hreturns hvisits, hkeeps.trans hkeeps', ?_⟩
      rw [hiff', List.forall_mem_cons]
      simp only [hkeeps.voiceFault_iff]
      exact ⟨fun h => ⟨hiff.mp rfl, h⟩, fun h => h.2⟩

theorem onHopMessage_result {P : Platform S σ κ} (hdec : DecryptsPurely P.hsm)
    (n : RadioNode σ κ Q) (hdr : MessageHeader) (payload : Bytes) :
    ∃ n' result, n.onHopMessage P hdr payload = (n', result) ∧ Keeps n n' ∧
      (result = .ok () ↔ ¬ VoiceFault P n (hdr, payload)) := by
  have hskip : ¬ (hdr.msgType = kMsgTypeVoice ∧ n.addressed hdr = true) →
      ¬ VoiceFault P n (hdr, payload) := fun h hfault => h ⟨hfault.1, hfault.2.1⟩
  unfold onHopMessage
  by_cases hdata : (hdr.msgType == kMsgTypeData && n.addressed hdr) = true
  · have hvoice : ¬ (hdr.msgType = kMsgTypeVoice ∧ n.addressed hdr = true) := by
      rintro ⟨htype, -⟩
      rw [htype] at hdata
      cases hdata
    obtain ⟨n', hopen, hkeeps⟩ := openData_ok hdec n hdr payload
    rw [if_pos hdata]
    exact ⟨n', .ok (), hopen, hkeeps, by simp [hskip hvoice]⟩
  · rw [if_neg hdata]
    by_cases hvoice : (hdr.msgType == kMsgTypeVoice && n.addressed hdr) = true
    · obtain ⟨n', result, hopen, hkeeps, hiff⟩ := openVoice_spec hdec n hdr payload
      rw [if_pos hvoice]
      refine ⟨n', result, hopen, hkeeps, hiff.trans (not_congr ?_)⟩
      rw [Bool.and_eq_true, beq_iff_eq] at hvoice
      exact ⟨fun h => ⟨hvoice.1, hvoice.2, h⟩, fun h => h.2.2⟩
    · rw [if_neg hvoice]
      rw [Bool.and_eq_true, beq_iff_eq] at hvoice
      exact ⟨n, .ok (), rfl, .refl n, by simp [hskip hvoice]⟩

theorem onHopMessage_spec {P : Platform S σ κ} (hdec : DecryptsPurely P.hsm) :
    VisitSpec (Q := Q) P fun _ hdr payload n => some (n.onHopMessage P hdr payload) := by
  rintro ⟨hdr, payload⟩ n -
  obtain ⟨n', result, hresult, hspec⟩ := onHopMessage_result hdec n hdr payload
  refine ⟨n', result, ?_, hspec⟩
  simp only [hresult]
  exact .pure _

/-- The bytes read on the discovery frequency. -/
def discoveryRead (P : Platform S σ κ) (n : RadioNode σ κ Q) (c : SimChannel S) : Bytes :=
  samplesToBytes P.format ((c.buffered n.radio.radioId kDiscoveryFreq).take kReadSize)

/-- The bytes read on the hop frequency. -/
def hopRead (P : Platform S σ κ) (n : RadioNode σ κ Q) (c : SimChannel S) : Bytes :=
  match n.hopSeq with
  | none => []
  | some hopSeq =>
    match hopSeq.getHopFrequency P.aes 0 n.frameNumber 0 with
    | .error _ => []
    | .ok freq => samplesToBytes P.format ((c.buffered n.radio.radioId freq).take kReadSize)

/-- The messages a frame reads: those of the discovery frequency, and then those of the
hop frequency, with what is left when the frequencies are the same. -/
def frameMessages (P : Platform S σ κ) (n : RadioNode σ κ Q) (c : SimChannel S) :
    List (MessageHeader × Bytes) :=
  messages (discoveryRead P n c) ++
    messages (hopRead P n (c.receive n.radio.radioId kDiscoveryFreq kReadSize).1)

/-- The frame has ended normally. -/
def Completes (n n' : RadioNode σ κ Q) (result : Throws Unit) : Prop :=
  result = .ok () ∧ n'.frameNumber = n.frameNumber + 1 ∧
    n'.scheduler.frame.frameNumber = n.scheduler.frame.frameNumber + 1

/-- What a started node keeps to. -/
structure Sound (n : RadioNode σ κ Q) : Prop where
  own : n.router.Own
  key : ∀ h, n.hopSeq = some h → h.fhek.length = 32

theorem Keeps.sound {n n' : RadioNode σ κ Q} (h : Keeps n n') (hn : n.Sound) : n'.Sound :=
  ⟨h.own hn.own, fun hopSeq heq => hn.key hopSeq (h.hopSeq.symm.trans heq)⟩

theorem samplesToBytes_take_length (format : SampleFormat S) (samples : List S) :
    (samplesToBytes format (samples.take kReadSize)).length + 13 + 2 ^ 32 ≤ 2 ^ 64 := by
  have hle : (samples.take kReadSize).length ≤ 4096 := by
    rw [List.length_take]
    exact Nat.min_le_left _ _
  unfold samplesToBytes
  rw [List.length_map]
  omega

theorem hopRead_congr {P : Platform S σ κ} {n n' : RadioNode σ κ Q} {c c' : SimChannel S}
    (hseq : n'.hopSeq = n.hopSeq) (hframe : n'.frameNumber = n.frameNumber)
    (hradio : n'.radio.radioId = n.radio.radioId)
    (hc : ∀ freq, c'.buffered n.radio.radioId freq = c.buffered n.radio.radioId freq) :
    hopRead P n' c' = hopRead P n c := by
  unfold hopRead
  rw [hseq, hframe, hradio]
  simp only [hc]

theorem receiveFromChannel_spec (P : Platform S σ κ) (n : RadioNode σ κ Q) (c : SimChannel S)
    (freq : Frequency) :
    ∃ n', n.receiveFromChannel P c freq = (n', (c.receive n.radio.radioId freq kReadSize).1,
      samplesToBytes P.format ((c.buffered n.radio.radioId freq).take kReadSize)) ∧
      Keeps n n' := by
  refine ⟨{ n with radio := n.radio.tune freq }, ?_,
    ⟨rfl, rfl, rfl, rfl, rfl, rfl, fun h => h⟩⟩
  rw [← SimChannel.receive_snd]
  rfl

theorem sendBeacon_spec (P : Platform S σ κ) (now : ℕ) (n : RadioNode σ κ Q)
    (c : SimChannel S) :
    ∃ n' c', n.sendBeacon P now c = (n', c') ∧ Keeps n n' ∧
      ∀ freq, c'.buffered n.radio.radioId freq = c.buffered n.radio.radioId freq :=
  ⟨_, _, rfl, ⟨rfl, rfl, rfl, rfl, rfl, rfl, fun h => h⟩,
    fun freq => SimRadioHal.buffered_transmit _ c _ freq⟩

theorem finishTick_spec {P : Platform S σ κ} (hdec : DecryptsPurely P.hsm)
    (haes : AesReturns P.aes) {n : RadioNode σ κ Q} (hn : n.Sound) (c : SimChannel S) :
    ∃ n' c' result, Returns (fun limit => n.finishTick P limit c) (n', c', result) ∧
      n'.Sound ∧
      (Completes n n' result ↔ ∀ m ∈ messages (hopRead P n c), ¬ VoiceFault P n m) := by
  cases hseq : n.hopSeq with
  | none =>
    refine ⟨n.advance, c, .ok (), ?_, ⟨hn.own, hn.key⟩, ?_⟩
    · unfold finishTick
      simp only [hseq]
      exact .pure _
    · have hnone : messages (hopRead P n c) = [] := by simp [hopRead, hseq]
      rw [hnone]
      exact ⟨fun _ m hm => (List.not_mem_nil hm).elim, fun _ => ⟨rfl, rfl, rfl⟩⟩
  | some hopSeq =>
    obtain ⟨freq, hfreq⟩ := HopSequencer.exists_getHopFrequency
      (fun block => haes hopSeq.fhek block (hn.key hopSeq hseq)) 0 n.frameNumber 0
    obtain ⟨n₁, hread, hkeeps⟩ := receiveFromChannel_spec P n c freq
    have hdata : samplesToBytes P.format ((c.buffered n.radio.radioId freq).take kReadSize) =
        hopRead P n c := by
      unfold hopRead
      rw [hseq]
      simp only [hfreq]
    have hsize := samplesToBytes_take_length P.format (c.buffered n.radio.radioId freq)
    rw [hdata] at hread hsize
    generalize (c.receive n.radio.radioId freq kReadSize).1 = c₁ at hread
    obtain ⟨n₂, result, hvisits, hkeeps', hiff⟩ :=
      (onHopMessage_spec hdec).visits (messages (hopRead P n c)) (hkeeps.own hn.own)
    have hkeeps₂ := hkeeps.trans hkeeps'
    simp only [hkeeps.voiceFault_iff] at hiff
    have hparse := hvisits.returns hsize
    cases result with
    | error e =>
      refine ⟨n₂, c₁, .error e, ?_, hkeeps₂.sound hn, ?_⟩
      · unfold finishTick
        simp only [hseq, hfreq, hread]
        exact hparse.bind (.pure _)
      · constructor
        · intro h
          cases h.1
        · intro h
          cases hiff.mpr h
    | ok u =>
      cases u
      refine ⟨n₂.advance, c₁, .ok (), ?_,
        ⟨(hkeeps₂.sound hn).own, (hkeeps₂.sound hn).key⟩, ?_⟩
      · unfold finishTick
        simp only [hseq, hfreq, hread]
        exact hparse.bind (.pure _)
      · refine ⟨fun _ => hiff.mp rfl, fun _ => ⟨rfl, ?_, ?_⟩⟩
        · change n₂.frameNumber + 1 = _
          rw [hkeeps₂.frameNumber]
        · change n₂.scheduler.frame.frameNumber + 1 = _
          rw [hkeeps₂.scheduler]

theorem onDiscoveryMessage_of_not_beacon [LT Q] [DecidableLT Q] [One Q] [Mul Q] [Zero Q]
    {P : Platform S σ κ} {limit now : ℕ} {hdr : MessageHeader} (payload : Bytes) (n : RadioNode σ κ Q)
    (h : ¬ (hdr.msgType == kMsgTypeBeacon && decide (9 ≤ hdr.payloadLen)) = true) :
    onDiscoveryMessage P limit now hdr payload n = some (n.onHopMessage P hdr payload) := by
  unfold onDiscoveryMessage onHopMessage
  rw [if_neg h]
  by_cases hto : n.addressed hdr = true
  · simp only [hto, if_true, Bool.and_true, ← apply_ite some]
  · simp only [hto, Bool.false_eq_true, if_false, ite_self, Bool.and_false]

section Tick
variable [Preorder Q] [WellFoundedGT Q] [DecidableLT Q] [One Q] [Mul Q] [Zero Q]

/-- A beacon is taken in without a throw. -/
theorem onBeacon_returns (now : ℕ) (payload : Bytes) {n : RadioNode σ κ Q}
    (hown : n.router.Own) :
    ∃ n', Returns (fun limit => n.onBeacon limit now payload) (n', .ok ()) ∧ Keeps n n' := by
  unfold onBeacon
  rcases hbeacon : n.discovery.processBeacon
    ⟨decodeU32 payload, decodeU32 (payload.drop 4), payload.getD 8 0, now⟩ with
    ⟨discovery, isNew⟩
  simp only [hbeacon]
  cases isNew with
  | false =>
    exact ⟨_, .pure _, ⟨rfl, rfl, rfl, rfl, rfl, rfl, fun h => h⟩⟩
  | true =>
    obtain ⟨router, hreturns, hrouter, -⟩ :=
      hown.exists_returns_change (.updateNeighbor (decodeU32 payload) 1)
    exact ⟨_, hreturns.bind (.pure _), ⟨rfl, rfl, rfl, rfl, rfl, rfl, fun _ => hrouter⟩⟩

theorem onDiscoveryMessage_spec {P : Platform S σ κ} (hdec : DecryptsPurely P.hsm) (now : ℕ) :
    VisitSpec (Q := Q) P fun limit => onDiscoveryMessage P limit now := by
  rintro ⟨hdr, payload⟩ n hown
  have hskip : ¬ (hdr.msgType = kMsgTypeVoice ∧ n.addressed hdr = true) →
      ¬ VoiceFault P n (hdr, payload) := fun h hfault => h ⟨hfault.1, hfault.2.1⟩
  by_cases hbeacon : (hdr.msgType == kMsgTypeBeacon && decide (9 ≤ hdr.payloadLen)) = true
  · have hvoice : ¬ (hdr.msgType = kMsgTypeVoice ∧ n.addressed hdr = true) := by
      rintro ⟨htype, -⟩
      rw [htype] at hbeacon
      cases hbeacon
    obtain ⟨n', hreturns, hkeeps⟩ := onBeacon_returns now payload hown
    refine ⟨n', .ok (), ?_, hkeeps, by simp [hskip hvoice]⟩
    simp only [onDiscoveryMessage, if_pos hbeacon]
    exact hreturns
  · obtain ⟨n', result, hresult, hspec⟩ := onHopMessage_result hdec n hdr payload
    refine ⟨n', result, ?_, hspec⟩
    simp only [onDiscoveryMessage_of_not_beacon payload n hbeacon, hresult]
    exact .pure _

/-- A frame ends normally exactly when it reads no voice message that cannot be decoded. -/
theorem tick_spec {P : Platform S σ κ} (hdec : DecryptsPurely P.hsm) (haes : AesReturns P.aes)
    {n : RadioNode σ κ Q} (hn : n.Sound) (hstarted : n.state ≠ .idle) (now : ℕ)
    (c : SimChannel S) :
    ∃ n' c' result, Returns (fun limit => n.tick P limit now c) (n', c', result) ∧ n'.Sound ∧
      (Completes n n' result ↔ ∀ m ∈ frameMessages P n c, ¬ VoiceFault P n m) := by
  obtain ⟨n₁, c₁, hbeacon, hkeeps₁, hqueues₁⟩ := sendBeacon_spec P now n c
  obtain ⟨n₂, hread, hkeeps₂⟩ := receiveFromChannel_spec P n₁ c₁ kDiscoveryFreq
  rw [hkeeps₁.radioId, hqueues₁] at hread
  have hsize := samplesToBytes_take_length P.format (c.buffered n.radio.radioId kDiscoveryFreq)
  have hkeeps₂' := hkeeps₁.trans hkeeps₂
  obtain ⟨n₃, result, hvisits, hkeeps₃, hiff⟩ := (onDiscoveryMessage_spec hdec now).visits
    (messages (discoveryRead P n c)) (hkeeps₂'.own hn.own)
  have hkeeps := hkeeps₂'.trans hkeeps₃
  simp only [hkeeps₂'.voiceFault_iff] at hiff
  have hparse := hvisits.returns hsize
  cases result with
  | error e =>
    refine ⟨n₃, (c₁.receive n.radio.radioId kDiscoveryFreq kReadSize).1, .error e, ?_,
      hkeeps.sound hn, ?_⟩
    · unfold tick
      simp only [hstarted, if_false, hbeacon, hread]
      exact hparse.bind (.pure _)
    · constructor
      · intro h
        cases h.1
      · intro h
        cases hiff.mpr fun m hm => h m (List.mem_append_left _ hm)
  | ok u =>
    cases u
    obtain ⟨n', c', result, hfinish, hsound, hcompletes⟩ := finishTick_spec hdec haes
      (hkeeps.sound hn) (c₁.receive n.radio.radioId kDiscoveryFreq kReadSize).1
    refine ⟨n', c', result, ?_, hsound, ?_⟩
    · unfold tick
      simp only [hstarted, if_false, hbeacon, hread]
      exact hparse.bind hfinish
    · -- the hop frequency is read from the queues that the first read left
      have hhop : hopRead P n₃ (c₁.receive n.radio.radioId kDiscoveryFreq kReadSize).1 =
          hopRead P n (c.receive n.radio.radioId kDiscoveryFreq kReadSize).1 := by
        apply hopRead_congr hkeeps.hopSeq hkeeps.frameNumber hkeeps.radioId
        intro freq
        rw [SimChannel.buffered_receive, SimChannel.buffered_receive, hqueues₁, hqueues₁]
      have hframes : Completes n n' result ↔ Completes n₃ n' result := by
        unfold Completes
        rw [hkeeps.frameNumber, hkeeps.scheduler]
      rw [hframes, hcompletes, hhop]
      simp only [hkeeps.voiceFault_iff, frameMessages, List.forall_mem_append]
      exact ⟨fun h => ⟨hiff.mp rfl, h⟩, fun h => h.2⟩

end Tick

end RadioNode
end Cirradio.Node
