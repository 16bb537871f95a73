import Cirradio.RadioNodeTick
import Mathlib.Logic.Relation

/-!
# The steps of a frame

A frame changes the node in small steps: it tunes the radio, takes in a beacon, or opens
a message that it has read. What every step keeps, a frame keeps, whether or not it ends
with a throw. On the channel a frame puts nothing but its beacon.
-/

namespace Cirradio.Node
open Security Hal Network Tdma Voice Fhss WhileLoops Relation

namespace RadioNode
variable {S σ κ Q : Type}

/-- What the steps of a frame leave alone. -/
structure Stays (P : Platform S σ κ) (n n' : RadioNode σ κ Q) : Prop where
  id : n'.id = n.id
  state : n'.state = n.state
  frameNumber : n'.frameNumber = n.frameNumber
  hopSeq : n'.hopSeq = n.hopSeq
  radioId : n'.radio.radioId = n.radio.radioId
  txEnabled : n'.radio.txEnabled = n.radio.txEnabled
  keyMgr : DecryptsPurely P.hsm → n'.keyMgr = n.keyMgr

variable {P : Platform S σ κ}

theorem Stays.refl (n : RadioNode σ κ Q) : Stays P n n :=
  ⟨rfl, rfl, rfl, rfl, rfl, rfl, fun _ => rfl⟩

theorem Stays.trans {n n' n'' : RadioNode σ κ Q} (h : Stays P n n') (h' : Stays P n' n'') :
    Stays P n n'' where
  id := h'.id.trans h.id
  state := h'.state.trans h.state
  frameNumber := h'.frameNumber.trans h.frameNumber
  hopSeq := h'.hopSeq.trans h.hopSeq
  radioId := h'.radioId.trans h.radioId
  txEnabled := h'.txEnabled.trans h.txEnabled
  keyMgr := fun hdec => (h'.keyMgr hdec).trans (h.keyMgr hdec)

theorem decryptWithTek_fst (hdec : DecryptsPurely P.hsm) (payload : Bytes) (m : KeyManager σ) :
    (KeyManager.decryptWithTek P.hsm payload m).1 = m := by
  unfold KeyManager.decryptWithTek
  cases htek : m.tek with
  | none => rfl
  | some tek =>
    obtain ⟨plaintext, hplaintext⟩ := hdec m.hsm tek payload
    simp only [hplaintext, ← htek]

theorem openData_node (hdr : MessageHeader) (payload : Bytes) (n : RadioNode σ κ Q) :
    ∃ keyMgr dataInbox, (n.openData P hdr payload).1 = { n with keyMgr, dataInbox } ∧
      (keyMgr = n.keyMgr ∨ keyMgr = (KeyManager.decryptWithTek P.hsm payload n.keyMgr).1) := by
  unfold openData
  split
  · rcases KeyManager.decryptWithTek P.hsm payload n.keyMgr with ⟨keyMgr, e | _ | plaintext⟩ <;>
    · exact ⟨keyMgr, _, rfl, .inr rfl⟩
  · exact ⟨n.keyMgr, n.dataInbox, rfl, .inl rfl⟩

theorem openVoice_node (hdr : MessageHeader) (payload : Bytes) (n : RadioNode σ κ Q) :
    ∃ keyMgr voiceCodec voiceInbox,
      (n.openVoice P hdr payload).1 = { n with keyMgr, voiceCodec, voiceInbox } ∧
      (keyMgr = n.keyMgr ∨ keyMgr = (KeyManager.decryptWithTek P.hsm payload n.keyMgr).1) := by
  unfold openVoice
  split
  · rcases KeyManager.decryptWithTek P.hsm payload n.keyMgr with ⟨keyMgr, e | _ | plaintext⟩
    · exact ⟨keyMgr, _, _, rfl, .inr rfl⟩
    · exact ⟨keyMgr, _, _, rfl, .inr rfl⟩
    · rcases hdecode : n.voiceCodec.decode P.codec2 plaintext with ⟨voiceCodec, e | audio⟩ <;>
      · simp only [hdecode]
        exact ⟨keyMgr, _, _, rfl, .inr rfl⟩
  · exact ⟨n.keyMgr, n.voiceCodec, n.voiceInbox, rfl, .inl rfl⟩

theorem keyMgr_of_opened {n : RadioNode σ κ Q} {payload : Bytes} {keyMgr : KeyManager σ}
    (h : keyMgr = n.keyMgr ∨ keyMgr = (KeyManager.decryptWithTek P.hsm payload n.keyMgr).1)
    (hdec : DecryptsPurely P.hsm) : keyMgr = n.keyMgr := by
  rcases h with h | h
  · exact h
  · rw [h, decryptWithTek_fst hdec]

theorem openData_stays (hdr : MessageHeader) (payload : Bytes) (n : RadioNode σ κ Q) :
    Stays P n (n.openData P hdr payload).1 := by
  obtain ⟨keyMgr, dataInbox, hnode, hkeys⟩ := openData_node hdr payload n (P := P)
  rw [hnode]
  exact ⟨rfl, rfl, rfl, rfl, rfl, rfl, keyMgr_of_opened hkeys⟩

theorem openVoice_stays (hdr : MessageHeader) (payload : Bytes) (n : RadioNode σ κ Q) :
    Stays P n (n.openVoice P hdr payload).1 := by
  obtain ⟨keyMgr, voiceCodec, voiceInbox, hnode, hkeys⟩ := openVoice_node hdr payload n (P := P)
  rw [hnode]
  exact ⟨rfl, rfl, rfl, rfl, rfl, rfl, keyMgr_of_opened hkeys⟩

theorem discoveryRead_length (n : RadioNode σ κ Q) (c : SimChannel S) :
    (discoveryRead P n c).length + 13 + 2 ^ 32 ≤ 2 ^ 64 :=
  samplesToBytes_take_length P.format _

theorem hopRead_length (n : RadioNode σ κ Q) (c : SimChannel S) :
    (hopRead P n c).length + 13 + 2 ^ 32 ≤ 2 ^ 64 := by
  unfold hopRead
  split
  · exact Nat.le_of_ble_eq_true rfl
  · split
    · exact Nat.le_of_ble_eq_true rfl
    · exact samplesToBytes_take_length P.format _

theorem hopRead_finishTick {n n₁ : RadioNode σ κ Q} {now : ℕ} (c : SimChannel S)
    (h : Stays P n n₁) :
    hopRead P n₁ ((n.sendBeacon P now c).2.receive n.radio.radioId kDiscoveryFreq kReadSize).1 =
      hopRead P n (c.receive n.radio.radioId kDiscoveryFreq kReadSize).1 := by
  have hqueues : ∀ freq, (n.sendBeacon P now c).2.buffered n.radio.radioId freq =
      c.buffered n.radio.radioId freq := fun freq => SimRadioHal.buffered_transmit _ c _ freq
  apply hopRead_congr h.hopSeq h.frameNumber h.radioId
  intro freq
  rw [SimChannel.buffered_receive, SimChannel.buffered_receive, hqueues, hqueues]

/-- The node at the end of a frame: it advances if nothing was thrown. -/
def ended (n : RadioNode σ κ Q) : Throws Unit → RadioNode σ κ Q
  | .error _ => n
  | .ok () => n.advance

theorem eq_or_eq_of_ended {n n' : RadioNode σ κ Q} {result : Throws Unit}
    (h : n' = n.ended result) : n' = n ∨ n' = n.advance := by
  cases result with
  | error e => exact .inl h
  | ok u => exact .inr h

theorem finishTick_of_none {n : RadioNode σ κ Q} (hseq : n.hopSeq = none) (limit : ℕ)
    (c : SimChannel S) : n.finishTick P limit c = some (n.advance, c, .ok ()) := by
  unfold finishTick
  rw [hseq]

theorem finishTick_of_error {n : RadioNode σ κ Q} {hopSeq : HopSequencer} {e : String}
    (hseq : n.hopSeq = some hopSeq)
    (hfreq : hopSeq.getHopFrequency P.aes 0 n.frameNumber 0 = .error e) (limit : ℕ)
    (c : SimChannel S) : n.finishTick P limit c = some (n, c, .error e) := by
  unfold finishTick
  rw [hseq]
  simp only [hfreq]

/-- With a hop frequency, the part of a frame after the discovery frequency is the loop over
what is read there. -/
theorem finishTick_of_freq {n : RadioNode σ κ Q} {hopSeq : HopSequencer} {freq : Frequency}
    (hseq : n.hopSeq = some hopSeq)
    (hfreq : hopSeq.getHopFrequency P.aes 0 n.frameNumber 0 = .ok freq) (limit : ℕ)
    (c : SimChannel S) :
    n.finishTick P limit c =
      (parseMessages 64 limit (fun hdr payload n => some (n.onHopMessage P hdr payload))
        (hopRead P n c) (n.receiveFromChannel P c freq).1).map fun r =>
          (r.1.ended r.2, (c.receive n.radio.radioId freq kReadSize).1, r.2) := by
  have hread : hopRead P n c = (n.receiveFromChannel P c freq).2.2 := by
    unfold hopRead
    rw [hseq]
    simp only [hfreq]
    rw [← SimChannel.receive_snd]
    rfl
  unfold finishTick
  rw [hseq, hread]
  simp only [hfreq]
  change Option.bind _ _ = _
  cases parseMessages 64 limit (fun hdr payload n => some (n.onHopMessage P hdr payload))
    (n.receiveFromChannel P c freq).2.2 (n.receiveFromChannel P c freq).1 with
  | none => rfl
  | some r =>
    obtain ⟨n₁, e | u⟩ := r
    · rfl
    · rfl

/-- The part of a frame after the discovery frequency is the loop over what is read on the
hop frequency, if there is one. -/
theorem finishTick_eq_some {n n' : RadioNode σ κ Q} {c c' : SimChannel S} {result : Throws Unit}
    {limit : ℕ} (h : n.finishTick P limit c = some (n', c', result)) :
    (hopRead P n c = [] ∧ c' = c ∧ n' = n.ended result) ∨
    ∃ freq n₁, parseMessages 64 limit (fun hdr payload n => some (n.onHopMessage P hdr payload))
        (hopRead P n c) (n.receiveFromChannel P c freq).1 = some (n₁, result) ∧
      c' = (c.receive n.radio.radioId freq kReadSize).1 ∧ n' = n₁.ended result := by
  cases hseq : n.hopSeq with
  | none =>
    rw [finishTick_of_none hseq] at h
    cases h
    refine .inl ⟨?_, rfl, rfl⟩
    unfold hopRead
    rw [hseq]
  | some hopSeq =>
    cases hfreq : hopSeq.getHopFrequency P.aes 0 n.frameNumber 0 with
    | error e =>
      rw [finishTick_of_error hseq hfreq] at h
      cases h
      refine .inl ⟨?_, rfl, rfl⟩
      unfold hopRead
      rw [hseq]
      simp only [hfreq]
    | ok freq =>
      rw [finishTick_of_freq hseq hfreq] at h
      obtain ⟨⟨n₁, result₁⟩, hparse, heq⟩ := Option.map_eq_some_iff.mp h
      cases heq
      exact .inr ⟨freq, n₁, hparse, rfl, rfl⟩

variable [LT Q] [DecidableLT Q] [One Q] [Mul Q] [Zero Q]

theorem onBeacon_node {limit now : ℕ} {payload : Bytes} {n n' : RadioNode σ κ Q}
    {result : Throws Unit} (h : n.onBeacon limit now payload = some (n', result)) :
    ∃ discovery router, n' = { n with discovery, router } ∧
      (n.router.Own → router.Own) := by
  unfold onBeacon at h
  simp only at h
  split at h
  · obtain ⟨router, hrouter, heq⟩ := Option.bind_eq_some_iff.mp h
    cases heq
    exact ⟨_, router, rfl, fun hown => hown.updateNeighbor hrouter⟩
  · cases h
    exact ⟨_, n.router, rfl, fun hown => hown⟩

theorem onBeacon_stays {limit now : ℕ} {payload : Bytes} {n n' : RadioNode σ κ Q}
    {result : Throws Unit} (h : n.onBeacon limit now payload = some (n', result)) :
    Stays P n n' := by
  obtain ⟨discovery, router, rfl, -⟩ := onBeacon_node h
  exact ⟨rfl, rfl, rfl, rfl, rfl, rfl, fun _ => rfl⟩

/-- A step of a frame that reads the messages. -/
inductive FrameStep (P : Platform S σ κ) (limit now : ℕ)
    (read : List (MessageHeader × Bytes)) : RadioNode σ κ Q → RadioNode σ κ Q → Prop
  | tune (n : RadioNode σ κ Q) (freq : Frequency) :
      FrameStep P limit now read n { n with radio := n.radio.tune freq }
  | data {n : RadioNode σ κ Q} {hdr : MessageHeader} {payload : Bytes} :
      (hdr, payload) ∈ read → hdr.msgType = kMsgTypeData → n.addressed hdr = true →
      FrameStep P limit now read n (n.openData P hdr payload).1
  | voice {n : RadioNode σ κ Q} {hdr : MessageHeader} {payload : Bytes} :
      (hdr, payload) ∈ read → hdr.msgType = kMsgTypeVoice → n.addressed hdr = true →
      FrameStep P limit now read n (n.openVoice P hdr payload).1
  | beacon {n n' : RadioNode σ κ Q} {hdr : MessageHeader} {payload : Bytes}
      {result : Throws Unit} : (hdr, payload) ∈ read → hdr.msgType = kMsgTypeBeacon →
      n.onBeacon limit now payload = some (n', result) → FrameStep P limit now read n n'

variable {limit now : ℕ} {read : List (MessageHeader × Bytes)}

theorem FrameStep.stays {n n' : RadioNode σ κ Q} (h : FrameStep P limit now read n n') :
    Stays P n n' := by
  cases h with
  | tune freq => exact ⟨rfl, rfl, rfl, rfl, rfl, rfl, fun _ => rfl⟩
  | data _ _ _ => exact openData_stays _ _ n
  | voice _ _ _ => exact openVoice_stays _ _ n
  | beacon _ _ hbeacon => exact onBeacon_stays hbeacon

theorem stays_of_steps {n n' : RadioNode σ κ Q}
    (h : ReflTransGen (FrameStep P limit now read) n n') : Stays P n n' := by
  induction h with
  | refl => exact .refl n
  | tail _ hstep ih => exact ih.trans hstep.stays

theorem onHopMessage_steps {hdr : MessageHeader} {payload : Bytes}
    (hread : (hdr, payload) ∈ read) (n : RadioNode σ κ Q) :
    ReflTransGen (FrameStep P limit now read) n (n.onHopMessage P hdr payload).1 := by
  unfold onHopMessage
  split
  · next hdata =>
    rw [Bool.and_eq_true, beq_iff_eq] at hdata
    exact .single (.data hread hdata.1 hdata.2)
  · split
    · next hvoice =>
      rw [Bool.and_eq_true, beq_iff_eq] at hvoice
      exact .single (.voice hread hvoice.1 hvoice.2)
    · exact .refl

theorem onDiscoveryMessage_steps {hdr : MessageHeader} {payload : Bytes}
    (hread : (hdr, payload) ∈ read) {n : RadioNode σ κ Q}
    {result : RadioNode σ κ Q × Throws Unit}
    (h : onDiscoveryMessage P limit now hdr payload n = some result) :
    ReflTransGen (FrameStep P limit now read) n result.1 := by
  by_cases hbeacon : (hdr.msgType == kMsgTypeBeacon && decide (9 ≤ hdr.payloadLen)) = true
  · simp only [onDiscoveryMessage, if_pos hbeacon] at h
    rw [Bool.and_eq_true, beq_iff_eq] at hbeacon
    exact .single (.beacon hread hbeacon.1 h)
  · rw [onDiscoveryMessage_of_not_beacon payload n hbeacon] at h
    cases h
    exact onHopMessage_steps hread n

/-- The channel is as it was but for what a radio has read. -/
structure ReadOnly (radioId : UInt32) (c c' : SimChannel S) : Prop where
  registeredRadios : c'.registeredRadios = c.registeredRadios
  partitionActive : c'.partitionActive = c.partitionActive
  buffered : ∀ id, id ≠ radioId → ∀ freq, c'.buffered id freq = c.buffered id freq

theorem ReadOnly.refl (radioId : UInt32) (c : SimChannel S) : ReadOnly radioId c c :=
  ⟨rfl, rfl, fun _ _ _ => rfl⟩

theorem ReadOnly.trans {radioId : UInt32} {c c' c'' : SimChannel S} (h : ReadOnly radioId c c')
    (h' : ReadOnly radioId c' c'') : ReadOnly radioId c c'' where
  registeredRadios := h'.registeredRadios.trans h.registeredRadios
  partitionActive := h'.partitionActive.trans h.partitionActive
  buffered := fun id hne freq => (h'.buffered id hne freq).trans (h.buffered id hne freq)

theorem readOnly_receive (c : SimChannel S) (radioId : UInt32) (freq : Frequency) (n : ℕ) :
    ReadOnly radioId c (c.receive radioId freq n).1 :=
  ⟨c.receive_registeredRadios radioId freq n, c.receive_partitionActive radioId freq n,
    fun _ hne freq' => c.buffered_receive_of_ne hne freq freq' n⟩

theorem tick_of_idle {n : RadioNode σ κ Q} (h : n.state = .idle) (c : SimChannel S) :
    n.tick P limit now c = some (n, c, .ok ()) := if_pos h

/-- A frame of a started node is its beacon, the loop over what is read on the discovery
frequency, and the part after it if the loop ends normally. -/
theorem tick_eq_some {n n' : RadioNode σ κ Q} {c c' : SimChannel S} {result : Throws Unit}
    (hstarted : n.state ≠ .idle) (h : n.tick P limit now c = some (n', c', result)) :
    ∃ n₁ result₁, parseMessages 64 limit (onDiscoveryMessage P limit now) (discoveryRead P n c)
        { n with radio := (n.radio.tune kDiscoveryFreq).tune kDiscoveryFreq } =
          some (n₁, result₁) ∧
      match result₁ with
      | .error e => n' = n₁ ∧ result = .error e ∧
          c' = ((n.sendBeacon P now c).2.receive n.radio.radioId kDiscoveryFreq kReadSize).1
      | .ok () => n₁.finishTick P limit ((n.sendBeacon P now c).2.receive n.radio.radioId
          kDiscoveryFreq kReadSize).1 = some (n', c', result) := by
  unfold tick at h
  rw [if_neg hstarted] at h
  obtain ⟨⟨n₁, result₁⟩, hparse, hrest⟩ := Option.bind_eq_some_iff.mp h
  change parseMessages 64 limit _ (samplesToBytes P.format
    ((n.sendBeacon P now c).2.receive n.radio.radioId kDiscoveryFreq kReadSize).2) _ = _ at hparse
  have hqueue : (n.sendBeacon P now c).2.buffered n.radio.radioId kDiscoveryFreq =
      c.buffered n.radio.radioId kDiscoveryFreq := SimRadioHal.buffered_transmit _ c _ _
  rw [SimChannel.receive_snd, hqueue] at hparse
  refine ⟨n₁, result₁, hparse, ?_⟩
  cases result₁ with
  | error e =>
    cases hrest
    exact ⟨rfl, rfl, rfl⟩
  | ok u => exact hrest

/-- The messages of a loop are visited in steps. -/
theorem parseMessages_steps {n₀ n n' : RadioNode σ κ Q} {onMessage : OnMessage (RadioNode σ κ Q)}
    {rxData : Bytes} {result : Throws Unit} (hsize : rxData.length + 13 + 2 ^ 32 ≤ 2 ^ 64)
    (hread : ∀ m ∈ messages rxData, m ∈ read)
    (hvisit : ∀ hdr payload n r, (hdr, payload) ∈ read → onMessage hdr payload n = some r →
      ReflTransGen (FrameStep P limit now read) n r.1)
    (h : parseMessages 64 limit onMessage rxData n = some (n', result))
    (hsteps : ReflTransGen (FrameStep P limit now read) n₀ n) :
    ReflTransGen (FrameStep P limit now read) n₀ n' := by
  have hloop := parseMessages_induction hsize
    (fun later node => (∀ m ∈ later, m ∈ read) ∧
      ReflTransGen (FrameStep P limit now read) n₀ node)
    (fun node => ReflTransGen (FrameStep P limit now read) n₀ node)
    (fun m later node node' hinv hvisited =>
      ⟨fun m' hm' => hinv.1 m' (List.mem_cons_of_mem m hm'),
        hinv.2.trans (hvisit _ _ _ _ (hinv.1 m List.mem_cons_self) hvisited)⟩)
    (fun m later node node' e hinv hvisited =>
      hinv.2.trans (hvisit _ _ _ _ (hinv.1 m List.mem_cons_self) hvisited))
    ⟨hread, hsteps⟩ h
  cases result with
  | error e => exact hloop
  | ok u => exact hloop.2

theorem finishTick_steps {n n' : RadioNode σ κ Q} {c c' : SimChannel S} {result : Throws Unit}
    (hread : ∀ m ∈ messages (hopRead P n c), m ∈ read)
    (h : n.finishTick P limit c = some (n', c', result)) :
    (∃ n₁, ReflTransGen (FrameStep P limit now read) n n₁ ∧ n' = n₁.ended result) ∧
      ReadOnly n.radio.radioId c c' := by
  rcases finishTick_eq_some h with ⟨-, rfl, hn'⟩ | ⟨freq, n₁, hparse, rfl, hn'⟩
  · exact ⟨⟨n, .refl, hn'⟩, .refl _ c'⟩
  · have hsteps : ReflTransGen (FrameStep P limit now read) n n₁ :=
      parseMessages_steps (hopRead_length n c) hread
        (fun hdr payload n r hm hr => by
          cases hr
          exact onHopMessage_steps hm n)
        hparse (.single (.tune n freq))
    exact ⟨⟨n₁, hsteps, hn'⟩, readOnly_receive c n.radio.radioId freq kReadSize⟩

/-- A frame of a started node is its steps, and the advance if it ends normally. After the
beacon the channel is only read. -/
theorem tick_ended {n n' : RadioNode σ κ Q} {c c' : SimChannel S} {result : Throws Unit}
    (hstarted : n.state ≠ .idle) (h : n.tick P limit now c = some (n', c', result)) :
    (∃ n₁, ReflTransGen (FrameStep P limit now (frameMessages P n c)) n n₁ ∧
      n' = n₁.ended result) ∧
      ReadOnly n.radio.radioId (n.sendBeacon P now c).2 c' := by
  obtain ⟨n₁, result₁, hparse, hrest⟩ := tick_eq_some hstarted h
  have htuned : ReflTransGen (FrameStep P limit now (frameMessages P n c)) n
      { n with radio := (n.radio.tune kDiscoveryFreq).tune kDiscoveryFreq } :=
    .tail (.single (.tune n kDiscoveryFreq)) (.tune _ kDiscoveryFreq)
  have hsteps := parseMessages_steps (discoveryRead_length n c)
    (fun m hm => List.mem_append_left _ hm)
    (fun hdr payload n r hm hr => onDiscoveryMessage_steps hm hr) hparse htuned
  have hstays := stays_of_steps hsteps
  have honly := readOnly_receive (n.sendBeacon P now c).2 n.radio.radioId kDiscoveryFreq
    kReadSize
  cases result₁ with
  | error e =>
    obtain ⟨rfl, rfl, rfl⟩ := hrest
    exact ⟨⟨n', hsteps, rfl⟩, honly⟩
  | ok u =>
    have hread : ∀ m ∈ messages (hopRead P n₁ ((n.sendBeacon P now c).2.receive n.radio.radioId
        kDiscoveryFreq kReadSize).1), m ∈ frameMessages P n c := by
      rw [hopRead_finishTick c hstays]
      exact fun m hm => List.mem_append_right _ hm
    obtain ⟨⟨n₂, hmore, hn'⟩, honly'⟩ := finishTick_steps hread hrest
    rw [hstays.radioId] at honly'
    exact ⟨⟨n₂, hsteps.trans hmore, hn'⟩, honly.trans honly'⟩

theorem tick_steps {n n' : RadioNode σ κ Q} {c c' : SimChannel S} {result : Throws Unit}
    (hstarted : n.state ≠ .idle) (h : n.tick P limit now c = some (n', c', result)) :
    (∃ n₁, ReflTransGen (FrameStep P limit now (frameMessages P n c)) n n₁ ∧
      (n' = n₁ ∨ n' = n₁.advance)) ∧
      ReadOnly n.radio.radioId (n.sendBeacon P now c).2 c' := by
  obtain ⟨⟨n₁, hsteps, hn'⟩, honly⟩ := tick_ended hstarted h
  exact ⟨⟨n₁, hsteps, eq_or_eq_of_ended hn'⟩, honly⟩

end RadioNode
end Cirradio.Node
