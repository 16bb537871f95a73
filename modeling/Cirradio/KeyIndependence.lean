import Cirradio.FrameInbox
import Cirradio.NodeCalls

/-!
# What a node does under other keys

The same node with other keys and provisioned keys does the same, and ends as the same node
with other keys, as far as the keys yield the same: the same plaintexts of the messages for
the node, ciphertexts in the same places, and the same key for the sequencer.
-/

namespace Cirradio.Node
open Security Hal Network Tdma Voice Fhss WhileLoops

namespace RadioNode
variable {S σ κ Q : Type}

/-- The node with other keys. -/
def rekeyed (keyMgr : KeyManager σ) (tek fhek : Bytes) (n : RadioNode σ κ Q) :
    RadioNode σ κ Q :=
  { n with keyMgr, provisionedTek := tek, provisionedFhek := fhek }

section Keys
variable (P : Platform S σ κ)

/-- What a payload decrypts to. -/
def decrypted (m : KeyManager σ) (payload : Bytes) : Option Bytes :=
  if m.isInitialized then
    match (KeyManager.decryptWithTek P.hsm payload m).2 with
    | .ok plaintext => plaintext
    | .error _ => none
  else none

/-- A data or voice message for the node. -/
def Opens (n : RadioNode σ κ Q) (m : MessageHeader × Bytes) : Prop :=
  n.addressed m.1 = true ∧ (m.1.msgType = kMsgTypeData ∨ m.1.msgType = kMsgTypeVoice)

/-- The keys after a start, and the key for its sequencer. -/
def startFhek (n : RadioNode σ κ Q) : KeyManager σ × Throws Bytes :=
  match inOrder (n.startKeys P) n.keyMgr with
  | (m, .error e) => (m, .error e)
  | (m, .ok ()) => KeyManager.exportFhekForFpga P.hsm m

end Keys

section Opening
variable {P : Platform S σ κ} {keyMgr : KeyManager σ} {tek fhek : Bytes}

theorem decrypts_decrypted (hdec : DecryptsPurely P.hsm) (m : KeyManager σ)
    (payload : Bytes) :
    (m.isInitialized = false ∧ decrypted P m payload = none) ∨
      (m.isInitialized = true ∧
        KeyManager.decryptWithTek P.hsm payload m = (m, .ok (decrypted P m payload))) := by
  by_cases hinit : m.isInitialized = true
  · obtain ⟨p, hp⟩ := decryptWithTek_pure hdec hinit payload
    refine .inr ⟨hinit, ?_⟩
    rw [decrypted, if_pos hinit, hp]
  · refine .inl ⟨Bool.eq_false_of_not_eq_true hinit, ?_⟩
    rw [decrypted, if_neg hinit]

theorem decrypts_of_some (hdec : DecryptsPurely P.hsm) {m : KeyManager σ}
    {payload p : Bytes} (h : decrypted P m payload = some p) :
    m.isInitialized = true ∧ KeyManager.decryptWithTek P.hsm payload m = (m, .ok (some p)) := by
  rcases decrypts_decrypted hdec m payload with ⟨-, hnone⟩ | ⟨hinit, hdecrypt⟩
  · rw [h] at hnone
    cases hnone
  · rw [h] at hdecrypt
    exact ⟨hinit, hdecrypt⟩

theorem openData_of_none (hdec : DecryptsPurely P.hsm) {hdr : MessageHeader}
    {payload : Bytes} {n : RadioNode σ κ Q} (h : decrypted P n.keyMgr payload = none) :
    n.openData P hdr payload = (n, .ok ()) := by
  rcases decrypts_decrypted hdec n.keyMgr payload with ⟨hinit, -⟩ | ⟨hinit, hdecrypt⟩
  · simp [openData, hinit]
  · simp [openData, hinit, hdecrypt, h]

theorem openData_of_some (hdec : DecryptsPurely P.hsm) {hdr : MessageHeader}
    {payload p : Bytes} {n : RadioNode σ κ Q} (h : decrypted P n.keyMgr payload = some p) :
    n.openData P hdr payload =
      ({ n with dataInbox := n.dataInbox ++ [⟨hdr.srcNode, p⟩] }, .ok ()) := by
  obtain ⟨hinit, hdecrypt⟩ := decrypts_of_some hdec h
  simp [openData, hinit, hdecrypt]

theorem openVoice_of_none (hdec : DecryptsPurely P.hsm) {hdr : MessageHeader}
    {payload : Bytes} {n : RadioNode σ κ Q} (h : decrypted P n.keyMgr payload = none) :
    n.openVoice P hdr payload = (n, .ok ()) := by
  rcases decrypts_decrypted hdec n.keyMgr payload with ⟨hinit, -⟩ | ⟨hinit, hdecrypt⟩
  · simp [openVoice, hinit]
  · simp [openVoice, hinit, hdecrypt, h]

theorem openData_rekeyed (hdec : DecryptsPurely P.hsm) {hdr : MessageHeader}
    {payload : Bytes} {n : RadioNode σ κ Q}
    (h : decrypted P keyMgr payload = decrypted P n.keyMgr payload) :
    (n.rekeyed keyMgr tek fhek).openData P hdr payload =
      ((n.openData P hdr payload).1.rekeyed keyMgr tek fhek,
        (n.openData P hdr payload).2) := by
  have hkeys : decrypted P (n.rekeyed keyMgr tek fhek).keyMgr payload =
      decrypted P n.keyMgr payload := h
  cases hp : decrypted P n.keyMgr payload with
  | none =>
    rw [hp] at hkeys
    rw [openData_of_none hdec hkeys, openData_of_none hdec hp]
  | some p =>
    rw [hp] at hkeys
    rw [openData_of_some hdec hkeys, openData_of_some hdec hp]
    rfl

theorem openVoice_rekeyed (hdec : DecryptsPurely P.hsm) {hdr : MessageHeader}
    {payload : Bytes} {n : RadioNode σ κ Q}
    (h : decrypted P keyMgr payload = decrypted P n.keyMgr payload) :
    (n.rekeyed keyMgr tek fhek).openVoice P hdr payload =
      ((n.openVoice P hdr payload).1.rekeyed keyMgr tek fhek,
        (n.openVoice P hdr payload).2) := by
  have hkeys : decrypted P (n.rekeyed keyMgr tek fhek).keyMgr payload =
      decrypted P n.keyMgr payload := h
  cases hp : decrypted P n.keyMgr payload with
  | none =>
    rw [hp] at hkeys
    rw [openVoice_of_none hdec hkeys, openVoice_of_none hdec hp]
  | some p =>
    obtain ⟨hinit, hdecrypt⟩ := decrypts_of_some hdec hp
    obtain ⟨hinit', hdecrypt'⟩ := decrypts_of_some hdec (hkeys.trans hp)
    simp only [openVoice, if_pos hinit, if_pos hinit', hdecrypt, hdecrypt']
    rcases hdecode : n.voiceCodec.decode P.codec2 p with ⟨voiceCodec, e | audio⟩
    · have hdecode' : (n.rekeyed keyMgr tek fhek).voiceCodec.decode P.codec2 p =
          (voiceCodec, .error e) := hdecode
      simp only [hdecode']
      rfl
    · have hdecode' : (n.rekeyed keyMgr tek fhek).voiceCodec.decode P.codec2 p =
          (voiceCodec, .ok audio) := hdecode
      simp only [hdecode']
      rfl

theorem onHopMessage_rekeyed (hdec : DecryptsPurely P.hsm) {hdr : MessageHeader}
    {payload : Bytes} {n : RadioNode σ κ Q} (h : n.Opens (hdr, payload) →
      decrypted P keyMgr payload = decrypted P n.keyMgr payload) :
    (n.rekeyed keyMgr tek fhek).onHopMessage P hdr payload =
      ((n.onHopMessage P hdr payload).1.rekeyed keyMgr tek fhek,
        (n.onHopMessage P hdr payload).2) := by
  have hto : (n.rekeyed keyMgr tek fhek).addressed hdr = n.addressed hdr := rfl
  unfold onHopMessage
  rw [hto]
  split
  · next hdata =>
    rw [Bool.and_eq_true, beq_iff_eq] at hdata
    exact openData_rekeyed hdec (h ⟨hdata.2, .inl hdata.1⟩)
  · split
    · next hvoice =>
      rw [Bool.and_eq_true, beq_iff_eq] at hvoice
      exact openVoice_rekeyed hdec (h ⟨hvoice.2, .inr hvoice.1⟩)
    · rfl

/-- A loop under other keys, if the visits do the same. -/
theorem parseMessages_rekeyed (hdec : DecryptsPurely P.hsm) {limit : ℕ}
    {n tuned n₁ n₁' : RadioNode σ κ Q} {onMessage : OnMessage (RadioNode σ κ Q)}
    {rxData : Bytes} {result result' : Throws Unit}
    (hsize : rxData.length + 13 + 2 ^ 32 ≤ 2 ^ 64) (hstays : Stays P n tuned)
    (hopens : ∀ m ∈ messages rxData, n.Opens m →
      decrypted P keyMgr m.2 = decrypted P n.keyMgr m.2)
    (h : parseMessages 64 limit onMessage rxData tuned = some (n₁, result))
    (h' : parseMessages 64 limit onMessage rxData (tuned.rekeyed keyMgr tek fhek) =
      some (n₁', result'))
    (hvisit : ∀ m n r, onMessage m.1 m.2 n = some r → Stays P n r.1 ∧
      ((n.Opens m → decrypted P keyMgr m.2 = decrypted P n.keyMgr m.2) →
        onMessage m.1 m.2 (n.rekeyed keyMgr tek fhek) =
          some (r.1.rekeyed keyMgr tek fhek, r.2))) :
    Stays P n n₁ ∧ n₁' = n₁.rekeyed keyMgr tek fhek ∧ result' = result := by
  obtain ⟨hstays₁, hmapped⟩ := parseMessages_map hsize (rekeyed keyMgr tek fhek) (Stays P n)
    (fun m hm node r hnode hr => by
      obtain ⟨hmore, hsame⟩ := hvisit m node r hr
      refine ⟨hnode.trans hmore, hsame fun hnodeOpens => ?_⟩
      rw [hnode.keyMgr hdec]
      refine hopens m hm ⟨?_, hnodeOpens.2⟩
      rw [← hnodeOpens.1, addressed, addressed, hnode.id])
    hstays h
  rw [hmapped] at h'
  cases h'
  exact ⟨hstays₁, rfl, rfl⟩

/-- The rest of a frame under other keys, from queues with the same samples. -/
theorem finishTick_rekeyed (hdec : DecryptsPurely P.hsm) {limit : ℕ}
    {n n₁ n₁' : RadioNode σ κ Q} {c c' d d' : SimChannel S} {result result' : Throws Unit}
    (hqueues : ∀ freq, c'.buffered n.radio.radioId freq = c.buffered n.radio.radioId freq)
    (hopens : ∀ m ∈ messages (hopRead P n c), n.Opens m →
      decrypted P keyMgr m.2 = decrypted P n.keyMgr m.2)
    (h : n.finishTick P limit c = some (n₁, d, result))
    (h' : (n.rekeyed keyMgr tek fhek).finishTick P limit c' = some (n₁', d', result')) :
    n₁' = n₁.rekeyed keyMgr tek fhek ∧ result' = result := by
  have hseq' : (n.rekeyed keyMgr tek fhek).hopSeq = n.hopSeq := rfl
  have hended : ∀ (n : RadioNode σ κ Q) result, (n.rekeyed keyMgr tek fhek).ended result =
      (n.ended result).rekeyed keyMgr tek fhek := by
    intro n result
    cases result with
    | error e => rfl
    | ok u => rfl
  cases hseq : n.hopSeq with
  | none =>
    rw [finishTick_of_none hseq] at h
    rw [finishTick_of_none (hseq'.trans hseq)] at h'
    cases h
    cases h'
    exact ⟨rfl, rfl⟩
  | some hopSeq =>
    cases hfreq : hopSeq.getHopFrequency P.aes 0 n.frameNumber 0 with
    | error e =>
      rw [finishTick_of_error hseq hfreq] at h
      rw [finishTick_of_error (hseq'.trans hseq) hfreq] at h'
      cases h
      cases h'
      exact ⟨rfl, rfl⟩
    | ok freq =>
      have hread : hopRead P (n.rekeyed keyMgr tek fhek) c' = hopRead P n c :=
        hopRead_congr rfl rfl rfl hqueues
      rw [finishTick_of_freq hseq hfreq] at h
      rw [finishTick_of_freq (hseq'.trans hseq) hfreq, hread] at h'
      obtain ⟨⟨m, r⟩, hparse, heq⟩ := Option.map_eq_some_iff.mp h
      obtain ⟨⟨m', r'⟩, hparse', heq'⟩ := Option.map_eq_some_iff.mp h'
      cases heq
      cases heq'
      have htuned : Stays P n (n.receiveFromChannel P c freq).1 :=
        ⟨rfl, rfl, rfl, rfl, rfl, rfl, fun _ => rfl⟩
      obtain ⟨-, rfl, rfl⟩ := parseMessages_rekeyed hdec (hopRead_length n c) htuned hopens
        hparse hparse' fun m n r hr => by
          cases hr
          refine ⟨onHopMessage_stays m.1 m.2 n, fun hsame => ?_⟩
          rw [onHopMessage_rekeyed hdec hsame]
      exact ⟨hended m _, rfl⟩

section Frames
variable [LT Q] [DecidableLT Q] [One Q] [Mul Q] [Zero Q] {limit now : ℕ}

theorem onBeacon_rekeyed (payload : Bytes) (n : RadioNode σ κ Q) :
    (n.rekeyed keyMgr tek fhek).onBeacon limit now payload =
      (n.onBeacon limit now payload).map fun r => (r.1.rekeyed keyMgr tek fhek, r.2) := by
  unfold onBeacon
  have hdiscovery : (n.rekeyed keyMgr tek fhek).discovery = n.discovery := rfl
  have hrouter : (n.rekeyed keyMgr tek fhek).router = n.router := rfl
  simp only [hdiscovery, hrouter]
  split
  · rcases hupdate : n.router.updateNeighbor limit (decodeU32 payload) 1 with _ | router
    · rfl
    · rfl
  · rfl

theorem onDiscoveryMessage_rekeyed (hdec : DecryptsPurely P.hsm)
    {m : MessageHeader × Bytes} {n : RadioNode σ κ Q} {r : RadioNode σ κ Q × Throws Unit}
    (h : n.Opens m → decrypted P keyMgr m.2 = decrypted P n.keyMgr m.2)
    (hr : onDiscoveryMessage P limit now m.1 m.2 n = some r) :
    onDiscoveryMessage P limit now m.1 m.2 (n.rekeyed keyMgr tek fhek) =
      some (r.1.rekeyed keyMgr tek fhek, r.2) := by
  obtain ⟨hdr, payload⟩ := m
  by_cases hbeacon : (hdr.msgType == kMsgTypeBeacon && decide (9 ≤ hdr.payloadLen)) = true
  · simp only [onDiscoveryMessage, if_pos hbeacon] at hr ⊢
    rw [onBeacon_rekeyed, hr]
    rfl
  · rw [onDiscoveryMessage_of_not_beacon payload _ hbeacon] at hr ⊢
    cases hr
    rw [onHopMessage_rekeyed hdec h]

/-- A frame under other keys, from queues with the same samples. -/
theorem tick_rekeyed (hdec : DecryptsPurely P.hsm) {n n₁ n₁' : RadioNode σ κ Q}
    {c c' d d' : SimChannel S} {result result' : Throws Unit}
    (hqueues : ∀ freq, c'.buffered n.radio.radioId freq = c.buffered n.radio.radioId freq)
    (hopens : n.state ≠ .idle → ∀ m ∈ frameMessages P n c, n.Opens m →
      decrypted P keyMgr m.2 = decrypted P n.keyMgr m.2)
    (h : n.tick P limit now c = some (n₁, d, result))
    (h' : (n.rekeyed keyMgr tek fhek).tick P limit now c' = some (n₁', d', result')) :
    n₁' = n₁.rekeyed keyMgr tek fhek := by
  by_cases hidle : n.state = .idle
  · rw [tick_of_idle hidle] at h
    have hidle' : (n.rekeyed keyMgr tek fhek).state = .idle := hidle
    rw [tick_of_idle hidle'] at h'
    cases h
    cases h'
    rfl
  · obtain ⟨m, r, hparse, hrest⟩ := tick_eq_some hidle h
    have hidle' : (n.rekeyed keyMgr tek fhek).state ≠ .idle := hidle
    obtain ⟨m', r', hparse', hrest'⟩ := tick_eq_some hidle' h'
    have hread : discoveryRead P (n.rekeyed keyMgr tek fhek) c' = discoveryRead P n c := by
      unfold discoveryRead
      rw [← hqueues]
      rfl
    rw [hread] at hparse'
    change parseMessages 64 limit _ _ (rekeyed keyMgr tek fhek
      { n with radio := (n.radio.tune kDiscoveryFreq).tune kDiscoveryFreq }) = _ at hparse'
    have htuned : Stays P n
        { n with radio := (n.radio.tune kDiscoveryFreq).tune kDiscoveryFreq } :=
      ⟨rfl, rfl, rfl, rfl, rfl, rfl, fun _ => rfl⟩
    obtain ⟨hstays, rfl, rfl⟩ := parseMessages_rekeyed hdec (discoveryRead_length n c) htuned
      (fun m hm => hopens hidle m (List.mem_append_left _ hm)) hparse hparse'
      fun m n r hr => ⟨stays_of_steps (onDiscoveryMessage_steps (List.mem_singleton_self m) hr),
        fun hsame => onDiscoveryMessage_rekeyed hdec hsame hr⟩
    cases r' with
    | error e =>
      obtain ⟨rfl, -⟩ := hrest
      obtain ⟨rfl, -⟩ := hrest'
      rfl
    | ok u =>
      refine (finishTick_rekeyed hdec (fun freq => ?_) (fun m hm hto => ?_) hrest hrest').1
      · -- both nodes have read the same samples on the discovery frequency
        have hsent : ∀ (n : RadioNode σ κ Q) (c : SimChannel S) freq,
            (n.sendBeacon P now c).2.buffered n.radio.radioId freq =
              c.buffered n.radio.radioId freq :=
          fun n c freq => SimRadioHal.buffered_transmit _ c _ freq
        have hsent' : ∀ freq, ((n.rekeyed keyMgr tek fhek).sendBeacon P now c').2.buffered
            n.radio.radioId freq = c'.buffered n.radio.radioId freq := hsent _ c'
        change (SimChannel.receive _ n.radio.radioId _ _).1.buffered _ _ = _
        rw [hstays.radioId, SimChannel.buffered_receive, SimChannel.buffered_receive, hsent,
          hsent, hsent', hsent', hqueues, hqueues]
      · rw [hopRead_finishTick c hstays] at hm
        rw [hstays.keyMgr hdec]
        refine hopens hidle m (List.mem_append_right _ hm) ⟨?_, hto.2⟩
        rw [← hto.1, addressed, addressed, hstays.id]

end Frames

end Opening

section Sending
variable {P : Platform S σ κ} {keyMgr : KeyManager σ} {tek fhek : Bytes}

/-- A start that gets no key for its sequencer, or none that it can use. -/
theorem start_of_error {n : RadioNode σ κ Q} {m : KeyManager σ} {result : Throws Bytes}
    {e : String} (hidle : n.state = .idle) (h : n.startFhek P = (m, result))
    (hnew : (result.bind fun fhek =>
      HopSequencer.new fhek kMinFreq kMaxFreq kChannelSpacing) = .error e) :
    n.start P = ({ n with keyMgr := m }, .error e) := by
  unfold startFhek at h
  unfold start
  rw [if_neg (not_not.mpr hidle)]
  rcases hkeys : inOrder (n.startKeys P) n.keyMgr with ⟨m₁, e₁ | u⟩
  · rw [hkeys] at h
    cases h
    cases hnew
    rfl
  · rw [hkeys] at h
    simp only [h]
    cases result with
    | error e' =>
      cases hnew
      rfl
    | ok key =>
      have hkey : HopSequencer.new key kMinFreq kMaxFreq kChannelSpacing = .error e := hnew
      simp only [hkey]

theorem start_of_ok {n : RadioNode σ κ Q} {m : KeyManager σ} {key : Bytes}
    {hopSeq : HopSequencer} (hidle : n.state = .idle) (h : n.startFhek P = (m, .ok key))
    (hnew : HopSequencer.new key kMinFreq kMaxFreq kChannelSpacing = .ok hopSeq) :
    n.start P =
      ({ n with
          keyMgr := m, hopSeq := some hopSeq
          radio := (n.radio.setTxEnabled true).configure ⟨kDiscoveryFreq, 48000, 25000, 10⟩
          scheduler := (n.scheduler.claimSlot (1 + (n.id - 1) % 14).toUInt8).1
          state := .listening }, .ok ()) := by
  unfold startFhek at h
  unfold start
  rw [if_neg (not_not.mpr hidle)]
  rcases hkeys : inOrder (n.startKeys P) n.keyMgr with ⟨m₁, e₁ | u⟩
  · rw [hkeys] at h
    cases h
  · rw [hkeys] at h
    simp only [h, hnew]

theorem start_keyMgr (n : RadioNode σ κ Q) :
    (n.start P).1.keyMgr = if n.state = .idle then (n.startFhek P).1 else n.keyMgr := by
  split
  · next hidle =>
    rcases hkeys : n.startFhek P with ⟨m, e | key⟩
    · rw [start_of_error hidle hkeys rfl]
    · cases hnew : HopSequencer.new key kMinFreq kMaxFreq kChannelSpacing with
      | error e => rw [start_of_error hidle hkeys hnew]
      | ok hopSeq => rw [start_of_ok hidle hkeys hnew]
  · next hstarted =>
    unfold start
    rw [if_pos hstarted]

theorem startFhek_congr {n n' : RadioNode σ κ Q} (hkeys : n'.keyMgr = n.keyMgr)
    (hprovisioned : n'.keysProvisioned = n.keysProvisioned)
    (h : n.keysProvisioned = true → n'.provisionedTek = n.provisionedTek ∧
      n'.provisionedFhek = n.provisionedFhek) : n'.startFhek P = n.startFhek P := by
  have hstart : n'.startKeys P = n.startKeys P := by
    unfold startKeys
    rw [hprovisioned, hkeys]
    split
    · next hyes => rw [(h hyes).1, (h hyes).2]
    · rfl
  unfold startFhek
  rw [hstart, hkeys]

/-- A start under other keys, if its sequencer gets the same key. -/
theorem start_rekeyed {n : RadioNode σ κ Q} (h : n.state = .idle →
      ((n.rekeyed keyMgr tek fhek).startFhek P).2.toOption = (n.startFhek P).2.toOption) :
    ∃ m, ((n.rekeyed keyMgr tek fhek).start P).1 = (n.start P).1.rekeyed m tek fhek := by
  by_cases hidle : n.state = .idle
  · have hidle' : (n.rekeyed keyMgr tek fhek).state = .idle := hidle
    have hsame := h hidle
    rcases hkeys : n.startFhek P with ⟨m, e | key⟩
    · rcases hkeys' : (n.rekeyed keyMgr tek fhek).startFhek P with ⟨m', e' | key'⟩
      · rw [start_of_error hidle hkeys rfl, start_of_error hidle' hkeys' rfl]
        exact ⟨m', rfl⟩
      · rw [hkeys, hkeys'] at hsame
        cases hsame
    · rcases hkeys' : (n.rekeyed keyMgr tek fhek).startFhek P with ⟨m', e' | key'⟩
      · rw [hkeys, hkeys'] at hsame
        cases hsame
      · rw [hkeys, hkeys'] at hsame
        cases hsame
        cases hnew : HopSequencer.new key kMinFreq kMaxFreq kChannelSpacing with
        | error e =>
          rw [start_of_error hidle hkeys hnew, start_of_error hidle' hkeys' hnew]
          exact ⟨m', rfl⟩
        | ok hopSeq =>
          rw [start_of_ok hidle hkeys hnew, start_of_ok hidle' hkeys' hnew]
          exact ⟨m', rfl⟩
  · have hstarted : (n.rekeyed keyMgr tek fhek).state ≠ .idle := hidle
    unfold start
    rw [if_pos hidle, if_pos hstarted]
    exact ⟨keyMgr, rfl⟩

theorem sealed_freq {n : RadioNode σ κ Q} {msgType : UInt8} {dest : UInt32}
    {payload : Bytes} {m : Frequency × MessageHeader × Bytes}
    (h : n.sealed P msgType dest payload = some m) : ∃ hopSeq, n.hopSeq = some hopSeq ∧
      hopSeq.getHopFrequency P.aes 0 n.frameNumber 0 = .ok m.1 := by
  unfold sealed at h
  split at h
  · next hopSeq _ hseq =>
    split at h
    · cases h
    · next freq hfreq =>
      cases h
      exact ⟨hopSeq, hseq, hfreq⟩
  · cases h

/-- Data and voice are sent on the hop frequency. -/
theorem onAir_freq {n : RadioNode σ κ Q} {call : NodeCall}
    {m : Frequency × MessageHeader × Bytes} (hframe : ∀ now, call ≠ .tick now)
    (h : n.onAir P call = some m) : ∃ hopSeq, n.hopSeq = some hopSeq ∧
      hopSeq.getHopFrequency P.aes 0 n.frameNumber 0 = .ok m.1 := by
  cases call with
  | tick now => exact (hframe now rfl).elim
  | sendData dest payload =>
    by_cases hmute : n.state = .idle ∨ n.keyMgr.isInitialized = false
    · simp [onAir, hmute] at h
    · simp only [onAir, if_neg hmute] at h
      exact sealed_freq h
  | voiceTx dest audio =>
    by_cases hmute : n.state = .idle ∨ n.keyMgr.isInitialized = false
    · simp [onAir, hmute] at h
    · simp only [onAir, if_neg hmute] at h
      split at h
      · cases h
      · exact sealed_freq h
  | provisionKeys tek fhek => cases h
  | start => cases h
  | receiveData => cases h
  | voiceRx => cases h

/-- Data and voice are sent on the same frequency under all keys. -/
theorem tunedTo_rekeyed {n : RadioNode σ κ Q} {call : NodeCall}
    (hframe : ∀ now, call ≠ .tick now)
    (h : ((n.rekeyed keyMgr tek fhek).onAir P call).isSome = (n.onAir P call).isSome) :
    (n.rekeyed keyMgr tek fhek).tunedTo ((n.rekeyed keyMgr tek fhek).onAir P call) =
      n.tunedTo (n.onAir P call) := by
  cases hmine : n.onAir P call with
  | none =>
    rw [hmine, Option.isSome_none, Option.isSome_eq_false_iff, Option.isNone_iff_eq_none] at h
    rw [h]
    rfl
  | some m =>
    rw [hmine, Option.isSome_some, Option.isSome_iff_exists] at h
    obtain ⟨m', hother⟩ := h
    obtain ⟨hopSeq, hseq, hfreq⟩ := onAir_freq hframe hmine
    obtain ⟨hopSeq', hseq', hfreq'⟩ := onAir_freq hframe hother
    have heq : some hopSeq' = some hopSeq := hseq'.symm.trans hseq
    cases heq
    have hsame : m'.1 = m.1 := Except.ok.inj (hfreq'.symm.trans hfreq)
    rw [hother, tunedTo, tunedTo, Option.elim_some, Option.elim_some, hsame]
    rfl

theorem sendData_keyMgr (dest : UInt32) (payload : Bytes) (n : RadioNode σ κ Q)
    (c : SimChannel S) :
    (n.sendData P dest payload c).1.keyMgr =
      if n.state = .idle ∨ n.keyMgr.isInitialized = false then n.keyMgr
      else (KeyManager.encryptWithTek P.hsm payload n.keyMgr).1 := by
  by_cases hmute : n.state = .idle ∨ n.keyMgr.isInitialized = false
  · simp only [sendData, if_pos hmute]
  · simp only [sendData, if_neg hmute, sendEncrypted_tuned]

theorem voiceTx_keyMgr (dest : UInt32) (audio : List Int16) (n : RadioNode σ κ Q)
    (c : SimChannel S) :
    (n.voiceTx P dest audio c).1.keyMgr =
      if n.state = .idle ∨ n.keyMgr.isInitialized = false then n.keyMgr
      else (n.voiceCodec.encode P.codec2 audio).2.toOption.elim n.keyMgr fun encoded =>
        (KeyManager.encryptWithTek P.hsm encoded n.keyMgr).1 := by
  by_cases hmute : n.state = .idle ∨ n.keyMgr.isInitialized = false
  · simp only [voiceTx, if_pos hmute]
  · simp only [voiceTx, if_neg hmute]
    rcases n.voiceCodec.encode P.codec2 audio with ⟨voiceCodec, e | encoded⟩
    · rfl
    · simp only [sendEncrypted_tuned]
      rfl

theorem sendData_tuned (dest : UInt32) (payload : Bytes) (n : RadioNode σ κ Q)
    (c : SimChannel S) :
    (n.sendData P dest payload c).1 =
      { n with
          keyMgr := (n.sendData P dest payload c).1.keyMgr
          radio := n.tunedTo (n.onAir P (.sendData dest payload)) } := by
  by_cases hmute : n.state = .idle ∨ n.keyMgr.isInitialized = false
  · simp only [sendData, onAir, if_pos hmute]
    rfl
  · simp only [sendData, onAir, if_neg hmute, sendEncrypted_tuned]

theorem voiceTx_tuned (dest : UInt32) (audio : List Int16) (n : RadioNode σ κ Q)
    (c : SimChannel S) :
    (n.voiceTx P dest audio c).1 =
      { n with
          keyMgr := (n.voiceTx P dest audio c).1.keyMgr
          voiceCodec :=
            if n.state = .idle ∨ n.keyMgr.isInitialized = false then n.voiceCodec
            else (n.voiceCodec.encode P.codec2 audio).1
          radio := n.tunedTo (n.onAir P (.voiceTx dest audio)) } := by
  by_cases hmute : n.state = .idle ∨ n.keyMgr.isInitialized = false
  · simp only [voiceTx, onAir, if_pos hmute]
    rfl
  · simp only [voiceTx, onAir, if_neg hmute]
    rcases n.voiceCodec.encode P.codec2 audio with ⟨voiceCodec, e | encoded⟩
    · rfl
    · simp only [sendEncrypted_tuned]
      rfl

theorem sendData_rekeyed {n : RadioNode σ κ Q} {dest : UInt32} {payload : Bytes}
    (h : ((n.rekeyed keyMgr tek fhek).onAir P (.sendData dest payload)).isSome =
      (n.onAir P (.sendData dest payload)).isSome) (c c' : SimChannel S) :
    ((n.rekeyed keyMgr tek fhek).sendData P dest payload c').1 =
      (n.sendData P dest payload c).1.rekeyed
        ((n.rekeyed keyMgr tek fhek).sendData P dest payload c').1.keyMgr tek fhek := by
  have hframe : ∀ now, NodeCall.sendData dest payload ≠ .tick now := by
    intro now heq
    cases heq
  rw [sendData_tuned, sendData_tuned dest payload n, tunedTo_rekeyed hframe h]
  rfl

theorem voiceTx_rekeyed {n : RadioNode σ κ Q} {dest : UInt32} {audio : List Int16}
    (hinit : n.state ≠ .idle → keyMgr.isInitialized = n.keyMgr.isInitialized)
    (h : ((n.rekeyed keyMgr tek fhek).onAir P (.voiceTx dest audio)).isSome =
      (n.onAir P (.voiceTx dest audio)).isSome) (c c' : SimChannel S) :
    ((n.rekeyed keyMgr tek fhek).voiceTx P dest audio c').1 =
      (n.voiceTx P dest audio c).1.rekeyed
        ((n.rekeyed keyMgr tek fhek).voiceTx P dest audio c').1.keyMgr tek fhek := by
  have hframe : ∀ now, NodeCall.voiceTx dest audio ≠ .tick now := by
    intro now heq
    cases heq
  have hmute : ((n.rekeyed keyMgr tek fhek).state = .idle ∨
      (n.rekeyed keyMgr tek fhek).keyMgr.isInitialized = false) ↔
      (n.state = .idle ∨ n.keyMgr.isInitialized = false) := by
    by_cases hidle : n.state = .idle
    · exact iff_of_true (.inl hidle) (.inl hidle)
    · change n.state = .idle ∨ keyMgr.isInitialized = false ↔ _
      rw [hinit hidle]
  rw [voiceTx_tuned, voiceTx_tuned dest audio n, tunedTo_rekeyed hframe h]
  simp only [hmute]
  rfl

end Sending

section Calls
variable (P : Platform S σ κ)

/-- The same node but for the keys. -/
def SameButKeys (n n' : RadioNode σ κ Q) : Prop :=
  n' = n.rekeyed n'.keyMgr n'.provisionedTek n'.provisionedFhek

/-- The same call, or both provision keys. -/
inductive SameCall : NodeCall → NodeCall → Prop
  | same (call : NodeCall) : SameCall call call
  | provisionKeys (tek fhek tek' fhek' : Bytes) :
      SameCall (.provisionKeys tek fhek) (.provisionKeys tek' fhek')

/-- The keys of two nodes yield the same in a call: the same key for the sequencer or none,
the same plaintexts of the messages that are read for the node, a message to send or none. -/
def Agree (n n' : RadioNode σ κ Q) (c : SimChannel S) : NodeCall → Prop
  | .start => n.state = .idle → (n'.startFhek P).2.toOption = (n.startFhek P).2.toOption
  | .tick _ => n.state ≠ .idle → ∀ m ∈ frameMessages P n c, n.Opens m →
      decrypted P n'.keyMgr m.2 = decrypted P n.keyMgr m.2
  | .sendData dest payload => (n'.onAir P (.sendData dest payload)).isSome =
      (n.onAir P (.sendData dest payload)).isSome
  | .voiceTx dest audio =>
      (n.state ≠ .idle → n'.keyMgr.isInitialized = n.keyMgr.isInitialized) ∧
        (n'.onAir P (.voiceTx dest audio)).isSome = (n.onAir P (.voiceTx dest audio)).isSome
  | _ => True

end Calls

theorem SameButKeys.withKeyMgr {n n' : RadioNode σ κ Q} (h : SameButKeys n n')
    (keyMgr keyMgr' : KeyManager σ) :
    SameButKeys { n with keyMgr } { n' with keyMgr := keyMgr' } := by
  rw [SameButKeys] at h
  generalize n'.keyMgr = k, n'.provisionedTek = tek, n'.provisionedFhek = fhek at h
  subst h
  rfl

section Rekeyed
variable [LT Q] [DecidableLT Q] [One Q] [Mul Q] [Zero Q] {P : Platform S σ κ}

/-- Where the keys of two nodes yield the same, a call leaves them the same but for keys. -/
theorem SameButKeys.call (hdec : DecryptsPurely P.hsm) {limit : ℕ}
    {n n' n₁ n₁' : RadioNode σ κ Q} {c c' d d' : SimChannel S} {call call' : NodeCall}
    (h : SameButKeys n n') (hsame : SameCall call call')
    (hqueues : ∀ freq, c'.buffered n.radio.radioId freq = c.buffered n.radio.radioId freq)
    (hagree : n.Agree P n' c call) (hcall : n.call P limit c call = some (n₁, d))
    (hcall' : n'.call P limit c' call' = some (n₁', d')) : SameButKeys n₁ n₁' := by
  rw [SameButKeys] at h
  generalize n'.keyMgr = keyMgr, n'.provisionedTek = tek, n'.provisionedFhek = fhek at h
  subst h
  cases hsame with
  | provisionKeys tek fhek tek' fhek' =>
    cases hcall
    cases hcall'
    rfl
  | same call =>
    cases call with
    | tick now =>
      obtain ⟨⟨m, e, r⟩, hr, heq⟩ := Option.map_eq_some_iff.mp hcall
      obtain ⟨⟨m', e', r'⟩, hr', heq'⟩ := Option.map_eq_some_iff.mp hcall'
      cases heq
      cases heq'
      rw [tick_rekeyed hdec hqueues hagree hr hr']
      rfl
    | start =>
      cases hcall
      cases hcall'
      obtain ⟨m, hm⟩ := start_rekeyed hagree
      rw [hm]
      rfl
    | sendData dest payload =>
      cases hcall
      cases hcall'
      rw [sendData_rekeyed hagree c c']
      rfl
    | voiceTx dest audio =>
      cases hcall
      cases hcall'
      obtain ⟨hinit, hair⟩ := hagree
      have hinit' : n.state ≠ .idle → keyMgr.isInitialized = n.keyMgr.isInitialized := hinit
      rw [voiceTx_rekeyed hinit' hair c c']
      rfl
    | provisionKeys tek fhek => cases hcall; cases hcall'; rfl
    | receiveData => cases hcall; cases hcall'; rfl
    | voiceRx => cases hcall; cases hcall'; rfl

theorem tick_keyMgr (hdec : DecryptsPurely P.hsm) {limit now : ℕ} {n n' : RadioNode σ κ Q}
    {c c' : SimChannel S} {result : Throws Unit}
    (h : n.tick P limit now c = some (n', c', result)) : n'.keyMgr = n.keyMgr := by
  by_cases hidle : n.state = .idle
  · rw [tick_of_idle hidle] at h
    cases h
    rfl
  · obtain ⟨⟨n₁, hsteps, hn'⟩, -⟩ := tick_steps hidle h
    rw [← (stays_of_steps hsteps).keyMgr hdec]
    rcases hn' with hn' | hn'
    · rw [hn']
    · rw [hn']
      rfl

/-- With the same keys, a call leaves them the same, if the keys that a start takes in are
the same. -/
theorem SameButKeys.keyMgr_call (hdec : DecryptsPurely P.hsm) {limit : ℕ}
    {n n' n₁ n₁' : RadioNode σ κ Q} {c c' d d' : SimChannel S} {call call' : NodeCall}
    (h : SameButKeys n n') (hsame : SameCall call call') (hkeys : n'.keyMgr = n.keyMgr)
    (hstart : call = .start → n.keysProvisioned = true →
      n'.provisionedTek = n.provisionedTek ∧ n'.provisionedFhek = n.provisionedFhek)
    (hcall : n.call P limit c call = some (n₁, d))
    (hcall' : n'.call P limit c' call' = some (n₁', d')) : n₁'.keyMgr = n₁.keyMgr := by
  rw [SameButKeys, hkeys] at h
  generalize n'.provisionedTek = tek, n'.provisionedFhek = fhek at h hstart
  subst h
  cases hsame with
  | provisionKeys tek fhek tek' fhek' =>
    cases hcall
    cases hcall'
    rfl
  | same call =>
    cases call with
    | tick now =>
      obtain ⟨⟨m, e, r⟩, hr, heq⟩ := Option.map_eq_some_iff.mp hcall
      obtain ⟨⟨m', e', r'⟩, hr', heq'⟩ := Option.map_eq_some_iff.mp hcall'
      cases heq
      cases heq'
      rw [tick_keyMgr hdec hr, tick_keyMgr hdec hr']
      rfl
    | start =>
      cases hcall
      cases hcall'
      have hkeys' : (n.rekeyed n.keyMgr tek fhek).startFhek P = n.startFhek P :=
        startFhek_congr rfl rfl (hstart rfl)
      rw [start_keyMgr, start_keyMgr, hkeys']
      rfl
    | sendData dest payload =>
      cases hcall
      cases hcall'
      rw [sendData_keyMgr, sendData_keyMgr]
      rfl
    | voiceTx dest audio =>
      cases hcall
      cases hcall'
      rw [voiceTx_keyMgr, voiceTx_keyMgr]
      rfl
    | provisionKeys tek fhek => cases hcall; cases hcall'; rfl
    | receiveData => cases hcall; cases hcall'; rfl
    | voiceRx => cases hcall; cases hcall'; rfl

end Rekeyed
end RadioNode
end Cirradio.Node
