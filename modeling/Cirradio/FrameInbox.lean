import Cirradio.FrameSteps

/-!
# The inbox of a frame

A frame that ends normally adds to the inbox the entries of the messages it has read, in
their order: one for each data message for the node that decrypts.
-/

namespace Cirradio.Node
open Security Hal Network Tdma Voice Fhss

namespace RadioNode
variable {S σ κ Q : Type}

section Entries
variable (P : Platform S σ κ)

/-- The entry of a data message, if it decrypts. -/
def opened (n : RadioNode σ κ Q) (hdr : MessageHeader) (payload : Bytes) :
    Option ReceivedData :=
  if n.keyMgr.isInitialized then
    match (KeyManager.decryptWithTek P.hsm payload n.keyMgr).2 with
    | .ok (some plaintext) => some ⟨hdr.srcNode, plaintext⟩
    | _ => none
  else none

/-- The entry of a message. -/
def delivered (n : RadioNode σ κ Q) (m : MessageHeader × Bytes) : Option ReceivedData :=
  if m.1.msgType = kMsgTypeData ∧ n.addressed m.1 = true then n.opened P m.1 m.2 else none

end Entries

variable {P : Platform S σ κ}

theorem delivered_congr {n n' : RadioNode σ κ Q} (hid : n'.id = n.id)
    (hkeys : n'.keyMgr = n.keyMgr) : n'.delivered P = n.delivered P := by
  funext m
  unfold delivered opened addressed
  rw [hid, hkeys]

theorem eq_of_opened {n : RadioNode σ κ Q} {hdr : MessageHeader} {payload : Bytes}
    {e : ReceivedData} (h : n.opened P hdr payload = some e) : e.source = hdr.srcNode ∧
      (KeyManager.decryptWithTek P.hsm payload n.keyMgr).2 = .ok (some e.payload) := by
  unfold opened at h
  split at h
  · split at h
    · next hplain =>
      cases h
      exact ⟨rfl, hplain⟩
    · cases h
  · cases h

theorem delivered_of_ne (n : RadioNode σ κ Q) {m : MessageHeader × Bytes}
    (h : m.1.msgType ≠ kMsgTypeData) : n.delivered P m = none := if_neg fun hm => h hm.1

theorem openData_inbox (hdr : MessageHeader) (payload : Bytes) (n : RadioNode σ κ Q) :
    (n.openData P hdr payload).1.dataInbox =
      n.dataInbox ++ (n.opened P hdr payload).toList := by
  unfold openData opened
  split
  · rcases KeyManager.decryptWithTek P.hsm payload n.keyMgr with ⟨keyMgr, e | _ | plaintext⟩
    · exact (List.append_nil _).symm
    · exact (List.append_nil _).symm
    · rfl
  · exact (List.append_nil _).symm

theorem openVoice_inbox (hdr : MessageHeader) (payload : Bytes) (n : RadioNode σ κ Q) :
    (n.openVoice P hdr payload).1.dataInbox = n.dataInbox := by
  obtain ⟨keyMgr, voiceCodec, voiceInbox, hnode, -⟩ := openVoice_node hdr payload n (P := P)
  rw [hnode]

theorem onHopMessage_inbox (hdr : MessageHeader) (payload : Bytes) (n : RadioNode σ κ Q) :
    (n.onHopMessage P hdr payload).1.dataInbox =
      n.dataInbox ++ (n.delivered P (hdr, payload)).toList := by
  unfold onHopMessage
  split
  · next hdata =>
    rw [Bool.and_eq_true, beq_iff_eq] at hdata
    rw [delivered, if_pos hdata]
    exact openData_inbox hdr payload n
  · next hdata =>
    rw [Bool.and_eq_true, beq_iff_eq] at hdata
    rw [delivered, if_neg hdata, Option.toList_none, List.append_nil]
    split
    · exact openVoice_inbox hdr payload n
    · rfl

theorem onHopMessage_stays (hdr : MessageHeader) (payload : Bytes) (n : RadioNode σ κ Q) :
    Stays P n (n.onHopMessage P hdr payload).1 := by
  unfold onHopMessage
  split
  · exact openData_stays hdr payload n
  · split
    · exact openVoice_stays hdr payload n
    · exact .refl n

/-- A loop that ends normally adds the entries of the messages. -/
theorem parseMessages_inbox {limit : ℕ} (hdec : DecryptsPurely P.hsm) {n n' : RadioNode σ κ Q}
    {onMessage : OnMessage (RadioNode σ κ Q)} {rxData : Bytes}
    (hsize : rxData.length + 13 + 2 ^ 32 ≤ 2 ^ 64)
    (hvisit : ∀ hdr payload n r, (hdr, payload) ∈ messages rxData →
      onMessage hdr payload n = some r → Stays P n r.1 ∧
        r.1.dataInbox = n.dataInbox ++ (n.delivered P (hdr, payload)).toList)
    (h : parseMessages 64 limit onMessage rxData n = some (n', .ok ())) :
    Stays P n n' ∧ n'.dataInbox = n.dataInbox ++ (messages rxData).filterMap (n.delivered P) := by
  have hloop := parseMessages_induction hsize
    (fun later node => (∀ m ∈ later, m ∈ messages rxData) ∧ Stays P n node ∧
      node.dataInbox ++ later.filterMap (n.delivered P) =
        n.dataInbox ++ (messages rxData).filterMap (n.delivered P))
    (fun _ => True) ?_ (fun _ _ _ _ _ _ _ => trivial) ⟨fun _ hm => hm, .refl n, rfl⟩ h
  · obtain ⟨-, hstays, hinbox⟩ := hloop
    rw [List.filterMap_nil, List.append_nil] at hinbox
    exact ⟨hstays, hinbox⟩
  · rintro ⟨hdr, payload⟩ later node node' ⟨hlater, hstays, hinbox⟩ hvisited
    obtain ⟨hmore, hadded⟩ := hvisit hdr payload node _ (hlater _ List.mem_cons_self) hvisited
    rw [delivered_congr hstays.id (hstays.keyMgr hdec)] at hadded
    refine ⟨fun m hm => hlater m (List.mem_cons_of_mem _ hm), hstays.trans hmore, ?_⟩
    rw [← hinbox]
    rw [hadded, List.append_assoc]
    congr 1
    cases hentry : n.delivered P (hdr, payload) with
    | none => rw [List.filterMap_cons_none hentry]; rfl
    | some e => rw [List.filterMap_cons_some hentry]; rfl

theorem finishTick_inbox {limit : ℕ} (hdec : DecryptsPurely P.hsm) {n n' : RadioNode σ κ Q}
    {c c' : SimChannel S} (h : n.finishTick P limit c = some (n', c', .ok ())) :
    n'.dataInbox = n.dataInbox ++ (messages (hopRead P n c)).filterMap (n.delivered P) := by
  rcases finishTick_eq_some h with ⟨hnone, -, rfl⟩ | ⟨freq, n₁, hparse, -, rfl⟩
  · rw [hnone, messages_nil]
    exact (List.append_nil _).symm
  · have hloop := parseMessages_inbox hdec (hopRead_length n c)
      (fun hdr payload n r hm hr => by
        cases hr
        exact ⟨onHopMessage_stays hdr payload n, onHopMessage_inbox hdr payload n⟩) hparse
    exact hloop.2

section Frames
variable [LT Q] [DecidableLT Q] [One Q] [Mul Q] [Zero Q] {limit now : ℕ}

theorem onBeacon_inbox {payload : Bytes} {n n' : RadioNode σ κ Q} {result : Throws Unit}
    (h : n.onBeacon limit now payload = some (n', result)) : n'.dataInbox = n.dataInbox := by
  obtain ⟨discovery, router, rfl, -⟩ := onBeacon_node h
  rfl

theorem onDiscoveryMessage_inbox {hdr : MessageHeader} {payload : Bytes} {n : RadioNode σ κ Q}
    {r : RadioNode σ κ Q × Throws Unit}
    (h : onDiscoveryMessage P limit now hdr payload n = some r) :
    r.1.dataInbox = n.dataInbox ++ (n.delivered P (hdr, payload)).toList := by
  by_cases hbeacon : (hdr.msgType == kMsgTypeBeacon && decide (9 ≤ hdr.payloadLen)) = true
  · simp only [onDiscoveryMessage, if_pos hbeacon] at h
    rw [Bool.and_eq_true, beq_iff_eq] at hbeacon
    have hdata : hdr.msgType ≠ kMsgTypeData := by
      rw [hbeacon.1]
      decide
    rw [delivered_of_ne n hdata, Option.toList_none, List.append_nil]
    exact onBeacon_inbox h
  · rw [onDiscoveryMessage_of_not_beacon payload n hbeacon] at h
    cases h
    exact onHopMessage_inbox hdr payload n

/-- A frame that ends normally adds the entries of the messages it reads. -/
theorem tick_inbox (hdec : DecryptsPurely P.hsm) {n n' : RadioNode σ κ Q}
    {c c' : SimChannel S} (hstarted : n.state ≠ .idle)
    (h : n.tick P limit now c = some (n', c', .ok ())) :
    n'.dataInbox = n.dataInbox ++ (frameMessages P n c).filterMap (n.delivered P) := by
  obtain ⟨n₁, result₁, hparse, hrest⟩ := tick_eq_some hstarted h
  cases result₁ with
  | error e =>
    obtain ⟨-, hresult, -⟩ := hrest
    cases hresult
  | ok u =>
    obtain ⟨hstays, hinbox⟩ := parseMessages_inbox hdec (discoveryRead_length n c)
      (fun hdr payload n r hm hr => ⟨stays_of_steps (onDiscoveryMessage_steps hm hr),
        onDiscoveryMessage_inbox hr⟩) hparse
    have htuned : Stays P n n₁ :=
      ⟨hstays.id, hstays.state, hstays.frameNumber, hstays.hopSeq, hstays.radioId,
        hstays.txEnabled, hstays.keyMgr⟩
    have hfinish := finishTick_inbox hdec hrest
    rw [hopRead_finishTick c htuned, delivered_congr htuned.id (htuned.keyMgr hdec)] at hfinish
    rw [hfinish, hinbox, frameMessages, List.filterMap_append, List.append_assoc]
    rfl

end Frames
end RadioNode
end Cirradio.Node
