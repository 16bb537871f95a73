import Cirradio.FrameInbox

/-!
# Quiet frames

A frame adds to an inbox exactly if it visits a message that enters one: a message for the
node whose payload decrypts, and decodes if it is voice. The messages behind a voice
message that cannot be decoded are not visited.
-/

namespace Cirradio.Node
open Security Hal Network Tdma Voice Fhss

namespace RadioNode
variable {S σ κ Q : Type}

section Messages
variable (P : Platform S σ κ)

/-- A message whose payload goes to an inbox. -/
def Enters (n : RadioNode σ κ Q) (m : MessageHeader × Bytes) : Prop :=
  n.addressed m.1 = true ∧ n.keyMgr.isInitialized = true ∧ ∃ plaintext,
    (KeyManager.decryptWithTek P.hsm m.2 n.keyMgr).2 = .ok (some plaintext) ∧
      (m.1.msgType = kMsgTypeData ∨
        m.1.msgType = kMsgTypeVoice ∧ intOfSize plaintext.length = P.codec2.bytesPerFrame)

/-- No message enters an inbox, up to the first that cannot be decoded. -/
def Quiet (n : RadioNode σ κ Q) : List (MessageHeader × Bytes) → Prop
  | [] => True
  | m :: later => ¬ n.Enters P m ∧ (n.VoiceFault P m ∨ Quiet n later)

end Messages

/-- What is added to the inboxes goes to their ends. -/
structure Grows (n n' : RadioNode σ κ Q) : Prop where
  dataInbox : n.dataInbox <+: n'.dataInbox
  voiceInbox : n.voiceInbox <+: n'.voiceInbox

/-- Nothing has been added to the inboxes. -/
structure SameInboxes (n n' : RadioNode σ κ Q) : Prop where
  dataInbox : n'.dataInbox = n.dataInbox
  voiceInbox : n'.voiceInbox = n.voiceInbox

theorem SameInboxes.refl (n : RadioNode σ κ Q) : SameInboxes n n := ⟨rfl, rfl⟩

theorem Grows.trans {n n' n'' : RadioNode σ κ Q} (h : Grows n n') (h' : Grows n' n'') :
    Grows n n'' :=
  ⟨h.dataInbox.trans h'.dataInbox, h.voiceInbox.trans h'.voiceInbox⟩

theorem SameInboxes.grows {n n' : RadioNode σ κ Q} (h : SameInboxes n n') : Grows n n' :=
  ⟨by rw [h.dataInbox], by rw [h.voiceInbox]⟩

theorem eq_of_prefix_of_eq {α : Type} {l l' l'' : List α} (h : l <+: l') (h' : l' <+: l'')
    (heq : l'' = l) : l' = l := by
  rw [heq] at h'
  exact h'.eq_of_length_le h.length_le

theorem Grows.sameInboxes_iff {n n' n'' : RadioNode σ κ Q} (h : Grows n n')
    (h' : Grows n' n'') : SameInboxes n n'' ↔ SameInboxes n n' ∧ SameInboxes n' n'' := by
  constructor
  · intro hsame
    have hdata := eq_of_prefix_of_eq h.dataInbox h'.dataInbox hsame.dataInbox
    have hvoice := eq_of_prefix_of_eq h.voiceInbox h'.voiceInbox hsame.voiceInbox
    exact ⟨⟨hdata, hvoice⟩, hsame.dataInbox.trans hdata.symm,
      hsame.voiceInbox.trans hvoice.symm⟩
  · rintro ⟨hfirst, hsecond⟩
    exact ⟨hsecond.dataInbox.trans hfirst.dataInbox,
      hsecond.voiceInbox.trans hfirst.voiceInbox⟩

theorem grows_of_append {n n' : RadioNode σ κ Q} {data : List ReceivedData}
    {voice : List ReceivedVoice} (hdata : n'.dataInbox = n.dataInbox ++ data)
    (hvoice : n'.voiceInbox = n.voiceInbox ++ voice) :
    Grows n n' ∧ (SameInboxes n n' ↔ data = [] ∧ voice = []) := by
  refine ⟨⟨⟨data, hdata.symm⟩, ⟨voice, hvoice.symm⟩⟩, ⟨fun h => ?_, fun h => ?_⟩⟩
  · exact ⟨List.append_right_eq_self.mp (hdata.symm.trans h.dataInbox),
      List.append_right_eq_self.mp (hvoice.symm.trans h.voiceInbox)⟩
  · rw [h.1, List.append_nil] at hdata
    rw [h.2, List.append_nil] at hvoice
    exact ⟨hdata, hvoice⟩

section Visits
variable {P : Platform S σ κ}

/-- What opening a voice message adds to the inbox. -/
theorem openVoice_voiceInbox (hdr : MessageHeader) (payload : Bytes) (n : RadioNode σ κ Q) :
    ∃ voice, (n.openVoice P hdr payload).1.voiceInbox = n.voiceInbox ++ voice ∧
      (voice = [] ↔ ¬ (n.keyMgr.isInitialized = true ∧ ∃ plaintext,
        (KeyManager.decryptWithTek P.hsm payload n.keyMgr).2 = .ok (some plaintext) ∧
          intOfSize plaintext.length = P.codec2.bytesPerFrame)) := by
  unfold openVoice
  split
  · next hinit =>
    simp only [hinit, true_and]
    rcases KeyManager.decryptWithTek P.hsm payload n.keyMgr with ⟨keyMgr, e | _ | plaintext⟩
    · exact ⟨[], (List.append_nil _).symm, iff_of_true rfl (by simp)⟩
    · exact ⟨[], (List.append_nil _).symm, iff_of_true rfl (by simp)⟩
    · by_cases hframe : intOfSize plaintext.length = P.codec2.bytesPerFrame
      · have hdecode : n.voiceCodec.decode P.codec2 plaintext =
            (⟨(P.codec2.decode n.voiceCodec.codec2 plaintext).1⟩,
              .ok (P.codec2.decode n.voiceCodec.codec2 plaintext).2) :=
          if_neg (not_not.mpr hframe)
        simp only [hdecode]
        exact ⟨_, rfl, iff_of_false (List.cons_ne_nil _ _) (by simp [hframe])⟩
      · have hdecode : n.voiceCodec.decode P.codec2 plaintext =
            (n.voiceCodec, .error "Input data size does not match expected frame bytes") :=
          if_pos hframe
        simp only [hdecode]
        exact ⟨[], (List.append_nil _).symm, iff_of_true rfl (by simp [hframe])⟩
  · next hinit => exact ⟨[], (List.append_nil _).symm, iff_of_true rfl (by simp [hinit])⟩

theorem enters_congr {n n' : RadioNode σ κ Q} (hid : n'.id = n.id)
    (hkeys : n'.keyMgr = n.keyMgr) (m : MessageHeader × Bytes) :
    n'.Enters P m ↔ n.Enters P m := by
  unfold Enters addressed
  rw [hid, hkeys]

theorem voiceFault_congr {n n' : RadioNode σ κ Q} (hid : n'.id = n.id)
    (hkeys : n'.keyMgr = n.keyMgr) (m : MessageHeader × Bytes) :
    n'.VoiceFault P m ↔ n.VoiceFault P m := by
  unfold VoiceFault Undecodable addressed
  rw [hid, hkeys]

theorem quiet_congr {n n' : RadioNode σ κ Q} (hid : n'.id = n.id)
    (hkeys : n'.keyMgr = n.keyMgr) {ms : List (MessageHeader × Bytes)} :
    n'.Quiet P ms ↔ n.Quiet P ms := by
  induction ms with
  | nil => rfl
  | cons m later ih =>
    rw [Quiet, Quiet, enters_congr hid hkeys, voiceFault_congr hid hkeys, ih]

/-- What is true of the visit of a message. -/
structure Visited (P : Platform S σ κ) (n : RadioNode σ κ Q) (m : MessageHeader × Bytes)
    (r : RadioNode σ κ Q × Throws Unit) : Prop where
  stays : Stays P n r.1
  grows : Grows n r.1
  sameInboxes : SameInboxes n r.1 ↔ ¬ n.Enters P m
  ok : r.2 = .ok () ↔ ¬ n.VoiceFault P m

theorem Visited.of_skip {n n' : RadioNode σ κ Q} {m : MessageHeader × Bytes}
    (hstays : Stays P n n') (hsame : SameInboxes n n')
    (hskip : n.addressed m.1 = true →
      m.1.msgType ≠ kMsgTypeData ∧ m.1.msgType ≠ kMsgTypeVoice) :
    Visited P n m (n', .ok ()) where
  stays := hstays
  grows := hsame.grows
  sameInboxes := by
    refine iff_of_true hsame ?_
    rintro ⟨hto, -, plaintext, -, hdata | ⟨hvoice, -⟩⟩
    · exact (hskip hto).1 hdata
    · exact (hskip hto).2 hvoice
  ok := iff_of_true rfl fun hfault => (hskip hfault.2.1).2 hfault.1

/-- Opening a data message adds it to the inbox if it decrypts. -/
theorem openData_visited (hdec : DecryptsPurely P.hsm) {hdr : MessageHeader}
    (hdata : hdr.msgType = kMsgTypeData) (payload : Bytes) {n : RadioNode σ κ Q}
    (hto : n.addressed hdr = true) :
    Visited P n (hdr, payload) (n.openData P hdr payload) := by
  have hvoice : hdr.msgType ≠ kMsgTypeVoice := by
    rw [hdata]
    decide
  obtain ⟨n', hopen, -⟩ := openData_ok hdec n hdr payload
  have hstays := openData_stays hdr payload n (P := P)
  have hinbox := openData_inbox hdr payload n (P := P)
  obtain ⟨keyMgr, dataInbox, hnode, -⟩ := openData_node hdr payload n (P := P)
  have hother : (n.openData P hdr payload).1.voiceInbox = n.voiceInbox ++ [] := by
    rw [hnode, List.append_nil]
  obtain ⟨hgrows, hsame⟩ := grows_of_append hinbox hother
  have hopened : (n.opened P hdr payload).toList = [] ↔ ¬ n.Enters P (hdr, payload) := by
    rw [Option.toList_eq_nil_iff, ← not_iff_not, not_not, ← ne_eq, Option.ne_none_iff_exists']
    constructor
    · rintro ⟨e, he⟩
      have hinit : n.keyMgr.isInitialized = true := by
        by_contra hno
        simp [opened, hno] at he
      exact ⟨hto, hinit, e.payload, (eq_of_opened he).2, .inl hdata⟩
    · rintro ⟨-, hinit, plaintext, hplain, -⟩
      exact ⟨⟨hdr.srcNode, plaintext⟩, by simp [opened, hinit, hplain]⟩
  refine ⟨hstays, hgrows, ?_, ?_⟩
  · rw [hsame, hopened, and_iff_left rfl]
  · rw [hopen]
    exact iff_of_true rfl fun hfault => hvoice hfault.1

/-- Opening a voice message adds it to the inbox if it decrypts and decodes. -/
theorem openVoice_visited (hdec : DecryptsPurely P.hsm) {hdr : MessageHeader}
    (hvoice : hdr.msgType = kMsgTypeVoice) (payload : Bytes) {n : RadioNode σ κ Q}
    (hto : n.addressed hdr = true) :
    Visited P n (hdr, payload) (n.openVoice P hdr payload) := by
  have hdata : hdr.msgType ≠ kMsgTypeData := by
    rw [hvoice]
    decide
  have hinbox : (n.openVoice P hdr payload).1.dataInbox = n.dataInbox ++ [] := by
    rw [openVoice_inbox, List.append_nil]
  obtain ⟨voice, hadded, hnone⟩ := openVoice_voiceInbox hdr payload n (P := P)
  obtain ⟨hgrows, hsame⟩ := grows_of_append hinbox hadded
  obtain ⟨n', result, hopen, -, hok⟩ := openVoice_spec hdec n hdr payload
  refine ⟨openVoice_stays hdr payload n, hgrows, ?_, ?_⟩
  · rw [hsame, and_iff_right rfl, hnone]
    refine not_congr ⟨?_, ?_⟩
    · rintro ⟨hinit, plaintext, hplain, hframe⟩
      exact ⟨hto, hinit, plaintext, hplain, .inr ⟨hvoice, hframe⟩⟩
    · rintro ⟨-, hinit, plaintext, hplain, hd | ⟨-, hframe⟩⟩
      · exact (hdata hd).elim
      · exact ⟨hinit, plaintext, hplain, hframe⟩
  · rw [hopen, hok]
    exact not_congr ⟨fun h => ⟨hvoice, hto, h⟩, fun h => h.2.2⟩

theorem onHopMessage_visited (hdec : DecryptsPurely P.hsm) (hdr : MessageHeader)
    (payload : Bytes) (n : RadioNode σ κ Q) :
    Visited P n (hdr, payload) (n.onHopMessage P hdr payload) := by
  unfold onHopMessage
  split
  · next hdata =>
    rw [Bool.and_eq_true, beq_iff_eq] at hdata
    exact openData_visited hdec hdata.1 payload hdata.2
  · next hdata =>
    rw [Bool.and_eq_true, beq_iff_eq] at hdata
    split
    · next hvoice =>
      rw [Bool.and_eq_true, beq_iff_eq] at hvoice
      exact openVoice_visited hdec hvoice.1 payload hvoice.2
    · next hvoice =>
      rw [Bool.and_eq_true, beq_iff_eq] at hvoice
      exact .of_skip (.refl n) (.refl n) fun hto =>
        ⟨fun h => hdata ⟨h, hto⟩, fun h => hvoice ⟨h, hto⟩⟩

/-- A loop that visits the messages, and whatever messages a later loop would visit: nothing
is added in the loop, and if it ends normally the later messages are quiet, exactly if all
of them are quiet. -/
theorem parseMessages_quiet {limit : ℕ} (hdec : DecryptsPurely P.hsm)
    {n tuned n' : RadioNode σ κ Q} {onMessage : OnMessage (RadioNode σ κ Q)} {rxData : Bytes}
    {result : Throws Unit} (hsize : rxData.length + 13 + 2 ^ 32 ≤ 2 ^ 64)
    (h : parseMessages 64 limit onMessage rxData tuned = some (n', result))
    (hvisit : ∀ m n r, onMessage m.1 m.2 n = some r → Visited P n m r)
    (hstays : Stays P n tuned) (hsame : SameInboxes n tuned) (rest : List (MessageHeader × Bytes)) :
    Stays P n n' ∧ Grows n n' ∧ (n.Quiet P (messages rxData ++ rest) ↔
      SameInboxes n n' ∧ (result = .ok () → n.Quiet P rest)) := by
  have hloop := parseMessages_induction hsize
    (fun later node => Stays P n node ∧ Grows n node ∧
      (n.Quiet P (messages rxData ++ rest) ↔ SameInboxes n node ∧ n.Quiet P (later ++ rest)))
    (fun node => Stays P n node ∧ Grows n node ∧
      (n.Quiet P (messages rxData ++ rest) ↔ SameInboxes n node)) ?_ ?_
    ⟨hstays, hsame.grows, (and_iff_right hsame).symm⟩ h
  · cases result with
    | error e =>
      obtain ⟨hstays, hgrows, hquiet⟩ := hloop
      exact ⟨hstays, hgrows, by simp [hquiet]⟩
    | ok u =>
      obtain ⟨hstays, hgrows, hquiet⟩ := hloop
      exact ⟨hstays, hgrows, by simp [hquiet]⟩
  · -- a visit that does not throw
    rintro m later node node' ⟨hstays, hgrows, hquiet⟩ hvisited
    have hv := hvisit m node _ hvisited
    have henters := enters_congr hstays.id (hstays.keyMgr hdec) m (P := P)
    have hfault := voiceFault_congr hstays.id (hstays.keyMgr hdec) m (P := P)
    have hnone : ¬ n.VoiceFault P m := by
      rw [← hfault]
      exact hv.ok.mp rfl
    refine ⟨hstays.trans hv.stays, hgrows.trans hv.grows, ?_⟩
    rw [hquiet, hgrows.sameInboxes_iff hv.grows, hv.sameInboxes, henters, and_assoc,
      List.cons_append, Quiet, or_iff_right hnone]
  · -- a visit that throws
    rintro m later node node' e ⟨hstays, hgrows, hquiet⟩ hvisited
    have hv := hvisit m node _ hvisited
    have henters := enters_congr hstays.id (hstays.keyMgr hdec) m (P := P)
    have hfault := voiceFault_congr hstays.id (hstays.keyMgr hdec) m (P := P)
    have hfaulty : n.VoiceFault P m := by
      rw [← hfault]
      by_contra hno
      cases hv.ok.mpr hno
    refine ⟨hstays.trans hv.stays, hgrows.trans hv.grows, ?_⟩
    rw [hquiet, hgrows.sameInboxes_iff hv.grows, hv.sameInboxes, henters, List.cons_append,
      Quiet, and_iff_left (Or.inl hfaulty)]

theorem ended_sameInboxes (n : RadioNode σ κ Q) (result : Throws Unit) :
    SameInboxes n (n.ended result) := by
  cases result with
  | error e => exact .refl n
  | ok u => exact ⟨rfl, rfl⟩

theorem finishTick_quiet {limit : ℕ} (hdec : DecryptsPurely P.hsm) {n n' : RadioNode σ κ Q}
    {c c' : SimChannel S} {result : Throws Unit}
    (h : n.finishTick P limit c = some (n', c', result)) :
    Grows n n' ∧ (n.Quiet P (messages (hopRead P n c)) ↔ SameInboxes n n') := by
  rcases finishTick_eq_some h with ⟨hnone, -, rfl⟩ | ⟨freq, n₁, hparse, -, rfl⟩
  · have hsame := ended_sameInboxes n result
    rw [hnone, messages_nil]
    exact ⟨hsame.grows, iff_of_true trivial hsame⟩
  · obtain ⟨-, hgrows, hquiet⟩ := parseMessages_quiet (n := n) hdec (hopRead_length n c)
      hparse (fun m n r hr => by
        cases hr
        exact onHopMessage_visited hdec m.1 m.2 n)
      ⟨rfl, rfl, rfl, rfl, rfl, rfl, fun _ => rfl⟩ ⟨rfl, rfl⟩ []
    have hended := ended_sameInboxes n₁ result
    refine ⟨hgrows.trans hended.grows, ?_⟩
    rw [List.append_nil] at hquiet
    rw [hquiet, hgrows.sameInboxes_iff hended.grows, and_iff_left hended]
    exact and_iff_left fun _ => trivial

section Frames
variable [LT Q] [DecidableLT Q] [One Q] [Mul Q] [Zero Q] {limit now : ℕ}

theorem onBeacon_ok {payload : Bytes} {n n' : RadioNode σ κ Q} {result : Throws Unit}
    (h : n.onBeacon limit now payload = some (n', result)) : result = .ok () := by
  unfold onBeacon at h
  simp only at h
  split at h
  · obtain ⟨router, -, heq⟩ := Option.bind_eq_some_iff.mp h
    cases heq
    rfl
  · cases h
    rfl

theorem onDiscoveryMessage_visited (hdec : DecryptsPurely P.hsm) {m : MessageHeader × Bytes}
    {n : RadioNode σ κ Q} {r : RadioNode σ κ Q × Throws Unit}
    (h : onDiscoveryMessage P limit now m.1 m.2 n = some r) : Visited P n m r := by
  obtain ⟨hdr, payload⟩ := m
  by_cases hbeacon : (hdr.msgType == kMsgTypeBeacon && decide (9 ≤ hdr.payloadLen)) = true
  · simp only [onDiscoveryMessage, if_pos hbeacon] at h
    rw [Bool.and_eq_true, beq_iff_eq] at hbeacon
    obtain ⟨n', result⟩ := r
    cases onBeacon_ok h
    have hstays := onBeacon_stays h (P := P)
    obtain ⟨discovery, router, rfl, -⟩ := onBeacon_node h
    refine .of_skip hstays ⟨rfl, rfl⟩ fun _ => ?_
    rw [hbeacon.1]
    decide
  · rw [onDiscoveryMessage_of_not_beacon payload n hbeacon] at h
    cases h
    exact onHopMessage_visited hdec hdr payload n

/-- A frame adds nothing to the inboxes exactly if the messages it reads are quiet. -/
theorem tick_quiet (hdec : DecryptsPurely P.hsm) {n n' : RadioNode σ κ Q}
    {c c' : SimChannel S} {result : Throws Unit} (hstarted : n.state ≠ .idle)
    (h : n.tick P limit now c = some (n', c', result)) :
    SameInboxes n n' ↔ n.Quiet P (frameMessages P n c) := by
  obtain ⟨n₁, result₁, hparse, hrest⟩ := tick_eq_some hstarted h
  obtain ⟨hstays, hgrows, hquiet⟩ := parseMessages_quiet (n := n) hdec (discoveryRead_length n c)
    hparse (fun m n r hr => onDiscoveryMessage_visited hdec hr)
    ⟨rfl, rfl, rfl, rfl, rfl, rfl, fun _ => rfl⟩ ⟨rfl, rfl⟩
    (messages (hopRead P n (c.receive n.radio.radioId kDiscoveryFreq kReadSize).1))
  rw [frameMessages, hquiet]
  cases result₁ with
  | error e =>
    obtain ⟨rfl, -, -⟩ := hrest
    refine (and_iff_left fun hok => ?_).symm
    cases hok
  | ok u =>
    obtain ⟨hmore, hfinish⟩ := finishTick_quiet hdec hrest
    rw [hopRead_finishTick c hstays, quiet_congr hstays.id (hstays.keyMgr hdec)] at hfinish
    rw [hgrows.sameInboxes_iff hmore, ← hfinish]
    exact and_congr_right fun _ => (imp_iff_right rfl).symm

end Frames
end Visits
end RadioNode
end Cirradio.Node
