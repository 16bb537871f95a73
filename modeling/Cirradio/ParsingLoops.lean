import Cirradio.ChannelPasses

/-!
# The two parsing loops

Either loop of a frame visits a sequence of well-formed messages in order and ends behind
the last of them, unless the visit of one throws. On any bytes the two loops put the same
into the inboxes: what only one of them does with a beacon touches no inbox.
-/

namespace Cirradio.Node
open Security Hal Network Voice Fhss WhileLoops

section Turn
variable {ν : Type}

/-- Where a message ends. -/
def msgEnd (w offset : ℕ) (hdr : MessageHeader) : ℕ :=
  (offset + 13 + hdr.payloadLen.toNat) % 2 ^ w

/-- The header of the message that a turn visits. -/
def headerAt (w : ℕ) (rxData : Bytes) (offset : ℕ) : Option MessageHeader :=
  if rxData.length < (offset + 13) % 2 ^ w then none
  else
    (deserializeHeader ((rxData.drop offset).take 13)).filter fun hdr =>
      decide (msgEnd w offset hdr ≤ rxData.length)

/-- What a turn does after a visit. -/
def afterVisit (offset : ℕ) : ν × Throws Unit → (ℕ × ν) ⊕ (ν × Throws Unit)
  | (node, .error e) => .inr (node, .error e)
  | (node, .ok ()) => .inl (offset, node)

theorem parseTurn_of_none {w : ℕ} {rxData : Bytes} {offset : ℕ}
    (h : headerAt w rxData offset = none) (onMessage : OnMessage ν) (node : ν) :
    parseTurn w onMessage rxData (offset, node) = some (.inr (node, .ok ())) := by
  unfold headerAt at h
  unfold parseTurn
  split at h
  · next hshort => simp only [hshort, if_true]
  · next hlong =>
    simp only [hlong, if_false]
    cases hhdr : deserializeHeader ((rxData.drop offset).take 13) with
    | none => rfl
    | some hdr =>
      rw [hhdr, Option.filter_eq_none_iff] at h
      have hover : rxData.length < msgEnd w offset hdr := by
        simpa using h hdr rfl
      simp only [msgEnd] at hover
      simp only [hover, if_true]

theorem parseTurn_of_some {w : ℕ} {rxData : Bytes} {offset : ℕ} {hdr : MessageHeader}
    (h : headerAt w rxData offset = some hdr) (onMessage : OnMessage ν) (node : ν) :
    parseTurn w onMessage rxData (offset, node) =
      (onMessage hdr (payloadAt rxData offset (msgEnd w offset hdr)) node).map
        (afterVisit (msgEnd w offset hdr)) := by
  unfold headerAt at h
  unfold parseTurn
  split at h
  · cases h
  · next hlong =>
    obtain ⟨hhdr, hend⟩ := Option.filter_eq_some_iff.mp h
    have hwhole : ¬ rxData.length < (offset + 13 + hdr.payloadLen.toNat) % 2 ^ w := by
      exact Nat.not_lt.mpr (of_decide_eq_true hend)
    simp only [hlong, if_false, hhdr, hwhole]
    rw [← msgEnd]
    rcases onMessage hdr _ node with _ | ⟨node', e | u⟩ <;> rfl

end Turn

section Offset
variable {ν : Type}

/-- A turn, with the offset at which the loop ends. -/
def parseTurnAt (w : ℕ) (onMessage : OnMessage ν) (rxData : Bytes) (s : ℕ × ν) :
    Option ((ℕ × ν) ⊕ (ℕ × ν × Throws Unit)) :=
  (parseTurn w onMessage rxData s).map (Sum.map id fun r => (s.1, r))

/-- The loop, with the offset at which it ends. -/
def parseMessagesAt (w limit : ℕ) (onMessage : OnMessage ν) (rxData : Bytes) (node : ν) :
    Option (ℕ × ν × Throws Unit) :=
  if rxData.isEmpty then some (0, node, .ok ())
  else loop (parseTurnAt w onMessage rxData) limit (0, node)

theorem parseMessagesAt_snd (w limit : ℕ) (onMessage : OnMessage ν) (rxData : Bytes)
    (node : ν) : (parseMessagesAt w limit onMessage rxData node).map Prod.snd =
      parseMessages w limit onMessage rxData node := by
  unfold parseMessagesAt parseMessages
  split
  · rfl
  · apply map_loop id Prod.snd
    intro s
    change ((parseTurn w onMessage rxData s).map _).map _ = parseTurn w onMessage rxData s
    rcases parseTurn w onMessage rxData s with _ | ⟨s' | r⟩ <;> rfl

theorem parseTurn_of_end {w : ℕ} {rxData : Bytes} (hsize : rxData.length + 13 < 2 ^ w)
    (onMessage : OnMessage ν) (node : ν) :
    parseTurn w onMessage rxData (rxData.length, node) = some (.inr (node, .ok ())) := by
  have hstart : (rxData.length + 13) % 2 ^ w = rxData.length + 13 := Nat.mod_eq_of_lt hsize
  have hover : rxData.length < rxData.length + 13 := by omega
  unfold parseTurn
  simp only [hstart, hover, if_true]

theorem ends_of_end {w : ℕ} {rxData : Bytes} (hsize : rxData.length + 13 < 2 ^ w)
    (onMessage : ℕ → OnMessage ν) (node : ν) :
    Ends (fun limit => parseTurnAt w (onMessage limit) rxData) (rxData.length, node)
      (rxData.length, node, .ok ()) := by
  apply Ends.of_inr
  refine ⟨0, fun limit _ => ?_⟩
  simp only [parseTurnAt, parseTurn_of_end hsize]
  rfl

theorem parseMessagesAt_returns {w : ℕ} {rxData : Bytes} (hsize : rxData.length + 13 < 2 ^ w)
    {onMessage : ℕ → OnMessage ν} {node : ν} {r : ℕ × ν × Throws Unit}
    (h : Ends (fun limit => parseTurnAt w (onMessage limit) rxData) (0, node) r) :
    Returns (fun limit => parseMessagesAt w limit (onMessage limit) rxData node) r := by
  unfold parseMessagesAt
  cases rxData with
  | nil =>
    rw [h.returns.unique (ends_of_end hsize onMessage node).returns]
    exact .pure _
  | cons b rest =>
    simp only [List.isEmpty_cons, Bool.false_eq_true, if_false]
    exact h.returns

end Offset

section Loops
variable {S σ κ Q : Type} {P : Platform S σ κ}

/-- Behind the bytes of other messages a turn visits the next one. -/
theorem parseTurn_stream {ν : Type} {w : ℕ} {before : Bytes} {m : WireMessage}
    {ms : List WireMessage} (hsize : (before ++ WireMessage.stream (m :: ms)).length < 2 ^ w)
    (onMessage : OnMessage ν) (node : ν) :
    parseTurn w onMessage (before ++ WireMessage.stream (m :: ms)) (before.length, node) =
      match onMessage m.header m.payload node with
      | none => none
      | some (node, .error e) => some (.inr (node, .error e))
      | some (node, .ok ()) => some (.inl ((before ++ m.bytes).length, node)) := by
  have hfound : messages ((before ++ WireMessage.stream (m :: ms)).drop before.length) =
      (m.header, m.payload) :: ms.map WireMessage.parsed := by
    rw [List.drop_left, WireMessage.messages_stream]
    rfl
  have hnext : before.length + 13 + m.header.payloadLen.toNat = (before ++ m.bytes).length := by
    rw [List.length_append, m.length_bytes, Nat.add_assoc]
  have hturn := parseTurn_of_cons node onMessage hsize hfound
  rw [hnext] at hturn
  apply hturn.trans
  rcases onMessage m.header m.payload node with _ | ⟨node', e | u⟩ <;> rfl

/-- The loop over messages ends behind the last of them exactly if no visit throws. -/
theorem RadioNode.VisitSpec.exists_ends_stream {onMessage : ℕ → OnMessage (RadioNode σ κ Q)}
    (h : RadioNode.VisitSpec P onMessage) {w : ℕ} (ms : List WireMessage) (before : Bytes)
    (hsize : (before ++ WireMessage.stream ms).length + 13 < 2 ^ w) {n : RadioNode σ κ Q}
    (hown : n.router.Own) (visited : List (MessageHeader × Bytes)) :
    ∃ offset n' seen result,
      Ends (fun limit => parseTurnAt w (Node.recorded (onMessage limit))
          (before ++ WireMessage.stream ms)) (before.length, n, visited)
        (offset, (n', visited ++ seen), result) ∧
      ((offset = (before ++ WireMessage.stream ms).length ∧ seen = ms.map WireMessage.parsed ∧
        result = .ok ()) ↔ ∀ m ∈ ms, ¬ n.VoiceFault P m.parsed) := by
  induction ms generalizing before n visited with
  | nil =>
    have hall : before ++ WireMessage.stream [] = before := List.append_nil before
    rw [hall] at hsize ⊢
    refine ⟨before.length, n, [], .ok (), ?_, by simp⟩
    rw [List.append_nil]
    exact ends_of_end hsize (fun limit => Node.recorded (onMessage limit)) (n, visited)
  | cons m ms ih =>
    have hsplit : before ++ WireMessage.stream (m :: ms) =
        (before ++ m.bytes) ++ WireMessage.stream ms := (List.append_assoc _ _ _).symm
    have hturn := fun limit => parseTurn_stream (Nat.lt_of_le_of_lt (Nat.le_add_right _ 13) hsize)
      (Node.recorded (onMessage limit)) (n, visited)
    obtain ⟨n₁, result, ⟨k, hk⟩, hkeeps, hiff⟩ := h m.parsed n hown
    have hvisit : ∀ limit, k ≤ limit → Node.recorded (onMessage limit) m.header m.payload
        (n, visited) = some ((n₁, visited ++ [m.parsed]), result) := by
      intro limit hlimit
      have hvisit := hk limit hlimit
      change (onMessage limit m.header m.payload n).map _ = _
      change onMessage limit m.header m.payload n = _ at hvisit
      rw [hvisit]
      rfl
    cases result with
    | error e =>
      refine ⟨before.length, n₁, [m.parsed], .error e, .of_inr ⟨k, fun limit hlimit => ?_⟩, ?_⟩
      · simp only [parseTurnAt, hturn, hvisit limit hlimit]
        rfl
      · constructor
        · rintro ⟨-, -, hok⟩
          cases hok
        · intro hall
          cases hiff.mpr (hall m List.mem_cons_self)
    | ok u =>
      rw [hsplit] at hsize hturn ⊢
      obtain ⟨offset, n', seen, result', hends, hiff'⟩ :=
        ih (before ++ m.bytes) hsize (hkeeps.own hown) (visited ++ [m.parsed])
      have hstep : Returns (fun limit => parseTurnAt w (Node.recorded (onMessage limit))
          ((before ++ m.bytes) ++ WireMessage.stream ms) (before.length, n, visited))
          (.inl ((before ++ m.bytes).length, n₁, visited ++ [m.parsed])) := by
        refine ⟨k, fun limit hlimit => ?_⟩
        simp only [parseTurnAt, hturn, hvisit limit hlimit]
        rfl
      rw [List.append_assoc visited] at hends
      refine ⟨offset, n', m.parsed :: seen, result', .of_inl hstep hends, ?_⟩
      simp only [hkeeps.voiceFault_iff] at hiff'
      rw [List.forall_mem_cons, ← hiff', List.map_cons, List.cons.injEq]
      have hfirst := hiff.mp rfl
      tauto

/-- Visits of two receivers that correspond make loops that correspond. -/
theorem exists_returns_of_parseMessages {ν ν' : Type} {w : ℕ} {rxData : Bytes}
    {onMessage : ℕ → OnMessage ν} {onMessage' : OnMessage ν'} (R : ν' → ν → Prop)
    (hvisit : ∀ hdr payload node' node r', R node' node →
      onMessage' hdr payload node' = some r' →
      ∃ r, Returns (fun limit => onMessage limit hdr payload node) r ∧ R r'.1 r.1 ∧
        r'.2 = r.2) {limit : ℕ} {node₀' node' : ν'} {node₀ : ν} {result : Throws Unit}
    (hnode : R node₀' node₀)
    (h : parseMessages w limit onMessage' rxData node₀' = some (node', result)) :
    ∃ node, Returns (fun limit => parseMessages w limit (onMessage limit) rxData node₀)
      (node, result) ∧ R node' node := by
  unfold parseMessages at h ⊢
  split at h
  · next hempty =>
    cases h
    simp only [hempty, if_true]
    exact ⟨node₀, .pure _, hnode⟩
  · next hbytes =>
    simp only [hbytes, Bool.false_eq_true, if_false]
    have hturn : ∀ (s' : ℕ × ν') (s : ℕ × ν) next', s'.1 = s.1 ∧ R s'.2 s.2 →
        parseTurn w onMessage' rxData s' = some next' →
        ∃ next, Returns (fun limit => parseTurn w (onMessage limit) rxData s) next ∧
          Sum.LiftRel (fun s' s => s'.1 = s.1 ∧ R s'.2 s.2) (fun r' r => R r'.1 r.1 ∧ r'.2 = r.2)
            next' next := by
      rintro ⟨offset, node'⟩ ⟨_, node⟩ next' ⟨rfl, hR⟩ hnext'
      cases hhdr : headerAt w rxData offset with
      | none =>
        rw [parseTurn_of_none hhdr] at hnext'
        cases hnext'
        simp only [parseTurn_of_none hhdr]
        exact ⟨_, .pure _, .inr ⟨hR, rfl⟩⟩
      | some hdr =>
        rw [parseTurn_of_some hhdr] at hnext'
        simp only [parseTurn_of_some hhdr]
        obtain ⟨⟨node₁', result'⟩, hvisit', rfl⟩ := Option.map_eq_some_iff.mp hnext'
        obtain ⟨⟨node₁, result₁⟩, hreturns, hR₁, heq⟩ := hvisit _ _ _ _ _ hR hvisit'
        cases heq
        refine ⟨_, hreturns.map _, ?_⟩
        cases result' with
        | error e => exact .inr ⟨hR₁, rfl⟩
        | ok u => exact .inl ⟨rfl, hR₁⟩
    have hstart : (0, node₀').1 = (0, node₀).1 ∧ R (0, node₀').2 (0, node₀).2 := ⟨rfl, hnode⟩
    obtain ⟨⟨node, result'⟩, hends, hfinal, hresult⟩ := exists_ends_of_loop _ _ hturn hstart h
    cases hresult
    exact ⟨node, hends.returns, hfinal⟩

/-- A node that differs in what beacons change. -/
def BeaconsApart (n' n : RadioNode σ κ Q) : Prop :=
  ∃ discovery router, n' = { n with discovery, router }

theorem BeaconsApart.refl (n : RadioNode σ κ Q) : BeaconsApart n n := ⟨_, _, rfl⟩

theorem BeaconsApart.openData {n' n : RadioNode σ κ Q} (h : BeaconsApart n' n)
    (hdr : MessageHeader) (payload : Bytes) :
    BeaconsApart (n'.openData P hdr payload).1 (n.openData P hdr payload).1 ∧
      (n'.openData P hdr payload).2 = (n.openData P hdr payload).2 := by
  obtain ⟨discovery, router, rfl⟩ := h
  unfold RadioNode.openData
  by_cases hinit : n.keyMgr.isInitialized = true
  · simp only [hinit, if_true]
    rcases KeyManager.decryptWithTek P.hsm payload n.keyMgr with ⟨keyMgr, e | _ | decrypted⟩ <;>
      exact ⟨⟨discovery, router, rfl⟩, rfl⟩
  · simp only [hinit, Bool.false_eq_true, if_false]
    exact ⟨⟨discovery, router, rfl⟩, trivial⟩

theorem BeaconsApart.openVoice {n' n : RadioNode σ κ Q} (h : BeaconsApart n' n)
    (hdr : MessageHeader) (payload : Bytes) :
    BeaconsApart (n'.openVoice P hdr payload).1 (n.openVoice P hdr payload).1 ∧
      (n'.openVoice P hdr payload).2 = (n.openVoice P hdr payload).2 := by
  obtain ⟨discovery, router, rfl⟩ := h
  unfold RadioNode.openVoice
  by_cases hinit : n.keyMgr.isInitialized = true
  · simp only [hinit, if_true]
    rcases KeyManager.decryptWithTek P.hsm payload n.keyMgr with ⟨keyMgr, e | _ | decrypted⟩
    · exact ⟨⟨discovery, router, rfl⟩, rfl⟩
    · exact ⟨⟨discovery, router, rfl⟩, rfl⟩
    · simp only
      rcases n.voiceCodec.decode P.codec2 decrypted with ⟨voiceCodec, e | audio⟩ <;>
        exact ⟨⟨discovery, router, rfl⟩, rfl⟩
  · simp only [hinit, Bool.false_eq_true, if_false]
    exact ⟨⟨discovery, router, rfl⟩, trivial⟩

theorem BeaconsApart.onHopMessage {n' n : RadioNode σ κ Q} (h : BeaconsApart n' n)
    (hdr : MessageHeader) (payload : Bytes) :
    BeaconsApart (n'.onHopMessage P hdr payload).1 (n.onHopMessage P hdr payload).1 ∧
      (n'.onHopMessage P hdr payload).2 = (n.onHopMessage P hdr payload).2 := by
  have haddressed : n'.addressed hdr = n.addressed hdr := by
    obtain ⟨discovery, router, rfl⟩ := h
    rfl
  unfold RadioNode.onHopMessage
  rw [haddressed]
  split
  · exact h.openData hdr payload
  · split
    · exact h.openVoice hdr payload
    · exact ⟨h, rfl⟩

theorem BeaconsApart.symm {n' n : RadioNode σ κ Q} (h : BeaconsApart n' n) :
    BeaconsApart n n' := by
  obtain ⟨discovery, router, rfl⟩ := h
  exact ⟨n.discovery, n.router, rfl⟩

theorem BeaconsApart.trans {n'' n' n : RadioNode σ κ Q} (h : BeaconsApart n'' n')
    (h' : BeaconsApart n' n) : BeaconsApart n'' n := by
  obtain ⟨discovery, router, rfl⟩ := h'
  obtain ⟨discovery', router', rfl⟩ := h
  exact ⟨discovery', router', rfl⟩

theorem BeaconsApart.inboxes {n' n : RadioNode σ κ Q} (h : BeaconsApart n' n) :
    n.dataInbox = n'.dataInbox ∧ n.voiceInbox = n'.voiceInbox := by
  obtain ⟨discovery, router, rfl⟩ := h
  exact ⟨rfl, rfl⟩

theorem onHopMessage_of_beacon {hdr : MessageHeader}
    (h : (hdr.msgType == kMsgTypeBeacon && decide (9 ≤ hdr.payloadLen)) = true)
    (payload : Bytes) (n : RadioNode σ κ Q) : n.onHopMessage P hdr payload = (n, .ok ()) := by
  rw [Bool.and_eq_true, beq_iff_eq] at h
  unfold RadioNode.onHopMessage
  rw [h.1]
  rfl

section Beacons
variable [LT Q] [DecidableLT Q] [One Q] [Mul Q] [Zero Q]

theorem BeaconsApart.of_onBeacon {n n' : RadioNode σ κ Q} {limit now : ℕ} {payload : Bytes}
    {result : Throws Unit} (h : n.onBeacon limit now payload = some (n', result)) :
    BeaconsApart n' n ∧ result = .ok () := by
  unfold RadioNode.onBeacon at h
  simp only at h
  split at h
  · obtain ⟨router, -, hrouter⟩ := Option.bind_eq_some_iff.mp h
    cases hrouter
    exact ⟨⟨_, _, rfl⟩, rfl⟩
  · cases h
    exact ⟨⟨_, _, rfl⟩, rfl⟩

theorem BeaconsApart.of_onDiscoveryMessage {n' n : RadioNode σ κ Q} (h : BeaconsApart n' n)
    {limit now : ℕ} {hdr : MessageHeader} {payload : Bytes} {r : RadioNode σ κ Q × Throws Unit}
    (hvisit : RadioNode.onDiscoveryMessage P limit now hdr payload n' = some r) :
    BeaconsApart r.1 (n.onHopMessage P hdr payload).1 ∧
      r.2 = (n.onHopMessage P hdr payload).2 := by
  by_cases hbeacon : (hdr.msgType == kMsgTypeBeacon && decide (9 ≤ hdr.payloadLen)) = true
  · rw [RadioNode.onDiscoveryMessage, if_pos hbeacon] at hvisit
    obtain ⟨hbeacons, hok⟩ := BeaconsApart.of_onBeacon hvisit
    rw [onHopMessage_of_beacon hbeacon]
    exact ⟨hbeacons.trans h, hok⟩
  · rw [RadioNode.onDiscoveryMessage_of_not_beacon payload n' hbeacon] at hvisit
    cases hvisit
    exact h.onHopMessage hdr payload

end Beacons

/-- A node as the loops of a frame find it. -/
def InFrame [LT Q] [DecidableLT Q] [One Q] [Mul Q] [Zero Q] (P : Platform S σ κ)
    (n : RadioNode σ κ Q) : Prop :=
  ∃ n₀, RadioNode.Reachable P n₀ ∧ n₀.Keeps n

section Inboxes
variable [LT Q] [DecidableLT Q] [One Q] [Mul Q] [Zero Q] (P : Platform S σ κ) (w now : ℕ)
  (n : RadioNode σ κ Q)

/-- A loop over messages visits all of them in order and ends behind the last. -/
def VisitsInOrder (parsing : ParsingLoop) (ms : List WireMessage) : Prop :=
  ∃ n', Returns (fun limit => parseMessagesAt w limit
      (recorded (parsing.onMessage P limit now)) (WireMessage.stream ms) (n, []))
    ((WireMessage.stream ms).length, (n', ms.map WireMessage.parsed), .ok ())

/-- The loop ends with a result and these inboxes. -/
def LeavesInboxes (parsing : ParsingLoop) (rxData : Bytes) (dataInbox : List ReceivedData)
    (voiceInbox : List ReceivedVoice) (result : Throws Unit) : Prop :=
  ∃ n', Returns (fun limit => parseMessages w limit (parsing.onMessage P limit now) rxData n)
    (n', result) ∧ n'.dataInbox = dataInbox ∧ n'.voiceInbox = voiceInbox

/-- The two loops leave the same in the inboxes. -/
def LoopsAgree : Prop :=
  ∀ rxData dataInbox voiceInbox result,
    LeavesInboxes P w now n .discovery rxData dataInbox voiceInbox result ↔
      LeavesInboxes P w now n .hop rxData dataInbox voiceInbox result

end Inboxes

section Framing
variable [Preorder Q] [WellFoundedGT Q] [DecidableLT Q] [One Q] [Mul Q] [Zero Q]
  {n : RadioNode σ κ Q}

theorem InFrame.own (hdec : DecryptsPurely P.hsm) (haes : AesReturns P.aes)
    (h : InFrame P n) : n.router.Own := by
  obtain ⟨n₀, hreachable, hkeeps⟩ := h
  exact hkeeps.own (hreachable.sound hdec haes).own

/-- A visit on the hop frequency is followed by one on the discovery frequency. -/
theorem BeaconsApart.exists_onDiscoveryMessage (hdec : DecryptsPurely P.hsm) (now : ℕ)
    {n' : RadioNode σ κ Q} (h : BeaconsApart n' n) (hown : n.router.Own) (hdr : MessageHeader)
    (payload : Bytes) :
    ∃ r, Returns (fun limit => RadioNode.onDiscoveryMessage P limit now hdr payload n) r ∧
      (BeaconsApart (n'.onHopMessage P hdr payload).1 r.1 ∧ r.1.router.Own) ∧
      (n'.onHopMessage P hdr payload).2 = r.2 := by
  by_cases hbeacon : (hdr.msgType == kMsgTypeBeacon && decide (9 ≤ hdr.payloadLen)) = true
  · obtain ⟨n₁, ⟨k, hk⟩, hkeeps⟩ := RadioNode.onBeacon_returns now payload hown
    obtain ⟨hbeacons, -⟩ := BeaconsApart.of_onBeacon (hk k (Nat.le_refl k))
    rw [onHopMessage_of_beacon hbeacon]
    refine ⟨(n₁, .ok ()), ⟨k, fun m hm => ?_⟩, ⟨h.trans hbeacons.symm, hkeeps.own hown⟩, rfl⟩
    change RadioNode.onDiscoveryMessage P m now hdr payload n = _
    rw [RadioNode.onDiscoveryMessage, if_pos hbeacon]
    exact hk m hm
  · obtain ⟨n₁, result, hresult, hkeeps, -⟩ := RadioNode.onHopMessage_result hdec n hdr payload
    obtain ⟨hvisited, hsame⟩ := h.onHopMessage (P := P) hdr payload
    rw [hresult] at hvisited hsame
    refine ⟨(n₁, result), ?_, ⟨hvisited, hkeeps.own hown⟩, hsame⟩
    simp only [RadioNode.onDiscoveryMessage_of_not_beacon payload n hbeacon, hresult]
    exact .pure _

/-- On any bytes the loops leave the same in the inboxes. -/
theorem loopsAgree (hdec : DecryptsPurely P.hsm) (w now : ℕ) (hown : n.router.Own) :
    LoopsAgree P w now n := by
  intro rxData dataInbox voiceInbox result
  constructor
  · rintro ⟨n', ⟨limit, hlimit⟩, rfl, rfl⟩
    have hvisit : ∀ hdr payload (n₁' n₁ : RadioNode σ κ Q) r', BeaconsApart n₁' n₁ →
        ParsingLoop.discovery.onMessage P limit now hdr payload n₁' = some r' →
        ∃ r, Returns (fun limit => ParsingLoop.hop.onMessage P limit now hdr payload n₁) r ∧
          BeaconsApart r'.1 r.1 ∧ r'.2 = r.2 :=
      fun hdr payload n₁' n₁ r' hapart h => ⟨_, .pure _, hapart.of_onDiscoveryMessage h⟩
    obtain ⟨n'', hreturns, hapart⟩ := exists_returns_of_parseMessages BeaconsApart hvisit
      (BeaconsApart.refl n) (hlimit limit (Nat.le_refl limit))
    exact ⟨n'', hreturns, hapart.inboxes⟩
  · rintro ⟨n', ⟨limit, hlimit⟩, rfl, rfl⟩
    have hvisit : ∀ hdr payload (n₁' n₁ : RadioNode σ κ Q) r',
        BeaconsApart n₁' n₁ ∧ n₁.router.Own →
        ParsingLoop.hop.onMessage P limit now hdr payload n₁' = some r' →
        ∃ r, Returns (fun limit =>
            ParsingLoop.discovery.onMessage P limit now hdr payload n₁) r ∧
          (BeaconsApart r'.1 r.1 ∧ r.1.router.Own) ∧ r'.2 = r.2 := by
      rintro hdr payload n₁' n₁ r' ⟨hapart, hown₁⟩ h
      cases h
      exact hapart.exists_onDiscoveryMessage hdec now hown₁ hdr payload
    obtain ⟨n'', hreturns, hapart, -⟩ := exists_returns_of_parseMessages
      (fun n₁' n₁ : RadioNode σ κ Q => BeaconsApart n₁' n₁ ∧ n₁.router.Own) hvisit
      ⟨BeaconsApart.refl n, hown⟩ (hlimit limit (Nat.le_refl limit))
    exact ⟨n'', hreturns, hapart.inboxes⟩

theorem visitsInOrder_iff (hdec : DecryptsPurely P.hsm) (now : ℕ) (parsing : ParsingLoop)
    (hown : n.router.Own) {w : ℕ} {ms : List WireMessage}
    (hsize : (WireMessage.stream ms).length + 13 < 2 ^ w) :
    VisitsInOrder P w now n parsing ms ↔ ∀ m ∈ ms, ¬ n.VoiceFault P m.parsed := by
  obtain ⟨offset, n', seen, result, hends, hiff⟩ :=
    (parsing.visitSpec hdec now).exists_ends_stream ms [] hsize hown []
  have hreturns : Returns (fun limit => parseMessagesAt w limit
      (recorded (parsing.onMessage P limit now)) (WireMessage.stream ms) (n, []))
      (offset, (n', seen), result) := parseMessagesAt_returns hsize hends
  rw [← hiff]
  constructor
  · rintro ⟨n'', hall⟩
    cases hreturns.unique hall
    exact ⟨rfl, rfl, rfl⟩
  · rintro ⟨rfl, rfl, rfl⟩
    exact ⟨n', hreturns⟩

/-- Well-formed messages are visited as sent, by either loop, exactly if none of them is a
voice message that cannot be decoded, and on any bytes the loops leave the same in the
inboxes. -/
theorem framing_iff (hdec : DecryptsPurely P.hsm) (haes : AesReturns P.aes)
    (hn : InFrame P n) (now : ℕ) (parsing : ParsingLoop) {w : ℕ} {ms : List WireMessage}
    (hsize : (WireMessage.stream ms).length + 13 < 2 ^ w) :
    (VisitsInOrder P w now n parsing ms ∧ LoopsAgree P w now n) ↔
      ∀ m ∈ ms, ¬ n.VoiceFault P m.parsed := by
  have hown := hn.own hdec haes
  rw [and_iff_left (loopsAgree hdec w now hown)]
  exact visitsInOrder_iff hdec now parsing hown hsize

end Framing

/-- Well-formed messages are always visited as sent, and the loops agree. -/
def FramingHolds : Prop :=
  ∀ (S σ κ Q : Type) [Preorder Q] [WellFoundedGT Q] [DecidableLT Q] [One Q] [Mul Q] [Zero Q]
    (P : Platform S σ κ), DecryptsPurely P.hsm → AesReturns P.aes →
    ∀ n : RadioNode σ κ Q, InFrame P n → ∀ (now : ℕ) (parsing : ParsingLoop) (w : ℕ)
      (ms : List WireMessage), (WireMessage.stream ms).length + 13 < 2 ^ w →
      VisitsInOrder P w now n parsing ms ∧ LoopsAgree P w now n

end Loops

section Samples
open RadioNode

theorem sampleNode_inFrame (id : UInt32) : InFrame samplePlatform (sampleNode id) :=
  ⟨sampleNode id, sampleNode_reachable id, .refl _⟩

/-- Two data messages. -/
theorem framing_iff_zeros :
    VisitsInOrder samplePlatform 64 0 (sampleNode 2) .discovery
        [zerosMessage 4 (by norm_num), zerosMessage 7 (by norm_num)] ∧
      LoopsAgree samplePlatform 64 0 (sampleNode 2) := by
  refine (framing_iff samplePlatform_decrypts samplePlatform_aes (sampleNode_inFrame 2) 0
    .discovery (by decide)).mpr fun m hm hfault => ?_
  have htype : m.header.msgType = kMsgTypeData := by
    simp only [List.mem_cons, List.not_mem_nil, or_false] at hm
    rcases hm with rfl | rfl <;> rfl
  exact absurd (hfault.1.symm.trans htype) (by decide)

/-- The recorded message as a voice message. -/
def replayedMessage : WireMessage where
  header := ⟨kMsgTypeVoice, 1, 2, 35⟩
  payload := List.replicate 32 0xAA ++ [1, 2, 3]
  length_payload := by decide

/-- The loop does not come to the end behind the replayed message. -/
theorem not_framingHolds : ¬ FramingHolds := by
  intro h
  have hframe := sampleNode_inFrame 2
  have hsize : (WireMessage.stream [replayedMessage]).length + 13 < 2 ^ 64 := by decide
  have hall := (h _ _ _ _ samplePlatform samplePlatform_decrypts samplePlatform_aes
    (sampleNode 2) hframe 0 .discovery 64 [replayedMessage] hsize).1
  rw [visitsInOrder_iff samplePlatform_decrypts 0 .discovery
    (hframe.own samplePlatform_decrypts samplePlatform_aes) hsize] at hall
  exact hall replayedMessage List.mem_cons_self
    ⟨rfl, by decide, by decide, [1, 2, 3], rfl, by decide⟩

end Samples
end Cirradio.Node
