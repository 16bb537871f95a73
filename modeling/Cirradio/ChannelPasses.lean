import Cirradio.FrameCompletion
import Cirradio.WireMessages
import Mathlib.Algebra.Order.Ring.Star

/-!
# Reading a frequency in passes

A pass reads at most 4096 samples and visits the complete messages in them. A message
that the read cuts is dropped with what was read of it, so the passes visit what was sent
exactly when every read ends where a message ends.
-/

namespace Cirradio.Node
open Security Hal Network Voice Fhss WhileLoops

section Recorded
variable {ν : Type}

/-- A receiver that writes down what it visits. -/
def recorded (onMessage : OnMessage ν) : OnMessage (ν × List (MessageHeader × Bytes)) :=
  fun hdr payload s =>
    (onMessage hdr payload s.1).map fun r => ((r.1, s.2 ++ [(hdr, payload)]), r.2)

/-- What is written down does not change what the loop does. -/
theorem parseMessages_recorded (w limit : ℕ) (onMessage : OnMessage ν) (rxData : Bytes)
    (s : ν × List (MessageHeader × Bytes)) :
    (parseMessages w limit (recorded onMessage) rxData s).map (fun r => (r.1.1, r.2)) =
      parseMessages w limit onMessage rxData s.1 := by
  unfold parseMessages
  split
  · rfl
  · apply map_loop (fun t : ℕ × ν × List (MessageHeader × Bytes) => (t.1, t.2.1))
    rintro ⟨offset, node, visited⟩
    unfold parseTurn
    simp only
    split
    · rfl
    · split
      · rfl
      · next hdr hhdr =>
        split
        · rfl
        · unfold recorded
          rcases onMessage hdr _ node with _ | ⟨node', e | u⟩ <;> rfl

end Recorded

/-- The two loops of a frame that visit messages. -/
inductive ParsingLoop where
  | discovery
  | hop
  deriving DecidableEq, Repr

section Passes
variable {S σ κ Q : Type}

/-- What a frequency has carried for a node, and what the node has visited of it. -/
structure Reception (S σ κ Q : Type) where
  node : RadioNode σ κ Q
  channel : SimChannel S
  sent : List WireMessage
  visited : List (MessageHeader × Bytes)

section Calls
variable (P : Platform S σ κ) (freq : Frequency)

/-- The samples that wait for the node. -/
def Reception.waiting (s : Reception S σ κ Q) : List S :=
  s.channel.buffered s.node.radio.radioId freq

/-- The bytes of the next pass. -/
def Reception.nextRead (s : Reception S σ κ Q) : Bytes :=
  samplesToBytes P.format ((s.waiting freq).take kReadSize)

/-- Another radio sends a message. It is sent unless the partition drops it. -/
def Reception.transmit (senderId : UInt32) (m : WireMessage) (s : Reception S σ κ Q) :
    Reception S σ κ Q :=
  { s with
    channel := s.channel.transmit senderId freq (bytesToSamples P.format m.bytes)
    sent := if s.channel.drops then s.sent else s.sent ++ [m] }

/-- The next read ends where a message ends, and no visit before the last one throws. -/
structure Uncut (s : Reception S σ κ Q) : Prop where
  whole : ∃ ms, s.nextRead P freq = WireMessage.stream ms
  quiet : ∀ m ∈ (messages (s.nextRead P freq)).dropLast, ¬ s.node.VoiceFault P m

variable [LT Q] [DecidableLT Q] [One Q] [Mul Q] [Zero Q]

def ParsingLoop.onMessage (limit now : ℕ) : ParsingLoop → OnMessage (RadioNode σ κ Q)
  | .discovery => RadioNode.onDiscoveryMessage P limit now
  | .hop => fun hdr payload n => some (n.onHopMessage P hdr payload)

/-- A read of the frequency and the loop over it. -/
def Reception.pass (limit now : ℕ) (parsing : ParsingLoop) (s : Reception S σ κ Q) :
    Option (Reception S σ κ Q × Throws Unit) := do
  let (node, channel, rxData) := s.node.receiveFromChannel P s.channel freq
  let ((node, visited), result) ← parseMessages 64 limit
    (recorded (parsing.onMessage P limit now)) rxData (node, s.visited)
  some ({ s with node, channel, visited }, result)

/-- The runs of one frequency, with the states before their passes. The node is on the
channel and has read everything at first. -/
inductive Run : List (Reception S σ κ Q) → Reception S σ κ Q → Prop
  | start {n : RadioNode σ κ Q} {c : SimChannel S} : RadioNode.Reachable P n →
      c.registeredRadios.count n.radio.radioId = 1 → c.buffered n.radio.radioId freq = [] →
      Run [] ⟨n, c, [], []⟩
  | transmit {passes : List (Reception S σ κ Q)} {s : Reception S σ κ Q} (senderId : UInt32)
      (m : WireMessage) : Run passes s → s.node.radio.radioId ≠ senderId →
      Run passes (s.transmit P freq senderId m)
  | pass {passes : List (Reception S σ κ Q)} {s s' : Reception S σ κ Q} {now : ℕ}
      {parsing : ParsingLoop} {result : Throws Unit} : Run passes s →
      Returns (fun limit => s.pass P freq limit now parsing) (s', result) →
      Run (passes ++ [s]) s'

end Calls

variable {P : Platform S σ κ} {freq : Frequency}

/-- The messages of a read are visited in order, up to the first whose visit throws. All
are visited exactly when none but the last of them throws. -/
theorem RadioNode.VisitSpec.recorded {onMessage : ℕ → OnMessage (RadioNode σ κ Q)}
    (h : RadioNode.VisitSpec P onMessage) (ms : List (MessageHeader × Bytes))
    {n : RadioNode σ κ Q} (hown : n.router.Own) (visited : List (MessageHeader × Bytes)) :
    ∃ n' seen later result, ms = seen ++ later ∧ n.Keeps n' ∧
      Visits (fun limit => Node.recorded (onMessage limit)) ms (n, visited)
        ((n', visited ++ seen), result) ∧
      (later = [] ↔ ∀ m ∈ ms.dropLast, ¬ n.VoiceFault P m) := by
  induction ms generalizing n visited with
  | nil =>
    refine ⟨n, [], [], .ok (), rfl, .refl n, ?_, by simp⟩
    rw [List.append_nil]
    exact .done (n, visited)
  | cons m ms ih =>
    obtain ⟨n₁, result, hreturns, hkeeps, hiff⟩ := h m n hown
    have hvisit : Returns (fun limit => Node.recorded (onMessage limit) m.1 m.2 (n, visited))
        ((n₁, visited ++ [m]), result) :=
      hreturns.map fun r => ((r.1, visited ++ [m]), r.2)
    cases result with
    | error e =>
      -- the rest of the read is not visited
      have hfault : n.VoiceFault P m := by
        by_contra hno
        cases hiff.mpr hno
      refine ⟨n₁, [m], ms, .error e, rfl, hkeeps, .throws ms hvisit, ?_⟩
      cases ms with
      | nil => simp
      | cons m' ms =>
        constructor
        · intro hnil
          cases hnil
        · intro hall
          exact (hall m List.mem_cons_self hfault).elim
    | ok u =>
      cases u
      obtain ⟨n', seen, later, result, hms, hkeeps', hvisits, hlater⟩ :=
        ih (hkeeps.own hown) (visited ++ [m])
      rw [List.append_assoc] at hvisits
      refine ⟨n', m :: seen, later, result, by rw [hms]; rfl, hkeeps.trans hkeeps',
        .next hvisit hvisits, ?_⟩
      simp only [hkeeps.voiceFault_iff] at hlater
      rw [hlater]
      cases ms with
      | nil => simp
      | cons m' ms =>
        rw [List.dropLast_cons_of_ne_nil (List.cons_ne_nil m' ms), List.forall_mem_cons]
        exact ⟨fun hall => ⟨hiff.mp rfl, hall⟩, fun hall => hall.2⟩

/-- What a pass does. -/
structure Reception.Passed (P : Platform S σ κ) (freq : Frequency) (s s' : Reception S σ κ Q) :
    Prop where
  keeps : s.node.Keeps s'.node
  channel : s'.channel = (s.channel.receive s.node.radio.radioId freq kReadSize).1
  sent : s'.sent = s.sent
  visits : ∃ seen later, messages (s.nextRead P freq) = seen ++ later ∧
    s'.visited = s.visited ++ seen ∧
    (later = [] ↔ ∀ m ∈ (messages (s.nextRead P freq)).dropLast, ¬ s.node.VoiceFault P m)

theorem Reception.Passed.visited_of_nil {s s' : Reception S σ κ Q} (h : s.Passed P freq s')
    (hnone : messages (s.nextRead P freq) = []) : s'.visited = s.visited := by
  obtain ⟨seen, later, hfound, hvisited, -⟩ := h.visits
  rw [hnone] at hfound
  rw [hvisited, (List.append_eq_nil_iff.mp hfound.symm).1, List.append_nil]

theorem length_nextRead (s : Reception S σ κ Q) :
    (s.nextRead P freq).length = min kReadSize (s.waiting freq).length := by
  rw [Reception.nextRead, samplesToBytes, List.length_map, List.length_take]

theorem Reception.Passed.waiting_eq {s s' : Reception S σ κ Q} (h : s.Passed P freq s') :
    s'.waiting freq = (s.waiting freq).drop kReadSize := by
  rw [Reception.waiting, h.keeps.radioId, h.channel, SimChannel.buffered_receive, if_pos rfl]
  rfl

/-- A pass visits well-formed messages, and all the bytes of its read with them exactly
when the read is not cut. -/
theorem Reception.Passed.exists_visited {s s' : Reception S σ κ Q} (h : s.Passed P freq s') :
    ∃ vs, s'.visited = s.visited ++ vs.map WireMessage.parsed ∧
      (WireMessage.stream vs).length ≤ (s.nextRead P freq).length ∧
      ((WireMessage.stream vs).length = (s.nextRead P freq).length → Uncut P freq s) ∧
      (Uncut P freq s → s.nextRead P freq = WireMessage.stream vs) := by
  obtain ⟨seen, later, hfound, hvisited, hlater⟩ := h.visits
  obtain ⟨ms, rest, hread, hms⟩ := WireMessage.exists_messages (s.nextRead P freq)
  rw [hms] at hfound
  obtain ⟨vs, ls, rfl, rfl, rfl⟩ := List.map_eq_append_iff.mp hfound
  have hlen : (s.nextRead P freq).length = (WireMessage.stream vs).length +
      ((WireMessage.stream ls).length + rest.length) := by
    rw [hread, WireMessage.stream_append, List.append_assoc, List.length_append,
      List.length_append]
  refine ⟨vs, hvisited, by omega, fun heq => ?_, fun huncut => ?_⟩
  · have hls : ls = [] := by
      apply WireMessage.stream_eq_nil
      apply List.eq_nil_of_length_eq_zero
      omega
    have hrest : rest = [] := by
      apply List.eq_nil_of_length_eq_zero
      omega
    subst hls hrest
    exact ⟨⟨vs ++ [], by rw [hread, List.append_nil]⟩, hlater.mp rfl⟩
  · obtain ⟨ms', hwhole⟩ := huncut.whole
    have hls : ls = [] := List.map_eq_nil_iff.mp (hlater.mpr huncut.quiet)
    subst hls
    rw [hwhole, WireMessage.messages_stream, List.append_nil] at hms
    rw [hwhole, List.map_injective_iff.mpr WireMessage.parsed_injective hms]

theorem waiting_transmit {s : Reception S σ κ Q} {senderId : UInt32}
    (hregistered : s.channel.registeredRadios.count s.node.radio.radioId = 1)
    (hother : s.node.radio.radioId ≠ senderId) (m : WireMessage) :
    (s.transmit P freq senderId m).waiting freq = s.waiting freq ++
      if s.channel.drops = false then bytesToSamples P.format m.bytes else [] := by
  have h := s.channel.buffered_transmit hother hregistered freq freq
    (bytesToSamples P.format m.bytes)
  simp only [and_true] at h
  exact h

/-- A message is dropped, or waits behind all others. -/
theorem transmit_cases {s : Reception S σ κ Q} {senderId : UInt32}
    (hregistered : s.channel.registeredRadios.count s.node.radio.radioId = 1)
    (hother : s.node.radio.radioId ≠ senderId) (m : WireMessage) :
    (s.transmit P freq senderId m).waiting freq = s.waiting freq ∧
        (s.transmit P freq senderId m).sent = s.sent ∨
      (s.transmit P freq senderId m).waiting freq =
          s.waiting freq ++ bytesToSamples P.format m.bytes ∧
        (s.transmit P freq senderId m).sent = s.sent ++ [m] := by
  have hwaiting : (s.transmit P freq senderId m).waiting freq = s.waiting freq ++ _ :=
    waiting_transmit hregistered hother m
  by_cases hdrops : s.channel.drops = true
  · rw [hdrops, if_neg nofun, List.append_nil] at hwaiting
    exact .inl ⟨hwaiting, if_pos hdrops⟩
  · rw [if_pos (Bool.eq_false_iff.mpr hdrops)] at hwaiting
    exact .inr ⟨hwaiting, if_neg hdrops⟩

section Runs
variable [Preorder Q] [WellFoundedGT Q] [DecidableLT Q] [One Q] [Mul Q] [Zero Q]

theorem ParsingLoop.visitSpec (hdec : DecryptsPurely P.hsm) (now : ℕ) (parsing : ParsingLoop) :
    RadioNode.VisitSpec (Q := Q) P fun limit => parsing.onMessage P limit now := by
  cases parsing with
  | discovery => exact RadioNode.onDiscoveryMessage_spec hdec now
  | hop => exact RadioNode.onHopMessage_spec hdec

theorem Reception.exists_pass (hdec : DecryptsPurely P.hsm) (freq : Frequency) (now : ℕ)
    (parsing : ParsingLoop) {s : Reception S σ κ Q} (hown : s.node.router.Own) :
    ∃ s' result, Returns (fun limit => s.pass P freq limit now parsing) (s', result) ∧
      s.Passed P freq s' := by
  obtain ⟨n₁, hread, hkeeps₁⟩ := RadioNode.receiveFromChannel_spec P s.node s.channel freq
  obtain ⟨n', seen, later, result, hms, hkeeps, hvisits, hlater⟩ :=
    (parsing.visitSpec hdec now).recorded (messages (s.nextRead P freq))
      (hkeeps₁.own hown) s.visited
  simp only [hkeeps₁.voiceFault_iff] at hlater
  have hparse := hvisits.returns (RadioNode.samplesToBytes_take_length P.format (s.waiting freq))
  let channel := (s.channel.receive s.node.radio.radioId freq kReadSize).1
  refine ⟨{ s with node := n', channel, visited := s.visited ++ seen }, result, ?_,
    hkeeps₁.trans hkeeps, rfl, rfl, seen, later, hms, rfl, hlater⟩
  unfold Reception.pass
  simp only [hread]
  exact hparse.bind (.pure _)

theorem Reception.passed (hdec : DecryptsPurely P.hsm) {now : ℕ} {parsing : ParsingLoop}
    {s s' : Reception S σ κ Q} {result : Throws Unit} (hown : s.node.router.Own)
    (h : Returns (fun limit => s.pass P freq limit now parsing) (s', result)) :
    s.Passed P freq s' := by
  obtain ⟨s₁, result₁, hreturns, hpassed⟩ := exists_pass hdec freq now parsing hown
  cases h.unique hreturns
  exact hpassed

theorem Run.sound (hdec : DecryptsPurely P.hsm) (haes : AesReturns P.aes)
    {passes : List (Reception S σ κ Q)} {s : Reception S σ κ Q} (h : Run P freq passes s) :
    s.node.router.Own ∧ s.channel.registeredRadios.count s.node.radio.radioId = 1 := by
  induction h with
  | start hreachable hregistered _ => exact ⟨(hreachable.sound hdec haes).own, hregistered⟩
  | transmit senderId m _ _ ih =>
    refine ⟨ih.1, ?_⟩
    rw [← ih.2]
    exact congrArg (List.count _) (SimChannel.transmit_registeredRadios ..)
  | pass _ hpass ih =>
    have hpassed := Reception.passed hdec ih.1 hpass
    refine ⟨hpassed.keeps.own ih.1, ?_⟩
    rw [hpassed.keeps.radioId, hpassed.channel, SimChannel.receive_registeredRadios]
    exact ih.2

/-- Bytes are only lost, and none is lost only when no read was cut. -/
theorem Run.exists_visited (hdec : DecryptsPurely P.hsm) (haes : AesReturns P.aes)
    {passes : List (Reception S σ κ Q)} {s : Reception S σ κ Q} (h : Run P freq passes s) :
    ∃ vs, s.visited = vs.map WireMessage.parsed ∧
      (WireMessage.stream vs).length + (s.waiting freq).length ≤
        (WireMessage.stream s.sent).length ∧
      ((WireMessage.stream vs).length + (s.waiting freq).length =
        (WireMessage.stream s.sent).length → ∀ p ∈ passes, Uncut P freq p) := by
  induction h with
  | @start n c _ _ hempty =>
    refine ⟨[], rfl, ?_, fun _ p hp => (List.not_mem_nil hp).elim⟩
    have hnone : (Reception.mk n c [] []).waiting freq = [] := hempty
    rw [hnone]
    exact Nat.le_refl 0
  | @transmit passes s senderId m hrun hother ih =>
    obtain ⟨vs, hvisited, hle, heq⟩ := ih
    rcases transmit_cases (hrun.sound hdec haes).2 hother m with
      ⟨hwaiting, hsent⟩ | ⟨hwaiting, hsent⟩
    · rw [hwaiting, hsent]
      exact ⟨vs, hvisited, hle, heq⟩
    · have hstream : (WireMessage.stream (s.sent ++ [m])).length =
          (WireMessage.stream s.sent).length + m.bytes.length := by
        rw [WireMessage.stream_append, List.length_append]
        simp [WireMessage.stream]
      have hlen : ((s.transmit P freq senderId m).waiting freq).length =
          (s.waiting freq).length + m.bytes.length := by
        rw [hwaiting, List.length_append, bytesToSamples, List.length_map]
      rw [hlen, hsent, hstream]
      exact ⟨vs, hvisited, by omega, fun h => heq (by omega)⟩
  | @pass passes s s' now parsing result hrun hpass ih =>
    obtain ⟨vs, hvisited, hle, heq⟩ := ih
    have hpassed := Reception.passed hdec (hrun.sound hdec haes).1 hpass
    obtain ⟨more, hmore, hread, huncut, -⟩ := hpassed.exists_visited
    have hstream : (WireMessage.stream (vs ++ more)).length =
        (WireMessage.stream vs).length + (WireMessage.stream more).length := by
      rw [WireMessage.stream_append, List.length_append]
    have hwaiting : (s'.waiting freq).length = (s.waiting freq).length - kReadSize := by
      rw [hpassed.waiting_eq, List.length_drop]
    rw [length_nextRead] at hread huncut
    rw [hpassed.sent]
    refine ⟨vs ++ more, by rw [hmore, hvisited, List.map_append], by omega, fun h p hp => ?_⟩
    rcases List.mem_append.mp hp with hp | hp
    · exact heq (by omega) p hp
    · rw [List.mem_singleton.mp hp]
      exact huncut (by omega)

/-- When no read was cut, what waits are the messages that have not been visited. -/
theorem Run.exists_outstanding (hdec : DecryptsPurely P.hsm) (haes : AesReturns P.aes)
    {passes : List (Reception S σ κ Q)} {s : Reception S σ κ Q} (h : Run P freq passes s)
    (huncut : ∀ p ∈ passes, Uncut P freq p) :
    ∃ outstanding, s.waiting freq =
        bytesToSamples P.format (WireMessage.stream outstanding) ∧
      s.visited ++ outstanding.map WireMessage.parsed = s.sent.map WireMessage.parsed := by
  induction h with
  | start _ _ hempty => exact ⟨[], hempty, rfl⟩
  | @transmit passes s senderId m hrun hother ih =>
    obtain ⟨outstanding, hwaits, hvisited⟩ := ih huncut
    rcases transmit_cases (hrun.sound hdec haes).2 hother m with
      ⟨hwaiting, hsent⟩ | ⟨hwaiting, hsent⟩
    · rw [hwaiting, hsent]
      exact ⟨outstanding, hwaits, hvisited⟩
    · rw [hwaiting, hsent, hwaits]
      refine ⟨outstanding ++ [m], ?_, ?_⟩
      · rw [bytesToSamples, bytesToSamples, ← List.map_append, WireMessage.stream_append]
        simp [bytesToSamples, WireMessage.stream]
      · rw [List.map_append, ← List.append_assoc]
        change s.visited ++ outstanding.map WireMessage.parsed ++ _ = _
        rw [hvisited, List.map_append]
  | @pass passes s s' now parsing result hrun hpass ih =>
    obtain ⟨outstanding, hwaits, hvisited⟩ :=
      ih fun p hp => huncut p (List.mem_append_left _ hp)
    have hpassed := Reception.passed hdec (hrun.sound hdec haes).1 hpass
    obtain ⟨more, hmore, -, -, hread⟩ := hpassed.exists_visited
    have htake : (WireMessage.stream outstanding).take kReadSize = WireMessage.stream more := by
      rw [← hread (huncut s (List.mem_append_right _ List.mem_cons_self)), Reception.nextRead,
        hwaits, samplesToBytes_take]
    -- the read is some of the messages that wait
    have hsplit : WireMessage.stream outstanding =
        WireMessage.stream more ++ (WireMessage.stream outstanding).drop kReadSize := by
      rw [← htake, List.take_append_drop]
    obtain ⟨later, rfl, hlater⟩ := WireMessage.eq_append_of_stream hsplit
    refine ⟨later, ?_, ?_⟩
    · rw [hpassed.waiting_eq, hwaits, ← hlater]
      exact List.map_drop.symm
    · rw [hpassed.sent, ← hvisited, hmore, List.map_append, List.append_assoc]

/-- When no read is cut, the passes visit the messages sent, in order. Once nothing waits
they have visited all of them exactly when no read was cut. -/
theorem visited_eq_sent_iff_uncut (hdec : DecryptsPurely P.hsm) (haes : AesReturns P.aes)
    {passes : List (Reception S σ κ Q)} {s : Reception S σ κ Q} (h : Run P freq passes s) :
    ((∀ p ∈ passes, Uncut P freq p) → s.visited <+: s.sent.map WireMessage.parsed) ∧
      (s.waiting freq = [] → (s.visited = s.sent.map WireMessage.parsed ↔
        ∀ p ∈ passes, Uncut P freq p)) := by
  refine ⟨fun huncut => ?_, fun hempty => ⟨fun hall => ?_, fun huncut => ?_⟩⟩
  · obtain ⟨outstanding, -, hvisited⟩ := h.exists_outstanding hdec haes huncut
    exact ⟨_, hvisited⟩
  · obtain ⟨vs, hvisited, -, heq⟩ := h.exists_visited hdec haes
    rw [hvisited] at hall
    apply heq
    rw [List.map_injective_iff.mpr WireMessage.parsed_injective hall, hempty]
    rfl
  · obtain ⟨outstanding, hwaits, hvisited⟩ := h.exists_outstanding hdec haes huncut
    rw [hempty] at hwaits
    have hnone : outstanding = [] :=
      WireMessage.stream_eq_nil (List.map_eq_nil_iff.mp hwaits.symm)
    rwa [hnone, List.map_nil, List.append_nil] at hvisited

end Runs

/-- No message is lost by reading a frequency in passes. -/
def NoMessageLost : Prop :=
  ∀ (S σ κ Q : Type) [Preorder Q] [WellFoundedGT Q] [DecidableLT Q] [One Q] [Mul Q] [Zero Q]
    (P : Platform S σ κ) (freq : Frequency), DecryptsPurely P.hsm → AesReturns P.aes →
    ∀ (passes : List (Reception S σ κ Q)) (s : Reception S σ κ Q), Run P freq passes s →
      s.visited <+: s.sent.map WireMessage.parsed ∧
        (s.waiting freq = [] → s.visited = s.sent.map WireMessage.parsed)

end Passes

section Samples
open RadioNode

abbrev SampleReception := Reception UInt8 (List (Option Bytes)) Unit MeshRouter.Percent

/-- Node 2 on its channel, where another radio can send. -/
def quietReception : SampleReception :=
  ⟨sampleNode 2, SimChannel.new.registerRadio.1, [], []⟩

theorem quietReception_run :
    Run samplePlatform kDiscoveryFreq [] quietReception :=
  .start (sampleNode_reachable 2) rfl rfl

/-- A data message for node 2 of a given number of bytes. -/
def zerosMessage (n : ℕ) (h : n < 2 ^ 32) : WireMessage where
  header := ⟨kMsgTypeData, 1, 2, UInt32.ofNat n⟩
  payload := List.replicate n 0
  length_payload := by
    rw [List.length_replicate, UInt32.toNat_ofNat_of_lt' h]

/-- A message that fits is visited by one pass. -/
theorem visited_eq_sent_iff_uncut_short : ∃ (passes : List SampleReception) (s : SampleReception),
    Run samplePlatform kDiscoveryFreq passes s ∧ passes ≠ [] ∧
      s.visited = [(zerosMessage 4 (by norm_num)).parsed] := by
  let m := zerosMessage 4 (by norm_num)
  let s := quietReception.transmit samplePlatform kDiscoveryFreq 2 m
  have hrun : Run samplePlatform kDiscoveryFreq [] s :=
    quietReception_run.transmit 2 m (by decide)
  have hwaiting : s.waiting kDiscoveryFreq = bytesToSamples samplePlatform.format m.bytes :=
    waiting_transmit rfl (by decide) m
  obtain ⟨s₁, _, hpass, hpassed⟩ := Reception.exists_pass samplePlatform_decrypts
    kDiscoveryFreq 0 .discovery (hrun.sound samplePlatform_decrypts samplePlatform_aes).1
  have hread : s.nextRead samplePlatform kDiscoveryFreq = WireMessage.stream [m] := by
    rw [Reception.nextRead, hwaiting, samplesToBytes_take]
    rfl
  have huncut : Uncut samplePlatform kDiscoveryFreq s := by
    refine ⟨⟨[m], hread⟩, fun found hfound => ?_⟩
    rw [hread, WireMessage.messages_stream] at hfound
    cases hfound
  have hempty : s₁.waiting kDiscoveryFreq = [] := by
    rw [hpassed.waiting_eq, hwaiting]
    rfl
  have hall := ((visited_eq_sent_iff_uncut samplePlatform_decrypts samplePlatform_aes
    (hrun.pass hpass)).2 hempty).mpr fun p hp => by rwa [List.mem_singleton.mp hp]
  rw [hpassed.sent] at hall
  exact ⟨[s], s₁, hrun.pass hpass, List.cons_ne_nil s [], hall⟩

/-- A message of 4097 bytes is lost to a pass that reads 4096 of them. -/
theorem not_noMessageLost : ¬ NoMessageLost := by
  intro h
  let m := zerosMessage 4084 (by norm_num)
  let s := quietReception.transmit samplePlatform kDiscoveryFreq 2 m
  have hlen : m.bytes.length = 4097 := m.length_bytes
  have hrun : Run samplePlatform kDiscoveryFreq [] s :=
    quietReception_run.transmit 2 m (by decide)
  have hwaiting : s.waiting kDiscoveryFreq =
      bytesToSamples samplePlatform.format m.bytes :=
    waiting_transmit rfl (by decide) m
  -- the first pass reads all but the last byte, the second one that byte
  obtain ⟨s₁, _, hpass₁, hpassed₁⟩ := Reception.exists_pass samplePlatform_decrypts
    kDiscoveryFreq 0 .discovery (hrun.sound samplePlatform_decrypts samplePlatform_aes).1
  have hrun₁ := hrun.pass hpass₁
  obtain ⟨s₂, _, hpass₂, hpassed₂⟩ := Reception.exists_pass samplePlatform_decrypts
    kDiscoveryFreq 0 .discovery (hrun₁.sound samplePlatform_decrypts samplePlatform_aes).1
  have hread₁ : messages (s.nextRead samplePlatform kDiscoveryFreq) = [] := by
    rw [Reception.nextRead, hwaiting, samplesToBytes_take]
    exact m.messages_take (by rw [hlen]; decide)
  have hleft : (s₁.waiting kDiscoveryFreq).length = 1 := by
    rw [hpassed₁.waiting_eq, hwaiting, List.length_drop, bytesToSamples, List.length_map, hlen]
    rfl
  have hread₂ : messages (s₁.nextRead samplePlatform kDiscoveryFreq) = [] := by
    apply messages_of_short
    rw [length_nextRead, hleft]
    decide
  have hempty : s₂.waiting kDiscoveryFreq = [] := by
    rw [hpassed₂.waiting_eq]
    apply List.drop_eq_nil_of_le
    rw [hleft]
    decide
  have hall := (h _ _ _ _ samplePlatform kDiscoveryFreq samplePlatform_decrypts
    samplePlatform_aes _ s₂ (hrun₁.pass hpass₂)).2 hempty
  rw [hpassed₂.visited_of_nil hread₂, hpassed₁.visited_of_nil hread₁, hpassed₂.sent,
    hpassed₁.sent] at hall
  cases hall

end Samples
end Cirradio.Node
