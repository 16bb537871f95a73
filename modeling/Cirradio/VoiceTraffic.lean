import Cirradio.CallRuns
import Cirradio.DataDelivery

/-!
# Voice between nodes

A node has one codec for all it says and hears. Its state is the outcome of the frames that
the node has encoded and of those it has decoded, from all sources, in one order. What it
decodes has been encrypted before under its TEK, though not always by a voice call.
-/

namespace Cirradio.Node
open Security Hal Network Tdma Voice Fhss WhileLoops Relation CallRuns

inductive CodecCall where
  | encode (samples : List Int16)
  | decode (source : UInt32) (data : Bytes)
  deriving DecidableEq, Repr

section Codec
variable {κ : Type} (lib : Codec2 κ)

/-- A call of the codec, with the entry that it leaves. -/
def codecStep (c : VoiceCodec κ) : CodecCall → VoiceCodec κ × Option ReceivedVoice
  | .encode samples => ((c.encode lib samples).1, none)
  | .decode source data =>
    match c.decode lib data with
    | (c, .error _) => (c, none)
    | (c, .ok audio) => (c, some ⟨source, audio⟩)

/-- The entries that calls of the codec leave. -/
def heard (c : VoiceCodec κ) : List CodecCall → List ReceivedVoice
  | [] => []
  | call :: calls => (codecStep lib c call).2.toList ++ heard (codecStep lib c call).1 calls

theorem heard_append (c : VoiceCodec κ) (calls more : List CodecCall) :
    heard lib c (calls ++ more) =
      heard lib c calls ++ heard lib (after (codecStep lib) c calls) more := by
  induction calls generalizing c with
  | nil => rfl
  | cons call calls ih =>
    rw [List.cons_append, heard, heard, ih, List.append_assoc, after_cons]

/-- An entry is the outcome of a call that decodes. -/
theorem exists_decode_of_mem_heard {c : VoiceCodec κ} {calls : List CodecCall} {e : ReceivedVoice}
    (h : e ∈ heard lib c calls) : ∃ data, .decode e.source data ∈ calls := by
  induction calls generalizing c with
  | nil => exact absurd h List.not_mem_nil
  | cons call calls ih =>
    rcases List.mem_append.mp h with h | h
    · cases call with
      | encode samples => exact absurd h List.not_mem_nil
      | decode source data =>
        rcases hdecode : c.decode lib data with ⟨c', e' | audio⟩
        · simp [codecStep, hdecode] at h
        · simp only [codecStep, hdecode, Option.toList_some, List.mem_singleton] at h
          subst h
          exact ⟨data, List.mem_cons_self⟩
    · obtain ⟨data, hmem⟩ := ih h
      exact ⟨data, List.mem_cons_of_mem _ hmem⟩

end Codec

/-- The audio of a call that encodes. -/
def CodecCall.spoken : CodecCall → Option (List Int16)
  | .encode samples => some samples
  | .decode _ _ => none

namespace RadioNode
variable {S σ κ Q : Type}

section Calls
variable (P : Platform S σ κ)

/-- The codec and the voice inbox of a node after calls of the codec. -/
structure Codes (n n' : RadioNode σ κ Q) (calls : List CodecCall) : Prop where
  codec : n'.voiceCodec = after (codecStep P.codec2) n.voiceCodec calls
  inbox : n'.voiceInbox = n.voiceInbox ++ heard P.codec2 n.voiceCodec calls

/-- A voice message that was read opens to a frame of the codec. -/
structure Hears (n : RadioNode σ κ Q) (hdr : MessageHeader) (ciphertext data : Bytes) : Prop where
  msgType : hdr.msgType = kMsgTypeVoice
  addressed : n.addressed hdr = true
  opens : (KeyManager.decryptWithTek P.hsm ciphertext n.keyMgr).2 = .ok (some data)

/-- The calls of the codec that a call of the node itself makes. -/
def speaks (n : RadioNode σ κ Q) : NodeCall → List (List Int16)
  | .voiceTx _ audio =>
    if n.state = .idle ∨ n.keyMgr.isInitialized = false then [] else [audio]
  | _ => []

/-- The entry that a call takes from the voice inbox. -/
def takes (n : RadioNode σ κ Q) : NodeCall → Option ReceivedVoice
  | .voiceRx => n.voiceRx.2
  | _ => none

end Calls

variable {P : Platform S σ κ}

theorem Codes.refl (n : RadioNode σ κ Q) : Codes P n n [] := ⟨rfl, (List.append_nil _).symm⟩

theorem Codes.trans {n n' n'' : RadioNode σ κ Q} {calls more : List CodecCall}
    (h : Codes P n n' calls) (h' : Codes P n' n'' more) : Codes P n n'' (calls ++ more) where
  codec := by rw [after_append, ← h.codec, h'.codec]
  inbox := by rw [h'.inbox, h.inbox, heard_append, List.append_assoc, h.codec]

theorem Codes.of_eq {n n' : RadioNode σ κ Q} (hcodec : n'.voiceCodec = n.voiceCodec)
    (hinbox : n'.voiceInbox = n.voiceInbox) : Codes P n n' [] :=
  ⟨hcodec, hinbox.trans (List.append_nil _).symm⟩

/-- Opening a voice message decodes its frame, if it opens. -/
theorem openVoice_codes (hdr : MessageHeader) (payload : Bytes) (n : RadioNode σ κ Q) :
    ∃ calls, Codes P n (n.openVoice P hdr payload).1 calls ∧ ∀ call ∈ calls, ∃ data,
      call = .decode hdr.srcNode data ∧
        (KeyManager.decryptWithTek P.hsm payload n.keyMgr).2 = .ok (some data) := by
  unfold openVoice
  split
  · rcases hopen : KeyManager.decryptWithTek P.hsm payload n.keyMgr with ⟨keyMgr, e | _ | data⟩
    · exact ⟨[], .of_eq rfl rfl, by simp⟩
    · exact ⟨[], .of_eq rfl rfl, by simp⟩
    · refine ⟨[.decode hdr.srcNode data], ?_, ?_⟩
      · rcases hdecode : n.voiceCodec.decode P.codec2 data with ⟨voiceCodec, e | audio⟩
        · refine ⟨?_, ?_⟩ <;> simp [codecStep, heard, hdecode]
        · refine ⟨?_, ?_⟩ <;> simp [codecStep, heard, hdecode]
      · intro call hcall
        exact ⟨data, List.mem_singleton.mp hcall, rfl⟩
  · exact ⟨[], .refl n, by simp⟩

theorem voiceTx_codec {n : RadioNode σ κ Q}
    (hmute : ¬ (n.state = .idle ∨ n.keyMgr.isInitialized = false)) (dest : UInt32)
    (audio : List Int16) (c : SimChannel S) :
    (n.voiceTx P dest audio c).1.voiceCodec = (n.voiceCodec.encode P.codec2 audio).1 ∧
      (n.voiceTx P dest audio c).1.voiceInbox = n.voiceInbox := by
  unfold voiceTx
  rw [if_neg hmute]
  rcases n.voiceCodec.encode P.codec2 audio with ⟨voiceCodec, e | encoded⟩
  · exact ⟨rfl, rfl⟩
  · obtain ⟨radio, hnode, -⟩ :=
      sendEncrypted_node kMsgTypeVoice dest encoded { n with voiceCodec } c (P := P)
    simp only [hnode]
    exact ⟨trivial, trivial⟩

section Frames
variable [LT Q] [DecidableLT Q] [One Q] [Mul Q] [Zero Q]
  {limit now : ℕ} {read : List (MessageHeader × Bytes)}

/-- The steps of a frame decode messages that it has read, under the keys at its start. -/
theorem steps_codes (hdec : DecryptsPurely P.hsm) {n n' : RadioNode σ κ Q}
    (h : ReflTransGen (FrameStep P limit now read) n n') :
    ∃ calls, Codes P n n' calls ∧ ∀ call ∈ calls, ∃ m ∈ read, ∃ data,
      call = .decode m.1.srcNode data ∧ n.Hears P m.1 m.2 data := by
  induction h with
  | refl => exact ⟨[], .refl n, by simp⟩
  | @tail n₁ n₂ hsteps hstep ih =>
    obtain ⟨calls, hcodes, hcalls⟩ := ih
    have hstays := stays_of_steps hsteps
    have hnone (hcodec : n₂.voiceCodec = n₁.voiceCodec) (hinbox : n₂.voiceInbox = n₁.voiceInbox) :
        Codes P n n₂ calls := by
      rw [← List.append_nil calls]
      exact hcodes.trans (.of_eq hcodec hinbox)
    cases hstep with
    | tune freq => exact ⟨calls, hnone rfl rfl, hcalls⟩
    | @data hdr payload _ _ _ =>
      obtain ⟨keyMgr, dataInbox, hnode, -⟩ := openData_node hdr payload n₁ (P := P)
      refine ⟨calls, hnone ?_ ?_, hcalls⟩ <;> rw [hnode]
    | beacon _ _ hbeacon =>
      obtain ⟨discovery, router, rfl, -⟩ := onBeacon_node hbeacon
      exact ⟨calls, hnone rfl rfl, hcalls⟩
    | @voice hdr payload hread htype hto =>
      obtain ⟨more, hmore, hdecodes⟩ := openVoice_codes hdr payload n₁ (P := P)
      refine ⟨calls ++ more, hcodes.trans hmore, ?_⟩
      intro call hcall
      rcases List.mem_append.mp hcall with hcall | hcall
      · exact hcalls call hcall
      · obtain ⟨data, hdata, hopens⟩ := hdecodes call hcall
        refine ⟨(hdr, payload), hread, data, hdata, htype, ?_, ?_⟩
        · unfold addressed at hto ⊢
          rwa [hstays.id] at hto
        · rwa [hstays.keyMgr hdec] at hopens

/-- What a call of a node does with its codec and its voice inbox. -/
theorem call_codes (hdec : DecryptsPurely P.hsm) {n n' : RadioNode σ κ Q} {c c' : SimChannel S}
    {call : NodeCall} (h : n.call P limit c call = some (n', c')) :
    ∃ calls, n'.voiceCodec = after (codecStep P.codec2) n.voiceCodec calls ∧
      (n.takes call).toList ++ n'.voiceInbox = n.voiceInbox ++ heard P.codec2 n.voiceCodec calls ∧
      calls.filterMap CodecCall.spoken = n.speaks call ∧
      ∀ source data, .decode source data ∈ calls → (∃ now, call = .tick now) ∧
        ∃ hdr ciphertext, (hdr, ciphertext) ∈ frameMessages P n c ∧ hdr.srcNode = source ∧
          n.Hears P hdr ciphertext data := by
  have hnone (hcodec : n'.voiceCodec = n.voiceCodec) (hinbox : n'.voiceInbox = n.voiceInbox)
      (htakes : n.takes call = none) (hspeaks : n.speaks call = []) :
      ∃ calls, n'.voiceCodec = after (codecStep P.codec2) n.voiceCodec calls ∧
        (n.takes call).toList ++ n'.voiceInbox =
          n.voiceInbox ++ heard P.codec2 n.voiceCodec calls ∧
        calls.filterMap CodecCall.spoken = n.speaks call ∧
        ∀ source data, .decode source data ∈ calls → (∃ now, call = .tick now) ∧
          ∃ hdr ciphertext, (hdr, ciphertext) ∈ frameMessages P n c ∧ hdr.srcNode = source ∧
            n.Hears P hdr ciphertext data := by
    refine ⟨[], hcodec, ?_, hspeaks.symm, by simp⟩
    rw [htakes, hinbox]
    exact (List.append_nil _).symm
  cases call with
  | tick now =>
    obtain ⟨r, hr, heq⟩ := Option.map_eq_some_iff.mp h
    cases heq
    by_cases hidle : n.state = .idle
    · rw [tick_of_idle hidle] at hr
      cases hr
      exact hnone rfl rfl rfl rfl
    · obtain ⟨⟨n₁, hsteps, hn'⟩, -⟩ := tick_steps hidle hr
      obtain ⟨calls, hcodes, hcalls⟩ := steps_codes hdec hsteps
      have hcodec : r.1.voiceCodec = n₁.voiceCodec ∧ r.1.voiceInbox = n₁.voiceInbox := by
        rcases hn' with hn' | hn' <;> rw [hn'] <;> exact ⟨rfl, rfl⟩
      refine ⟨calls, hcodec.1.trans hcodes.codec, hcodec.2.trans hcodes.inbox, ?_, ?_⟩
      · apply List.filterMap_eq_nil_iff.mpr
        intro call hcall
        obtain ⟨m, _, data, rfl, _⟩ := hcalls call hcall
        rfl
      · intro source data hmem
        obtain ⟨m, hread, data', heq, hhears⟩ := hcalls _ hmem
        cases heq
        exact ⟨⟨now, rfl⟩, m.1, m.2, hread, rfl, hhears⟩
  | sendData dest payload =>
    cases h
    obtain ⟨keyMgr, radio, hnode, -⟩ := sendData_node dest payload n c (P := P)
    refine hnone ?_ ?_ rfl rfl <;> rw [hnode]
  | voiceTx dest audio =>
    cases h
    by_cases hmute : n.state = .idle ∨ n.keyMgr.isInitialized = false
    · have hsame : n.voiceTx P dest audio c = (n, c, .ok ()) := if_pos hmute
      refine hnone ?_ ?_ rfl (if_pos hmute) <;> rw [hsame]
    · obtain ⟨hcodec, hinbox⟩ := voiceTx_codec hmute dest audio c
      refine ⟨[.encode audio], hcodec, ?_, (if_neg hmute).symm, by simp⟩
      rw [hinbox]
      exact (List.append_nil _).symm
  | start =>
    cases h
    obtain ⟨keyMgr, hopSeq, radio, scheduler, state, hnode, -⟩ := start_node n (P := P)
    refine hnone ?_ ?_ rfl rfl <;> rw [hnode]
  | provisionKeys tek fhek => cases h; exact hnone rfl rfl rfl rfl
  | receiveData => cases h; exact hnone rfl rfl rfl rfl
  | voiceRx =>
    cases h
    refine ⟨[], rfl, ?_, rfl, by simp⟩
    rw [heard, List.append_nil]
    cases hinbox : n.voiceInbox <;> simp [takes, voiceRx, hinbox]

end Frames
end RadioNode

section Runs
open RadioNode
variable {S σ κ Q ι : Type}

/-- The audio that a node speaks in a run. -/
def spokenBy [DecidableEq ι] (steps : List (NetStep S σ κ Q ι)) (i : ι) : List (List Int16) :=
  (steps.filter fun t => t.actor = i).flatMap fun t => t.node.speaks t.call

/-- The entries that a node takes from its voice inbox in a run. -/
def takenBy [DecidableEq ι] (steps : List (NetStep S σ κ Q ι)) (i : ι) : List ReceivedVoice :=
  (steps.filter fun t => t.actor = i).filterMap fun t => t.node.takes t.call

/-- Node `i` reads a message in a step, and decodes what was encrypted in a step before. -/
def HeardFrom (P : Platform S σ κ) (K : KeyObjects P.hsm) (steps : List (NetStep S σ κ Q ι))
    (i : ι) (source : UInt32) (data : Bytes) : Prop :=
  ∃ before t later, steps = before ++ t :: later ∧ t.actor = i ∧
    ∃ hdr ciphertext, (hdr, ciphertext) ∈ frameMessages P t.node t.channel ∧
      hdr.srcNode = source ∧ t.node.Hears P hdr ciphertext data ∧
      ∃ u ∈ before, ∃ hdr', u.node.Encrypts P u.call hdr' data ciphertext ∧
        u.node.tekValue K = t.node.tekValue K

variable {P : Platform S σ κ} {K : KeyObjects P.hsm} {steps : List (NetStep S σ κ Q ι)}

theorem HeardFrom.append {i : ι} {source : UInt32} {data : Bytes}
    (h : HeardFrom P K steps i source data) (t : NetStep S σ κ Q ι) :
    HeardFrom P K (steps ++ [t]) i source data := by
  obtain ⟨before, u, later, rfl, hrest⟩ := h
  exact ⟨before, u, later ++ [t], by simp, hrest⟩

variable [LT Q] [DecidableLT Q] [One Q] [Mul Q] [Zero Q] [DecidableEq ι]

/-- In every run of nodes and an attacker who cannot forge, the codec of a node is as some
calls of it leave it: it has encoded what the node spoke, in order, the entries it has made
are those that were taken and those still in the inbox, in order, and each frame that it has
decoded was encrypted before under the TEK of the node, by a call of some node. -/
theorem voice_history (hdec : DecryptsPurely P.hsm) {nodes : ι → RadioNode σ κ Q}
    {c : SimChannel S} (h : NetRun P K steps nodes c) (i : ι) :
    ∃ calls : List CodecCall,
      (nodes i).voiceCodec = after (codecStep P.codec2) (.new P.codec2) calls ∧
      takenBy steps i ++ (nodes i).voiceInbox = heard P.codec2 (.new P.codec2) calls ∧
      calls.filterMap CodecCall.spoken = spokenBy steps i ∧
      ∀ source data, .decode source data ∈ calls → HeardFrom P K steps i source data := by
  induction h with
  | new c hnew =>
    obtain ⟨id, hsm, c', hi⟩ := hnew i
    refine ⟨[], ?_, ?_, rfl, by simp⟩ <;> rw [hi] <;> rfl
  | inject senderId freq samples _ ih => exact ih
  | @call steps nodes c c' limit a call n' _ hunforged hcall ih =>
    obtain ⟨calls, hcodec, hinbox, hspoken, hheard⟩ := ih
    by_cases hai : a = i
    · subst hai
      obtain ⟨more, hcodec', hinbox', hspoken', hheard'⟩ := call_codes hdec hcall
      refine ⟨calls ++ more, ?_, ?_, ?_, ?_⟩
      · rw [Function.update_self, after_append, ← hcodec]
        exact hcodec'
      · rw [Function.update_self, heard_append, ← hcodec, ← hinbox, List.append_assoc, ← hinbox']
        cases htakes : (nodes a).takes call <;> simp [takenBy, htakes]
      · rw [List.filterMap_append, hspoken, hspoken']
        simp [spokenBy]
      · intro source data hmem
        rcases List.mem_append.mp hmem with hmem | hmem
        · exact (hheard source data hmem).append _
        · obtain ⟨⟨now, hnow⟩, hdr, ciphertext, hread, hsource, hhears⟩ :=
            hheard' source data hmem
          obtain ⟨u, hu, hdr', hencrypts, htek⟩ :=
            hunforged now hnow (hdr, ciphertext) hread data hhears.opens
          exact ⟨steps, _, [], rfl, rfl, hdr, ciphertext, hread, hsource, hhears, u, hu, hdr',
            hencrypts, htek⟩
    · refine ⟨calls, ?_, ?_, ?_, ?_⟩
      · rw [Function.update_of_ne (Ne.symm hai)]
        exact hcodec
      · rw [Function.update_of_ne (Ne.symm hai), ← hinbox]
        simp [takenBy, hai]
      · rw [hspoken]
        simp [spokenBy, hai]
      · exact fun source data hmem => (hheard source data hmem).append _

end Runs

section Samples
open RadioNode

/-- Node 1 speaks a frame of silence to node 2, after its data. -/
def silence : List Int16 := List.replicate 320 0

def aliceSpoke : SampleNode := (aliceSent.voiceTx samplePlatform 2 silence alteredChannel).1

def spokenChannel : SimChannel UInt8 :=
  (aliceSent.voiceTx samplePlatform 2 silence alteredChannel).2.1

def voiceCiphertext : Bytes := List.replicate 32 0xAA ++ List.replicate 6 0

def voiceWire : WireMessage := ⟨⟨kMsgTypeVoice, 1, 2, 38⟩, voiceCiphertext, rfl⟩

def speakingSteps : List SampleNetStep :=
  sendingSteps ++ [⟨false, .voiceTx 2 silence, aliceSent, alteredChannel, aliceSpoke⟩]

theorem speakingSteps_run :
    NetRun samplePlatform tableKeys speakingSteps (nodesOf aliceSpoke (started bob))
      spokenChannel := by
  have hspeak : (nodesOf aliceSent (started bob) false).call samplePlatform 0 alteredChannel
      (.voiceTx 2 silence) = some (aliceSpoke, spokenChannel) := by
    simp only [nodesOf, RadioNode.call, aliceSpoke, spokenChannel]
  have h := sendingSteps_run.call (by intro now h; cases h) hspeak
  rwa [update_nodesOf_false] at h

theorem bob_reads_voice : frameMessages samplePlatform (started bob) spokenChannel =
    [alteredWire.parsed, recordedWire.parsed, voiceWire.parsed] := by
  have hdiscovery : discoveryRead samplePlatform (started bob) spokenChannel =
      WireMessage.stream [alteredWire] := by decide +kernel
  have hhop : hopRead samplePlatform (started bob)
      (spokenChannel.receive (started bob).radio.radioId kDiscoveryFreq kReadSize).1 =
      WireMessage.stream [recordedWire, voiceWire] := by decide +kernel
  rw [frameMessages, hdiscovery, hhop, WireMessage.messages_stream, WireMessage.messages_stream]
  rfl

theorem bob_hears_unforged :
    Unforged samplePlatform tableKeys speakingSteps (started bob) spokenChannel := by
  have htek : (started alice).tekValue tableKeys = (started bob).tekValue tableKeys := rfl
  have htek' : aliceSent.tekValue tableKeys = (started bob).tekValue tableKeys := rfl
  have hopens : (KeyManager.decryptWithTek samplePlatform.hsm sampleCiphertext
      (started bob).keyMgr).2 = .ok (some [1, 2, 3]) := rfl
  have hopens' : (KeyManager.decryptWithTek samplePlatform.hsm voiceCiphertext
      (started bob).keyMgr).2 = .ok (some (List.replicate 6 0)) := rfl
  have hdata : (started alice).Encrypts samplePlatform (.sendData 2 [1, 2, 3])
      recordedWire.header [1, 2, 3] sampleCiphertext := ⟨rfl, rfl, rfl, rfl⟩
  have hvoice : aliceSent.Encrypts samplePlatform (.voiceTx 2 silence) voiceWire.header
      (List.replicate 6 0) voiceCiphertext := ⟨by decide +kernel, rfl, rfl, rfl⟩
  intro m hm plaintext hplaintext
  rw [bob_reads_voice] at hm
  have hciphertext : m.2 = sampleCiphertext ∨ m.2 = voiceCiphertext := by
    simp only [List.mem_cons, List.not_mem_nil, or_false] at hm
    rcases hm with rfl | rfl | rfl
    · exact .inl rfl
    · exact .inl rfl
    · exact .inr rfl
  rcases hciphertext with hciphertext | hciphertext
  · rw [hciphertext] at hplaintext ⊢
    rw [hopens] at hplaintext
    cases hplaintext
    exact ⟨_, List.mem_of_getElem? (rfl : speakingSteps[4]? = some _), recordedWire.header,
      hdata, htek⟩
  · rw [hciphertext] at hplaintext ⊢
    rw [hopens'] at hplaintext
    cases hplaintext
    exact ⟨_, List.mem_of_getElem? (rfl : speakingSteps[5]? = some _), voiceWire.header,
      hvoice, htek'⟩

/-- Node 2 hears the frame, as one from node 1. -/
theorem voice_history_silence : ∃ (steps : List SampleNetStep) (data : Bytes),
    steps.length = 7 ∧ HeardFrom samplePlatform tableKeys steps true 1 data := by
  have hframe : ((started bob).tick samplePlatform 3 0 spokenChannel).map
      (fun r => r.1.voiceInbox) = some [⟨1, silence⟩] := by decide +kernel
  obtain ⟨⟨n', c', result⟩, htick, hinbox⟩ := Option.map_eq_some_iff.mp hframe
  have hcall : (nodesOf aliceSpoke (started bob) true).call samplePlatform 3 spokenChannel
      (.tick 0) = some (n', c') := by
    simp only [nodesOf, RadioNode.call, htick, Option.map_some]
  have hrun := speakingSteps_run.call (by intro now h; exact bob_hears_unforged) hcall
  obtain ⟨calls, -, hheard, -, hfrom⟩ := voice_history samplePlatform_decrypts hrun true
  have hmem : (⟨1, silence⟩ : ReceivedVoice) ∈ heard samplePlatform.codec2
      (.new samplePlatform.codec2) calls := by
    rw [← hheard, Function.update_self]
    rw [show n'.voiceInbox = [⟨1, silence⟩] from hinbox]
    exact List.mem_append_right _ List.mem_cons_self
  obtain ⟨data, hdata⟩ := exists_decode_of_mem_heard samplePlatform.codec2 hmem
  exact ⟨_, data, rfl, hfrom 1 data hdata⟩

end Samples
end Cirradio.Node
