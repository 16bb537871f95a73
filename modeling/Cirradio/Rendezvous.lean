import Cirradio.SharedKeys

/-!
# Rendezvous of two nodes

Two nodes with the same keys have one hop sequence, but each counts its own frames, from
its own start. Data from one reaches the next frame of the other exactly if the frame
numbers select the same frequency, or the sender is on the discovery frequency.
-/

namespace Cirradio.Node
open Security Hal Network Tdma Voice Fhss WhileLoops Relation

/-- What encrypts under a key decrypts under that key. -/
def OpensSealed {σ : Type} {E : IHsmEngine σ} (K : KeyObjects E) : Prop :=
  ∀ s h plaintext ciphertext s' h', (E.encrypt s h plaintext).2 = .ok (some ciphertext) →
    (K.key s h).isSome → K.key s' h' = K.key s h →
    (E.decrypt s' h' ciphertext).2 = .ok (some plaintext)

section Runs
open RadioNode
variable {S σ κ Q : Type}

/-- Two radios on a channel that loses nothing. -/
structure OnChannel (nodes : Bool → RadioNode σ κ Q) (c : SimChannel S) : Prop where
  partitionActive : c.partitionActive = false
  registered : ∀ i, c.registeredRadios.count (nodes i).radio.radioId = 1
  distinct : ∀ i, (nodes (!i)).radio.radioId ≠ (nodes i).radio.radioId

/-- The interleavings of the starts and the frames of two new nodes with the same keys. -/
inductive Interleaving [LT Q] [DecidableLT Q] [One Q] [Mul Q] [Zero Q] (P : Platform S σ κ)
    (tek fhek : Bytes) : (Bool → RadioNode σ κ Q) → SimChannel S → Prop
  | new {nodes : Bool → RadioNode σ κ Q} {c : SimChannel S} :
      (∀ i, ∃ id hsm c', nodes i = (RadioNode.new P id hsm c').2.provisionKeys tek fhek) →
      OnChannel nodes c → Interleaving P tek fhek nodes c
  | start {nodes : Bool → RadioNode σ κ Q} {c : SimChannel S} (i : Bool) :
      Interleaving P tek fhek nodes c →
      Interleaving P tek fhek (Function.update nodes i ((nodes i).start P).1) c
  | tick {nodes : Bool → RadioNode σ κ Q} {c c' : SimChannel S} {limit now : ℕ} {i : Bool}
      {n' : RadioNode σ κ Q} {result : Throws Unit} : Interleaving P tek fhek nodes c →
      (nodes i).tick P limit now c = some (n', c', result) →
      Interleaving P tek fhek (Function.update nodes i n') c'

theorem OnChannel.update {nodes : Bool → RadioNode σ κ Q} {c c' : SimChannel S} {i : Bool}
    {n' : RadioNode σ κ Q} (h : OnChannel nodes c)
    (hradio : n'.radio.radioId = (nodes i).radio.radioId)
    (hradios : c'.registeredRadios = c.registeredRadios)
    (hpartition : c'.partitionActive = c.partitionActive) :
    OnChannel (Function.update nodes i n') c' := by
  have hids : ∀ j, (Function.update nodes i n' j).radio.radioId = (nodes j).radio.radioId :=
    (Function.forall_update_iff nodes fun j n => n.radio.radioId = (nodes j).radio.radioId).mpr
      ⟨hradio, fun _ _ => rfl⟩
  refine ⟨hpartition.trans h.partitionActive, fun j => ?_, fun j => ?_⟩
  · rw [hids, hradios]
    exact h.registered j
  · rw [hids, hids]
    exact h.distinct j

namespace RadioNode

/-- A frame leaves the radios and the partition of the channel alone. -/
theorem tick_channel [LT Q] [DecidableLT Q] [One Q] [Mul Q] [Zero Q] {P : Platform S σ κ}
    {limit now : ℕ} {n n' : RadioNode σ κ Q} {c c' : SimChannel S} {result : Throws Unit}
    (h : n.tick P limit now c = some (n', c', result)) :
    n'.radio.radioId = n.radio.radioId ∧ c'.registeredRadios = c.registeredRadios ∧
      c'.partitionActive = c.partitionActive := by
  have hcall : n.call P limit c (.tick now) = some (n', c') := by
    simp only [call, h, Option.map_some]
  have honly := call_channel hcall
  refine ⟨(call_stationed hcall).radioId, ?_, ?_⟩
  · rw [honly.registeredRadios]
    cases n.onAir P (.tick now) with
    | none => rfl
    | some message => exact transmitOnChannel_registeredRadios n c _ _
  · rw [honly.partitionActive]
    cases n.onAir P (.tick now) with
    | none => rfl
    | some message => exact transmitOnChannel_partitionActive n c _ _

end RadioNode

section Invariant
variable [LT Q] [DecidableLT Q] [One Q] [Mul Q] [Zero Q] {P : Platform S σ κ}
  {K : KeyObjects P.hsm} {tek fhek : Bytes} {nodes : Bool → RadioNode σ κ Q} {c : SimChannel S}

theorem Interleaving.onChannel (h : Interleaving P tek fhek nodes c) : OnChannel nodes c := by
  induction h with
  | new _ hchannel => exact hchannel
  | start i _ ih => exact ih.update (start_stationed _).radioId rfl rfl
  | tick _ htick ih =>
    obtain ⟨hradio, hradios, hpartition⟩ := tick_channel htick
    exact ih.update hradio hradios hpartition

theorem Interleaving.prepared (hdec : DecryptsPurely P.hsm) (hexport : ExportsKeys K)
    (h : Interleaving P tek fhek nodes c) (i : Bool) : (nodes i).Prepared K tek fhek := by
  have hupdate : ∀ {nodes : Bool → RadioNode σ κ Q} {n' : RadioNode σ κ Q} {j : Bool},
      (∀ i, (nodes i).Prepared K tek fhek) → n'.Prepared K tek fhek →
      ∀ i, (Function.update nodes j n' i).Prepared K tek fhek := fun hnodes hn' =>
    (Function.forall_update_iff _ fun _ n => Prepared K tek fhek n).mpr
      ⟨hn', fun i _ => hnodes i⟩
  induction h generalizing i with
  | new hnew _ =>
    obtain ⟨id, hsm, c', heq⟩ := hnew i
    rw [heq]
    exact prepared_new id hsm c'
  | start j _ ih => exact hupdate ih ((ih j).start hexport) i
  | @tick _ _ _ _ _ j _ _ _ htick ih => exact hupdate ih ((ih j).tick hdec htick) i

end Invariant

section Delivery
variable (P : Platform S σ κ)

namespace RadioNode

/-- The hop frequency of the current frame. -/
def hopFrequency (n : RadioNode σ κ Q) : Option Frequency :=
  n.hopSeq.bind fun hopSeq => (hopSeq.getHopFrequency P.aes 0 n.frameNumber 0).toOption

/-- Nothing waits to be read but beacons on the discovery frequency. -/
structure Awaits (n : RadioNode σ κ Q) (c : SimChannel S) (waiting : List WireMessage) :
    Prop where
  dataInbox : n.dataInbox = []
  beacons : ∀ m ∈ waiting, m.header.msgType = kMsgTypeBeacon
  discovery : c.buffered n.radio.radioId kDiscoveryFreq =
    bytesToSamples P.format (WireMessage.stream waiting)
  hop : ∀ freq, freq ≠ kDiscoveryFreq → c.buffered n.radio.radioId freq = []

/-- A data message with a ciphertext. -/
def dataMessage (n : RadioNode σ κ Q) (dest : UInt32) (ciphertext : Bytes)
    (h : ciphertext.length < 2 ^ 32) : WireMessage where
  header := ⟨kMsgTypeData, n.id, dest, UInt32.ofNat ciphertext.length⟩
  payload := ciphertext
  length_payload := (Nat.mod_eq_of_lt h).symm

end RadioNode

variable {P} {K : KeyObjects P.hsm} {tek fhek : Bytes}

theorem RadioNode.Keyed.exists_hopFrequency (haes : AesReturns P.aes) {n : RadioNode σ κ Q}
    (h : n.Keyed K tek fhek) : ∃ hopSeq freq, n.hopSeq = some hopSeq ∧
      hopSeq.getHopFrequency P.aes 0 n.frameNumber 0 = .ok freq ∧
      n.hopFrequency P = some freq := by
  obtain ⟨hopSeq, hseq, hnew⟩ := h.hopSeq
  obtain ⟨freq, hfreq⟩ := HopSequencer.exists_getHopFrequency
    (fun block => haes hopSeq.fhek block (HopSequencer.new_fhek hnew)) 0 n.frameNumber 0
  refine ⟨hopSeq, freq, hseq, hfreq, ?_⟩
  rw [RadioNode.hopFrequency, hseq, Option.bind_some, hfreq]
  rfl

/-- What a data call leaves in the queues of another radio. -/
theorem sendData_buffered (haes : AesReturns P.aes) {a : RadioNode σ κ Q}
    (ha : a.Keyed K tek fhek) {c : SimChannel S} (hpartition : c.partitionActive = false)
    {radioId : UInt32} (hne : radioId ≠ a.radio.radioId)
    (hradio : c.registeredRadios.count radioId = 1) (dest : UInt32) {payload ciphertext : Bytes}
    (hlt : ciphertext.length < 2 ^ 32)
    (hsealed : (KeyManager.encryptWithTek P.hsm payload a.keyMgr).2 = .ok (some ciphertext))
    (freq : Frequency) :
    (a.sendData P dest payload c).2.1.buffered radioId freq = c.buffered radioId freq ++
      bytesToSamples P.format
        (if a.hopFrequency P = some freq then (a.dataMessage dest ciphertext hlt).bytes
        else []) := by
  obtain ⟨hopSeq, hopFreq, hseq, hfreq, hhop⟩ := ha.exists_hopFrequency haes
  have hmute : ¬ (a.state = .idle ∨ a.keyMgr.isInitialized = false) := by
    rw [ha.isInitialized]
    rintro (hidle | hfalse)
    · exact ha.state hidle
    · cases hfalse
  have honAir : a.onAir P (.sendData dest payload) =
      some (hopFreq, (a.dataMessage dest ciphertext hlt).header, ciphertext) := by
    rw [onAir, if_neg hmute, RadioNode.sealed, hsealed, hseq]
    simp only [hfreq]
    rfl
  rw [sendData_channel, honAir, putOnAir_buffered a c freq _ hne hradio]
  congr 2
  rw [RadioNode.carried, hhop]
  simp only [ha.txEnabled, SimChannel.drops_of_not_partition hpartition, true_and,
    Option.some.injEq, eq_comm (a := freq)]
  rfl

theorem samplesToBytes_take_of_le {data : Bytes} (h : data.length ≤ kReadSize) :
    samplesToBytes P.format ((bytesToSamples P.format data).take kReadSize) = data := by
  rw [samplesToBytes_take, List.take_of_length_le h]

theorem discoveryRead_of_le {n : RadioNode σ κ Q} {c : SimChannel S} {data : Bytes}
    (hqueue : c.buffered n.radio.radioId kDiscoveryFreq = bytesToSamples P.format data)
    (hle : data.length ≤ kReadSize) : discoveryRead P n c = data := by
  rw [discoveryRead, hqueue]
  exact samplesToBytes_take_of_le hle

/-- What the second read of a frame takes, when the first has taken its whole queue. -/
theorem hopRead_of_le (haes : AesReturns P.aes) {n : RadioNode σ κ Q} (h : n.Keyed K tek fhek)
    {c : SimChannel S} {data : Frequency → Bytes}
    (hqueue : ∀ freq, c.buffered n.radio.radioId freq = bytesToSamples P.format (data freq))
    (hle : ∀ freq, (data freq).length ≤ kReadSize) :
    ∃ freq, n.hopFrequency P = some freq ∧
      hopRead P n (c.receive n.radio.radioId kDiscoveryFreq kReadSize).1 =
        if freq = kDiscoveryFreq then [] else data freq := by
  obtain ⟨hopSeq, freq, hseq, hfreq, hhop⟩ := h.exists_hopFrequency haes
  refine ⟨freq, hhop, ?_⟩
  unfold hopRead
  rw [hseq]
  simp only [hfreq]
  rw [SimChannel.buffered_receive]
  split
  · have hrest : (c.buffered n.radio.radioId kDiscoveryFreq).drop kReadSize = [] := by
      rw [hqueue]
      apply List.drop_eq_nil_of_le
      rw [bytesToSamples, List.length_map]
      exact hle kDiscoveryFreq
    rw [hrest]
    rfl
  · rw [hqueue]
    exact samplesToBytes_take_of_le (hle freq)

/-- The bytes of a message, if it arrives. -/
def arriving (m : WireMessage) (arrives : Prop) [Decidable arrives] : Bytes :=
  if arrives then m.bytes else []

theorem messages_arriving (m : WireMessage) (arrives : Prop) [Decidable arrives] :
    messages (arriving m arrives) = if arrives then [m.parsed] else [] := by
  unfold arriving
  split
  · have hone := WireMessage.messages_stream [m]
    rwa [WireMessage.stream, List.flatMap_singleton] at hone
  · exact messages_nil

theorem length_arriving_le (m : WireMessage) (arrives : Prop) [Decidable arrives] :
    (arriving m arrives).length ≤ 13 + m.payload.length := by
  unfold arriving
  split
  · exact List.length_append.le
  · exact Nat.zero_le _

/-- The messages that the frame after a data call reads. -/
theorem frameMessages_sendData (haes : AesReturns P.aes) {a b : RadioNode σ κ Q}
    (ha : a.Keyed K tek fhek) (hb : b.Keyed K tek fhek) {c : SimChannel S}
    (hpartition : c.partitionActive = false) (hne : b.radio.radioId ≠ a.radio.radioId)
    (hradio : c.registeredRadios.count b.radio.radioId = 1) {waiting : List WireMessage}
    (hwaits : b.Awaits P c waiting) (dest : UInt32) {payload ciphertext : Bytes}
    (hlt : ciphertext.length < 2 ^ 32)
    (hsealed : (KeyManager.encryptWithTek P.hsm payload a.keyMgr).2 = .ok (some ciphertext))
    (hfits : (WireMessage.stream waiting).length + (13 + ciphertext.length) ≤ kReadSize) :
    frameMessages P b (a.sendData P dest payload c).2.1 = waiting.map WireMessage.parsed ++
      if a.hopFrequency P = b.hopFrequency P ∨ a.hopFrequency P = some kDiscoveryFreq then
        [(a.dataMessage dest ciphertext hlt).parsed]
      else [] := by
  have hqueues := sendData_buffered haes ha hpartition hne hradio dest hlt hsealed
  have hpayload : (a.dataMessage dest ciphertext hlt).payload.length = ciphertext.length := rfl
  generalize (a.sendData P dest payload c).2.1 = sent at hqueues
  generalize a.dataMessage dest ciphertext hlt = m at hqueues hpayload
  -- behind the beacons, the message is in the queue of the sender's frequency
  let data (freq : Frequency) : Bytes :=
    (if freq = kDiscoveryFreq then WireMessage.stream waiting else []) ++
      arriving m (a.hopFrequency P = some freq)
  have hqueue : ∀ freq, sent.buffered b.radio.radioId freq =
      bytesToSamples P.format (data freq) := by
    intro freq
    have hbefore : c.buffered b.radio.radioId freq = bytesToSamples P.format
        (if freq = kDiscoveryFreq then WireMessage.stream waiting else []) := by
      split
      · next heq => rw [heq, hwaits.discovery]
      · next hfreq => exact hwaits.hop freq hfreq
    rw [hqueues, hbefore]
    exact List.map_append.symm
  have hle : ∀ freq, (data freq).length ≤ kReadSize := by
    intro freq
    have harrives := length_arriving_le m (a.hopFrequency P = some freq)
    rw [hpayload] at harrives
    rw [List.length_append]
    refine (Nat.add_le_add ?_ harrives).trans hfits
    split
    · exact Nat.le_refl _
    · exact Nat.zero_le _
  have hdiscovery : discoveryRead P b sent =
      WireMessage.stream waiting ++ arriving m (a.hopFrequency P = some kDiscoveryFreq) := by
    rw [discoveryRead_of_le (hqueue kDiscoveryFreq) (hle kDiscoveryFreq)]
    exact congrArg (· ++ _) (if_pos rfl)
  obtain ⟨freq, hhop, hread⟩ := hopRead_of_le haes hb hqueue hle
  rw [frameMessages, hdiscovery, hread, WireMessage.messages_stream_append, messages_arriving,
    hhop, List.append_assoc]
  congr 1
  by_cases hsame : freq = kDiscoveryFreq
  · rw [if_pos hsame, hsame, messages_nil, List.append_nil]
    simp only [or_self]
  · have hdata : data freq = arriving m (a.hopFrequency P = some freq) := by
      simp only [data, if_neg hsame, List.nil_append]
    rw [if_neg hsame, hdata, messages_arriving]
    by_cases hdisc : a.hopFrequency P = some kDiscoveryFreq
    · have hother : a.hopFrequency P ≠ some freq := by
        rw [hdisc]
        exact fun h => hsame (Option.some.inj h).symm
      rw [if_pos hdisc, if_neg hother, if_pos (.inr hdisc), List.append_nil]
    · simp only [hdisc, if_false, or_false, List.nil_append]

/-- A data message to a node with the same TEK gives an entry with the payload. -/
theorem delivered_dataMessage (hopens : OpensSealed K) {a b : RadioNode σ κ Q}
    (ha : a.Keyed K tek fhek) (hb : b.Keyed K tek fhek) {payload ciphertext : Bytes}
    (hlt : ciphertext.length < 2 ^ 32)
    (hsealed : (KeyManager.encryptWithTek P.hsm payload a.keyMgr).2 = .ok (some ciphertext)) :
    b.delivered P (a.dataMessage b.id ciphertext hlt).parsed = some ⟨a.id, payload⟩ := by
  obtain ⟨h, hheld, hkey⟩ := Option.bind_eq_some_iff.mp ha.tekValue
  obtain ⟨h', hheld', hkey'⟩ := Option.bind_eq_some_iff.mp hb.tekValue
  have hto : b.addressed (a.dataMessage b.id ciphertext hlt).header = true := by
    unfold addressed
    rw [Bool.or_eq_true]
    exact .inl (beq_self_eq_true b.id)
  have hencrypt : (P.hsm.encrypt a.keyMgr.hsm h payload).2 = .ok (some ciphertext) := by
    unfold KeyManager.encryptWithTek at hsealed
    rwa [hheld] at hsealed
  have hdecrypt := hopens _ _ _ _ b.keyMgr.hsm h' hencrypt (by rw [hkey]; rfl)
    (hkey'.trans hkey.symm)
  have hplain : (KeyManager.decryptWithTek P.hsm ciphertext b.keyMgr).2 = .ok (some payload) := by
    unfold KeyManager.decryptWithTek
    rw [hheld']
    exact hdecrypt
  have hparsed : (a.dataMessage b.id ciphertext hlt).parsed =
      (⟨kMsgTypeData, a.id, b.id, UInt32.ofNat ciphertext.length⟩, ciphertext) := rfl
  rw [hparsed, delivered, if_pos ⟨rfl, hto⟩, opened, if_pos hb.isInitialized]
  simp only [hplain]

theorem RadioNode.Awaits.delivered_eq_nil {n : RadioNode σ κ Q} {c : SimChannel S}
    {waiting : List WireMessage} (h : n.Awaits P c waiting) :
    (waiting.map WireMessage.parsed).filterMap (n.delivered P) = [] := by
  rw [List.filterMap_eq_nil_iff]
  intro m hm
  obtain ⟨beacon, hbeacon, rfl⟩ := List.mem_map.mp hm
  apply delivered_of_ne
  change beacon.header.msgType ≠ kMsgTypeData
  rw [h.beacons beacon hbeacon]
  decide

theorem RadioNode.Awaits.not_voice {n : RadioNode σ κ Q} {c : SimChannel S}
    {waiting : List WireMessage} (h : n.Awaits P c waiting) {m : MessageHeader × Bytes}
    (hm : m ∈ waiting.map WireMessage.parsed) : m.1.msgType ≠ kMsgTypeVoice := by
  obtain ⟨beacon, hbeacon, rfl⟩ := List.mem_map.mp hm
  change beacon.header.msgType ≠ kMsgTypeVoice
  rw [h.beacons beacon hbeacon]
  decide

section Frame
variable [Preorder Q] [WellFoundedGT Q] [DecidableLT Q] [One Q] [Mul Q] [Zero Q]

/-- The frame after a data call gets the payload exactly if the sender is on the hop
frequency of the frame or on the discovery frequency. -/
theorem receiveData_after_sendData (hdec : DecryptsPurely P.hsm) (haes : AesReturns P.aes)
    (hopens : OpensSealed K) {a b : RadioNode σ κ Q} (ha : a.Keyed K tek fhek)
    (hb : b.Keyed K tek fhek) (hsound : b.Sound) {c : SimChannel S}
    (hpartition : c.partitionActive = false) (hne : b.radio.radioId ≠ a.radio.radioId)
    (hradio : c.registeredRadios.count b.radio.radioId = 1) {waiting : List WireMessage}
    (hwaits : b.Awaits P c waiting) {payload ciphertext : Bytes}
    (hsealed : (KeyManager.encryptWithTek P.hsm payload a.keyMgr).2 = .ok (some ciphertext))
    (hfits : (WireMessage.stream waiting).length + (13 + ciphertext.length) ≤ kReadSize)
    (now : ℕ) :
    ∃ n' c' result,
      Returns (fun limit => b.tick P limit now (a.sendData P b.id payload c).2.1)
        (n', c', result) ∧
      n'.receiveData.2 = if a.hopFrequency P = b.hopFrequency P ∨
          a.hopFrequency P = some kDiscoveryFreq then some ⟨a.id, payload⟩ else none := by
  have hlt : ciphertext.length < 2 ^ 32 := by
    unfold kReadSize at hfits
    omega
  have hread := frameMessages_sendData haes ha hb hpartition hne hradio hwaits b.id
    hlt hsealed hfits
  have hentry := delivered_dataMessage hopens ha hb hlt hsealed
  have hdata : (a.dataMessage b.id ciphertext hlt).header.msgType = kMsgTypeData := rfl
  generalize (a.sendData P b.id payload c).2.1 = sent at hread ⊢
  generalize a.dataMessage b.id ciphertext hlt = m at hread hentry hdata
  obtain ⟨n', c', result, hreturns, -, hcompletes⟩ :=
    tick_spec hdec haes hsound hb.state now sent
  have hfaults : ∀ m' ∈ frameMessages P b sent, ¬ VoiceFault P b m' := by
    rintro m' hm' ⟨hvoice, -, -⟩
    rw [hread] at hm'
    rcases List.mem_append.mp hm' with hm' | hm'
    · exact hwaits.not_voice hm' hvoice
    · split at hm'
      · rw [List.mem_singleton.mp hm'] at hvoice
        change m.header.msgType = kMsgTypeVoice at hvoice
        rw [hdata] at hvoice
        cases hvoice
      · exact List.not_mem_nil hm'
  obtain ⟨rfl, -, -⟩ := hcompletes.mpr hfaults
  refine ⟨n', c', .ok (), hreturns, ?_⟩
  obtain ⟨limit, hlimit⟩ := hreturns
  have hinbox := tick_inbox hdec hb.state (hlimit limit (Nat.le_refl limit))
  rw [hwaits.dataInbox, List.nil_append, hread, List.filterMap_append,
    hwaits.delivered_eq_nil, List.nil_append] at hinbox
  change n'.dataInbox.head? = _
  rw [hinbox]
  split
  · rw [List.filterMap_cons_some hentry]
    rfl
  · rfl

/-- Data from one node to the other reaches its next frame exactly if their frame numbers
select one frequency, in particular if they are the same, or if the sender's frame number
selects the discovery frequency. -/
theorem received_iff_same_frequency (hdec : DecryptsPurely P.hsm) (haes : AesReturns P.aes)
    (hexport : ExportsKeys K) (hopens : OpensSealed K) {nodes : Bool → RadioNode σ κ Q}
    {c : SimChannel S} (h : Interleaving P tek fhek nodes c) (a : Bool)
    (hpeer : (nodes (!a)).id ∈ (nodes a).peers) (hpeer' : (nodes a).id ∈ (nodes (!a)).peers)
    {waiting : List WireMessage} (hwaits : (nodes (!a)).Awaits P c waiting)
    {payload ciphertext : Bytes}
    (hsealed : (KeyManager.encryptWithTek P.hsm payload (nodes a).keyMgr).2 =
      .ok (some ciphertext))
    (hfits : (WireMessage.stream waiting).length + (13 + ciphertext.length) ≤ kReadSize)
    (now : ℕ) :
    ∃ n' c' result,
      Returns (fun limit => (nodes (!a)).tick P limit now
        ((nodes a).sendData P (nodes (!a)).id payload c).2.1) (n', c', result) ∧
      n'.receiveData.2 = (if (nodes a).hopFrequency P = (nodes (!a)).hopFrequency P ∨
          (nodes a).hopFrequency P = some kDiscoveryFreq then
        some ⟨(nodes a).id, payload⟩ else none) ∧
      ((nodes a).frameNumber = (nodes (!a)).frameNumber →
        n'.receiveData.2 = some ⟨(nodes a).id, payload⟩) := by
  have hprepared := h.prepared hdec hexport
  have hchannel := h.onChannel
  have hsender := (hprepared a).keyed hpeer
  have hreceiver := (hprepared (!a)).keyed hpeer'
  obtain ⟨n', c', result, hreturns, hreceived⟩ := receiveData_after_sendData hdec haes hopens
    hsender hreceiver ((hprepared (!a)).sound hreceiver.state) hchannel.partitionActive
    (hchannel.distinct a) (hchannel.registered (!a)) hwaits hsealed hfits now
  refine ⟨n', c', result, hreturns, hreceived, fun hframe => ?_⟩
  have hsame : (nodes a).hopFrequency P = (nodes (!a)).hopFrequency P := by
    unfold RadioNode.hopFrequency
    rw [hframe, hsender.hopSeq_eq hreceiver]
  rw [hreceived, if_pos (.inl hsame)]

end Frame

end Delivery
end Runs

/-- A started node that lists its peer and has nothing left to read gets what the peer
sends. -/
def PeersRendezvous : Prop :=
  ∀ (S σ κ Q : Type) [Preorder Q] [WellFoundedGT Q] [DecidableLT Q] [One Q] [Mul Q] [Zero Q]
    (P : Platform S σ κ) (K : KeyObjects P.hsm), DecryptsPurely P.hsm → AesReturns P.aes →
    ExportsKeys K → OpensSealed K →
    ∀ (tek fhek : Bytes) (nodes : Bool → RadioNode σ κ Q) (c : SimChannel S),
      Interleaving P tek fhek nodes c → ∀ a : Bool,
      (nodes (!a)).id ∈ (nodes a).peers → (nodes a).id ∈ (nodes (!a)).peers →
      (nodes (!a)).dataInbox = [] →
      (∀ freq, c.buffered (nodes (!a)).radio.radioId freq = []) →
      ∀ payload ciphertext, (KeyManager.encryptWithTek P.hsm payload (nodes a).keyMgr).2 =
        .ok (some ciphertext) → 13 + ciphertext.length ≤ kReadSize → ∀ now, ∃ n' c' result,
        Returns (fun limit => (nodes (!a)).tick P limit now
          ((nodes a).sendData P (nodes (!a)).id payload c).2.1) (n', c', result) ∧
        n'.receiveData.2 = some ⟨(nodes a).id, payload⟩

section Samples
open RadioNode

/-- A channel with the radios of two nodes. -/
def pairChannel : SimChannel UInt8 := SimChannel.new.registerRadio.1.registerRadio.1

/-- Both nodes are started and run frames, the last first. -/
def ticked : List Bool → (Bool → SampleNode) × SimChannel UInt8
  | [] => (nodesOf (started alice) (started bob), pairChannel)
  | i :: is =>
    match ((ticked is).1 i).tick samplePlatform 8 0 (ticked is).2 with
    | none => ticked is
    | some (n', c', _) => (Function.update (ticked is).1 i n', c')

theorem ticked_interleaving (is : List Bool) :
    Interleaving samplePlatform (List.replicate 32 0xAA) (List.replicate 32 0xBB)
      (ticked is).1 (ticked is).2 := by
  induction is with
  | nil =>
    have hnew : Interleaving samplePlatform (List.replicate 32 0xAA) (List.replicate 32 0xBB)
        (nodesOf (keyed alice) (keyed bob)) pairChannel := by
      refine .new (fun i => ?_) ⟨rfl, ?_, ?_⟩
      · cases i with
        | false => exact ⟨1, [], SimChannel.new, rfl⟩
        | true => exact ⟨2, [], SimChannel.new.registerRadio.1, rfl⟩
      · decide
      · decide
    have hboth := (hnew.start false).start true
    rw [update_nodesOf_false, update_nodesOf_true] at hboth
    exact hboth
  | cons i is ih =>
    unfold ticked
    split
    · exact ih
    · next htick => exact ih.tick htick

theorem tableKeys_exports : ExportsKeys tableKeys := by
  refine fun s h => ⟨rfl, fun raw hraw => ?_⟩
  exact Except.ok.inj hraw

theorem tableKeys_opens : OpensSealed tableKeys := by
  intro s h plaintext ciphertext s' h' hencrypt hheld hkey
  obtain ⟨k, hk⟩ := Option.isSome_iff_exists.mp hheld
  have hk : tableKey s h = some k := hk
  have hk' : tableKey s' h' = some k := hkey.trans hk
  change (Except.ok ((tableKey s h).map fun k => k ++ plaintext) : Throws (Option Bytes)) = _
    at hencrypt
  change (Except.ok ((tableKey s' h').bind fun k => tableUnwrap k ciphertext) :
    Throws (Option Bytes)) = _
  rw [hk] at hencrypt
  cases hencrypt
  rw [hk', Option.bind_some, tableUnwrap, List.take_left, if_pos rfl, List.drop_left]

theorem buffered_of_toList {c : SimChannel UInt8} {radioId : UInt32}
    (h : ∀ p ∈ (c.rxBuffers.getD radioId ∅).toList, p.2 = []) (freq : Frequency) :
    c.buffered radioId freq = [] := by
  unfold SimChannel.buffered
  cases hfreq : (c.rxBuffers.getD radioId ∅)[freq]? with
  | none => exact OrderedMaps.getD_of_none hfreq []
  | some samples =>
    rw [OrderedMaps.getD_of_some hfreq]
    exact h (freq, samples) (Std.ExtTreeMap.mem_toList_iff_getElem?_eq_some.mpr hfreq)

/-- Two frames of each node in turn. -/
def inStep : List Bool := [true, false, true, false]

/-- And one more of node 2. -/
def outOfStep : List Bool := true :: inStep

/-- What the samples need of a run: the nodes list each other, node 2 has nothing to read,
and node 1 can encrypt. -/
structure Met (is : List Bool) : Prop where
  peers : ((ticked is).1 true).id ∈ ((ticked is).1 false).peers
  peers' : ((ticked is).1 false).id ∈ ((ticked is).1 true).peers
  dataInbox : ((ticked is).1 true).dataInbox = []
  queues : ∀ p ∈ ((ticked is).2.rxBuffers.getD ((ticked is).1 true).radio.radioId ∅).toList,
    p.2 = []
  sealed : (KeyManager.encryptWithTek samplePlatform.hsm [1, 2, 3]
    ((ticked is).1 false).keyMgr).2 = .ok (some sampleCiphertext)

theorem met_inStep : Met inStep where
  peers := by decide +kernel
  peers' := by decide +kernel
  dataInbox := by decide +kernel
  queues := by decide +kernel
  sealed := by decide +kernel

theorem met_outOfStep : Met outOfStep where
  peers := by decide +kernel
  peers' := by decide +kernel
  dataInbox := by decide +kernel
  queues := by decide +kernel
  sealed := by decide +kernel

theorem Met.awaits {is : List Bool} (h : Met is) :
    ((ticked is).1 true).Awaits samplePlatform (ticked is).2 [] where
  dataInbox := h.dataInbox
  beacons := fun _ hm => (List.not_mem_nil hm).elim
  discovery := buffered_of_toList h.queues kDiscoveryFreq
  hop := fun freq _ => buffered_of_toList h.queues freq

theorem received_iff_same_frequency_inStep : ∃ n' c' result,
    Returns (fun limit => ((ticked inStep).1 true).tick samplePlatform limit 0
      (((ticked inStep).1 false).sendData samplePlatform ((ticked inStep).1 true).id [1, 2, 3]
        (ticked inStep).2).2.1) (n', c', result) ∧
      n'.receiveData.2 = some ⟨((ticked inStep).1 false).id, [1, 2, 3]⟩ := by
  obtain ⟨n', c', result, hreturns, -, hsame⟩ := received_iff_same_frequency
    samplePlatform_decrypts samplePlatform_aes tableKeys_exports tableKeys_opens
    (ticked_interleaving inStep) false met_inStep.peers met_inStep.peers' met_inStep.awaits
    met_inStep.sealed (by decide) 0
  exact ⟨n', c', result, hreturns, hsame (by decide +kernel)⟩

/-- Node 2 is one frame ahead, and gets nothing. -/
theorem not_peersRendezvous : ¬ PeersRendezvous := by
  intro h
  have hrun := ticked_interleaving outOfStep
  have hprepared := hrun.prepared samplePlatform_decrypts tableKeys_exports
  have hchannel := hrun.onChannel
  have hsender := (hprepared false).keyed met_outOfStep.peers
  have hreceiver := (hprepared true).keyed met_outOfStep.peers'
  obtain ⟨n', c', result, hreturns, hreceived⟩ := h UInt8 (List (Option Bytes)) Unit
    MeshRouter.Percent samplePlatform tableKeys samplePlatform_decrypts samplePlatform_aes
    tableKeys_exports tableKeys_opens _ _ _ _ hrun false met_outOfStep.peers met_outOfStep.peers'
    met_outOfStep.dataInbox (buffered_of_toList met_outOfStep.queues) [1, 2, 3] sampleCiphertext
    met_outOfStep.sealed (by decide) 0
  obtain ⟨n₁, c₁, result₁, hreturns₁, hreceived₁⟩ := receiveData_after_sendData
    samplePlatform_decrypts samplePlatform_aes tableKeys_opens hsender hreceiver
    ((hprepared true).sound hreceiver.state) hchannel.partitionActive (hchannel.distinct false)
    (hchannel.registered true) met_outOfStep.awaits met_outOfStep.sealed (by decide) 0
  have heq := hreturns.unique hreturns₁
  cases heq
  have hapart : ¬ (((ticked outOfStep).1 false).hopFrequency samplePlatform =
      ((ticked outOfStep).1 true).hopFrequency samplePlatform ∨
      ((ticked outOfStep).1 false).hopFrequency samplePlatform = some kDiscoveryFreq) := by
    decide +kernel
  rw [if_neg hapart, hreceived] at hreceived₁
  cases hreceived₁

end Samples
end Cirradio.Node
