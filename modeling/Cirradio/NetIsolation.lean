import Cirradio.FrameCompletion
import Mathlib.Data.List.Induction

/-!
# Beacons of other networks

A beacon carries the identifier of a network, and nothing compares it. A beacon of another
network is without effect only when its node is known anyway.
-/

namespace Cirradio.Network
open WhileLoops OrderedMaps

/-- A peer discovery and the router that it feeds. -/
structure Listener (Q : Type) where
  discovery : PeerDiscovery
  router : MeshRouter Q

namespace Listener
variable {Q : Type}

def new (nodeId : UInt32) (netId : UInt32 := 0) : Listener Q := ⟨.new nodeId netId, .new nodeId⟩

/-- The beacon carries the identifier of the listener's network. -/
def ofNet (l : Listener Q) (beacon : DiscoveryBeacon) : Bool :=
  beacon.netId == l.discovery.netId

/-- The listener knows the node, or is the node. -/
def Knows (l : Listener Q) (id : UInt32) : Prop :=
  id = l.discovery.nodeId ∨ id ∈ l.discovery.discovered

/-- The same peers and the same routes. -/
structure SameView (l l' : Listener Q) : Prop where
  peers : l.discovery.discoveredNodes = l'.discovery.discoveredNodes
  routes : ∀ destination, l.router.routeTo destination = l'.router.routeTo destination

/-- Every beacon of another network is of a node that is known by then, from before or from a
beacon of the own network. -/
def OfKnown (l : Listener Q) (beacons : List DiscoveryBeacon) : Prop :=
  ∀ i beacon, beacons[i]? = some beacon → l.ofNet beacon = false →
    l.Knows beacon.nodeId ∨ ∃ b ∈ beacons.take i, l.ofNet b = true ∧ b.nodeId = beacon.nodeId

theorem isNew_iff (l : Listener Q) (beacon : DiscoveryBeacon) :
    (l.discovery.processBeacon beacon).2 = true ↔ ¬ l.Knows beacon.nodeId := by
  rw [PeerDiscovery.processBeacon_isNew, Knows, not_or]

variable {l l' l₁ l₂ : Listener Q} {limit : ℕ} {beacon : DiscoveryBeacon}
  {beacons : List DiscoveryBeacon}

/-- The same but for the times of the peers. -/
structure Same (l₁ l₂ : Listener Q) : Prop where
  nodeId : l₁.discovery.nodeId = l₂.discovery.nodeId
  discovered : ∀ id, id ∈ l₁.discovery.discovered ↔ id ∈ l₂.discovery.discovered
  router : l₁.router = l₂.router

theorem Same.view (h : Same l₁ l₂) : SameView l₁ l₂ :=
  ⟨keys_eq_of_mem_iff h.discovered, fun destination => by rw [h.router]⟩

theorem Same.knows (h : Same l₁ l₂) (id : UInt32) : l₁.Knows id ↔ l₂.Knows id := by
  unfold Knows
  rw [h.nodeId, h.discovered]

theorem Same.processBeacon (h : Same l₁ l₂) (beacon : DiscoveryBeacon)
    (router : MeshRouter Q) :
    Same ⟨(l₁.discovery.processBeacon beacon).1, router⟩
      ⟨(l₂.discovery.processBeacon beacon).1, router⟩ := by
  refine ⟨?_, fun id => ?_, rfl⟩
  · rw [PeerDiscovery.processBeacon_nodeId, PeerDiscovery.processBeacon_nodeId, h.nodeId]
  · rw [PeerDiscovery.mem_processBeacon, PeerDiscovery.mem_processBeacon, h.discovered, h.nodeId]

theorem Same.hear_of_knows (h : Same l₁ l₂) (hknows : l₁.Knows beacon.nodeId) :
    Same { l₁ with discovery := (l₁.discovery.processBeacon beacon).1 } l₂ := by
  refine ⟨?_, fun id => ?_, h.router⟩
  · rw [PeerDiscovery.processBeacon_nodeId, h.nodeId]
  · rw [PeerDiscovery.mem_processBeacon, ← h.discovered]
    constructor
    · rintro (hmem | ⟨hother, rfl⟩)
      · exact hmem
      · exact hknows.resolve_left hother
    · exact .inl

section Hear
variable [LT Q] [DecidableLT Q] [One Q] [Mul Q] [Zero Q]

/-- A beacon of a new node adds it to the neighbours, with quality one. -/
def hear (limit : ℕ) (l : Listener Q) (beacon : DiscoveryBeacon) : Option (Listener Q) := do
  let (discovery, isNew) := l.discovery.processBeacon beacon
  if isNew then
    let router ← l.router.updateNeighbor limit beacon.nodeId 1
    some ⟨discovery, router⟩
  else some { l with discovery }

def hearAll (limit : ℕ) (l : Listener Q) (beacons : List DiscoveryBeacon) :
    Option (Listener Q) :=
  beacons.foldlM (hear limit) l

/-- The listeners that there are. -/
inductive Fed : Listener Q → Prop
  | new (nodeId netId : UInt32) : Fed (new nodeId netId)
  | hear {l l' : Listener Q} {limit : ℕ} (beacon : DiscoveryBeacon) :
      Fed l → l.hear limit beacon = some l' → Fed l'

/-- After any prefix, peers and routes are what they are without the beacons of other
networks. -/
def Isolated (l : Listener Q) (beacons : List DiscoveryBeacon) : Prop :=
  ∀ k, ∃ l₁ l₂, Returns (fun limit => l.hearAll limit (beacons.take k)) l₁ ∧
    Returns (fun limit => l.hearAll limit ((beacons.take k).filter l.ofNet)) l₂ ∧
    SameView l₁ l₂

theorem hear_of_knows (h : l.Knows beacon.nodeId) (limit : ℕ) :
    l.hear limit beacon =
      some { l with discovery := (l.discovery.processBeacon beacon).1 } := by
  have hknown : (l.discovery.processBeacon beacon).2 = false := by
    rw [← Bool.not_eq_true, isNew_iff, not_not]
    exact h
  simp only [hear, hknown, Bool.false_eq_true, if_false]

theorem hear_of_not_knows (h : ¬ l.Knows beacon.nodeId) (limit : ℕ) :
    l.hear limit beacon = (l.router.updateNeighbor limit beacon.nodeId 1).bind fun router =>
      some ⟨(l.discovery.processBeacon beacon).1, router⟩ := by
  simp only [hear, (isNew_iff l beacon).mpr h, if_true]
  rfl

theorem hear_discovery (h : l.hear limit beacon = some l') :
    l'.discovery = (l.discovery.processBeacon beacon).1 := by
  by_cases hknows : l.Knows beacon.nodeId
  · rw [hear_of_knows hknows] at h
    cases h
    rfl
  · rw [hear_of_not_knows hknows] at h
    obtain ⟨router, -, heq⟩ := Option.bind_eq_some_iff.mp h
    cases heq
    rfl

theorem knows_of_hear (h : l.hear limit beacon = some l') (id : UInt32) :
    l'.Knows id ↔ l.Knows id ∨ id = beacon.nodeId := by
  unfold Knows
  rw [hear_discovery h, PeerDiscovery.processBeacon_nodeId, PeerDiscovery.mem_processBeacon]
  by_cases hself : beacon.nodeId = l.discovery.nodeId
  · rw [hself]
    tauto
  · tauto

theorem hearAll_concat (limit : ℕ) (l : Listener Q) (beacons : List DiscoveryBeacon)
    (beacon : DiscoveryBeacon) : l.hearAll limit (beacons ++ [beacon]) =
      l.hearAll limit beacons >>= fun l' => l'.hear limit beacon := by
  simp [hearAll]

/-- After a sequence of beacons their nodes are known, and no others. -/
theorem knows_of_hearAll (h : l.hearAll limit beacons = some l') :
    l'.discovery.nodeId = l.discovery.nodeId ∧ l'.discovery.netId = l.discovery.netId ∧
      ∀ id, l'.Knows id ↔ l.Knows id ∨ ∃ b ∈ beacons, b.nodeId = id := by
  induction beacons using List.reverseRecOn generalizing l' with
  | nil =>
    cases h
    simp
  | append_singleton beacons beacon ih =>
    rw [hearAll_concat] at h
    obtain ⟨l₁, hbefore, hlast⟩ := Option.bind_eq_some_iff.mp h
    obtain ⟨hnode, hnet, hknows⟩ := ih hbefore
    refine ⟨?_, ?_, fun id => ?_⟩
    · rw [hear_discovery hlast, PeerDiscovery.processBeacon_nodeId, hnode]
    · rw [hear_discovery hlast, PeerDiscovery.processBeacon_netId, hnet]
    · rw [knows_of_hear hlast, hknows]
      simp [or_assoc, or_and_right, exists_or, eq_comm]

theorem Fed.own (h : Fed l) : l.router.Own := by
  induction h with
  | new nodeId netId => exact MeshRouter.own_new nodeId
  | @hear l l' limit beacon _ hhear ih =>
    by_cases hknows : l.Knows beacon.nodeId
    · rw [hear_of_knows hknows] at hhear
      cases hhear
      exact ih
    · rw [hear_of_not_knows hknows] at hhear
      obtain ⟨router, hrouter, heq⟩ := Option.bind_eq_some_iff.mp hhear
      cases heq
      exact ih.updateNeighbor hrouter

theorem Isolated.ofKnown (h : Isolated l beacons) : OfKnown l beacons := by
  intro i beacon hbeacon hforeign
  obtain ⟨l₁, l₂, ⟨n₁, hn₁⟩, ⟨n₂, hn₂⟩, hview⟩ := h (i + 1)
  obtain ⟨hnode₁, -, hknows₁⟩ := knows_of_hearAll (hn₁ n₁ (Nat.le_refl n₁))
  obtain ⟨hnode₂, -, hknows₂⟩ := knows_of_hearAll (hn₂ n₂ (Nat.le_refl n₂))
  have htake : beacons.take (i + 1) = beacons.take i ++ [beacon] := by
    rw [List.take_add_one, hbeacon]
    rfl
  have hheard : l₁.Knows beacon.nodeId :=
    (hknows₁ beacon.nodeId).mpr (.inr ⟨beacon, by simp [htake], rfl⟩)
  have hsame : l₂.Knows beacon.nodeId := by
    unfold Knows at hheard ⊢
    rw [hnode₂, ← hnode₁]
    refine hheard.imp_right fun hmem => ?_
    have hpeers : l₁.discovery.discovered.keys = l₂.discovery.discovered.keys := hview.peers
    rwa [← Std.ExtTreeMap.mem_keys, ← hpeers, Std.ExtTreeMap.mem_keys]
  refine ((hknows₂ beacon.nodeId).mp hsame).imp_right ?_
  rintro ⟨b, hb, hid⟩
  obtain ⟨hb, hnet⟩ := List.mem_filter.mp hb
  rw [htake, List.mem_append, List.mem_singleton] at hb
  rcases hb with hb | rfl
  · exact ⟨b, hb, hnet, hid⟩
  · rw [hforeign] at hnet
    cases hnet

end Hear

section Runs
variable [Preorder Q] [WellFoundedGT Q] [DecidableLT Q] [One Q] [Mul Q] [Zero Q]

theorem Same.exists_hear (h : Same l₁ l₂) (hown : l₁.router.Own) (beacon : DiscoveryBeacon) :
    ∃ l₁' l₂', Returns (fun limit => l₁.hear limit beacon) l₁' ∧
      Returns (fun limit => l₂.hear limit beacon) l₂' ∧ Same l₁' l₂' ∧ l₁'.router.Own := by
  by_cases hknows : l₁.Knows beacon.nodeId
  · simp only [Listener.hear_of_knows hknows, Listener.hear_of_knows ((h.knows _).mp hknows)]
    refine ⟨_, _, .pure _, .pure _, ?_, hown⟩
    rw [← h.router]
    exact h.processBeacon beacon l₁.router
  · obtain ⟨router, hreturns, hrouter, -⟩ :=
      hown.exists_returns_change (.updateNeighbor beacon.nodeId 1)
    simp only [hear_of_not_knows hknows, hear_of_not_knows fun hk => hknows ((h.knows _).mpr hk),
      ← h.router]
    exact ⟨_, _, hreturns.bind (.pure _), hreturns.bind (.pure _),
      h.processBeacon beacon router, hrouter⟩

theorem OfKnown.exists_same (hown : l.router.Own) (h : OfKnown l beacons) :
    ∃ l₁ l₂, Returns (fun limit => l.hearAll limit beacons) l₁ ∧
      Returns (fun limit => l.hearAll limit (beacons.filter l.ofNet)) l₂ ∧ Same l₁ l₂ ∧
      l₁.router.Own := by
  induction beacons using List.reverseRecOn with
  | nil => exact ⟨l, l, .pure l, .pure l, ⟨rfl, fun _ => Iff.rfl, rfl⟩, hown⟩
  | append_singleton beacons beacon ih =>
    have hbefore : OfKnown l beacons := by
      intro i b hb hforeign
      have hlt := (List.getElem?_eq_some_iff.mp hb).1
      have hi := h i b ((List.getElem?_append_left hlt).trans hb) hforeign
      rwa [List.take_append_of_le_length (Nat.le_of_lt hlt)] at hi
    obtain ⟨l₁, l₂, hreturns₁, hreturns₂, hsame, hown₁⟩ := ih hbefore
    rw [List.filter_append]
    cases hnet : l.ofNet beacon with
    | true =>
      obtain ⟨l₁', l₂', hhear₁, hhear₂, hsame', hown'⟩ := hsame.exists_hear hown₁ beacon
      refine ⟨l₁', l₂', ?_, ?_, hsame', hown'⟩
      · simp only [hearAll_concat]
        exact hreturns₁.bind hhear₁
      · rw [List.filter_cons_of_pos hnet, List.filter_nil]
        simp only [hearAll_concat]
        exact hreturns₂.bind hhear₂
    | false =>
      have hknows : l₁.Knows beacon.nodeId := by
        obtain ⟨n, hn⟩ := hreturns₁
        rw [(knows_of_hearAll (hn n (Nat.le_refl n))).2.2]
        have hlast := h beacons.length beacon List.getElem?_concat_length hnet
        rw [List.take_left] at hlast
        exact hlast.imp_right fun ⟨b, hb, _, hid⟩ => ⟨b, hb, hid⟩
      refine ⟨_, l₂, ?_, ?_, hsame.hear_of_knows hknows, hown₁⟩
      · simp only [hearAll_concat]
        refine hreturns₁.bind ?_
        simp only [Listener.hear_of_knows hknows]
        exact .pure _
      · rw [List.filter_cons_of_neg (Bool.eq_false_iff.mp hnet), List.filter_nil, List.append_nil]
        exact hreturns₂

theorem OfKnown.isolated (hl : Fed l) (h : OfKnown l beacons) : Isolated l beacons := by
  intro k
  have hprefix : OfKnown l (beacons.take k) := by
    intro i beacon hbeacon hforeign
    have hlt : i < k := by
      have hlen := (List.getElem?_eq_some_iff.mp hbeacon).1
      rw [List.length_take] at hlen
      omega
    rw [List.getElem?_take_of_lt hlt] at hbeacon
    rw [List.take_take, Nat.min_eq_left (Nat.le_of_lt hlt)]
    exact h i beacon hbeacon hforeign
  obtain ⟨l₁, l₂, hreturns₁, hreturns₂, hsame, -⟩ := hprefix.exists_same hl.own
  exact ⟨l₁, l₂, hreturns₁, hreturns₂, hsame.view⟩

/-- The networks are isolated exactly if every beacon of another one is of a node that is
known by then. -/
theorem isolated_iff (hl : Fed l) (beacons : List DiscoveryBeacon) :
    Isolated l beacons ↔ OfKnown l beacons :=
  ⟨Isolated.ofKnown, OfKnown.isolated hl⟩

end Runs

/-- A node that changes its network once it is known. -/
theorem isolated_iff_known :
    Isolated (new 1 : Listener MeshRouter.Percent) [⟨2, 0, 1, 0⟩, ⟨2, 7, 1, 1⟩] := by
  refine (isolated_iff (.new 1 0) _).mpr ?_
  intro i beacon hbeacon hforeign
  match i, hbeacon with
  | 0, hbeacon =>
    cases hbeacon
    cases hforeign
  | 1, hbeacon =>
    cases hbeacon
    exact .inr ⟨⟨2, 0, 1, 0⟩, List.mem_cons_self, rfl, rfl⟩

/-- A beacon of another network makes a peer. -/
theorem not_isolated :
    ¬ ∀ (Q : Type) [Preorder Q] [WellFoundedGT Q] [DecidableLT Q] [One Q] [Mul Q] [Zero Q]
      (l : Listener Q), Fed l → ∀ beacons, Isolated l beacons := by
  intro h
  have hknown := (h MeshRouter.Percent (new 1) (.new 1 0) [⟨2, 7, 1, 0⟩]).ofKnown
  rcases hknown 0 ⟨2, 7, 1, 0⟩ rfl rfl with (hself | hpeer) | ⟨b, hb, -⟩
  · cases hself
  · exact Std.ExtTreeMap.not_mem_empty hpeer
  · cases hb

end Listener
end Cirradio.Network

namespace Cirradio.Node
open Security Hal Network Fhss WhileLoops

namespace RadioNode
variable {S σ κ Q : Type} {P : Platform S σ κ}

/-- The peer discovery and the router of a node. -/
def listener (n : RadioNode σ κ Q) : Listener Q := ⟨n.discovery, n.router⟩

theorem openData_listener (n : RadioNode σ κ Q) (hdr : MessageHeader) (payload : Bytes) :
    (n.openData P hdr payload).1.listener = n.listener := by
  unfold openData
  split
  · rcases KeyManager.decryptWithTek P.hsm payload n.keyMgr with ⟨keyMgr, e | _ | decrypted⟩ <;>
      rfl
  · rfl

theorem openVoice_listener (n : RadioNode σ κ Q) (hdr : MessageHeader) (payload : Bytes) :
    (n.openVoice P hdr payload).1.listener = n.listener := by
  unfold openVoice
  split
  · rcases KeyManager.decryptWithTek P.hsm payload n.keyMgr with ⟨keyMgr, e | _ | decrypted⟩
    · rfl
    · rfl
    · simp only
      rcases n.voiceCodec.decode P.codec2 decrypted with ⟨voiceCodec, e | audio⟩ <;> rfl
  · rfl

theorem onHopMessage_listener (n : RadioNode σ κ Q) (hdr : MessageHeader) (payload : Bytes) :
    (n.onHopMessage P hdr payload).1.listener = n.listener := by
  unfold onHopMessage
  split
  · exact openData_listener n hdr payload
  · split
    · exact openVoice_listener n hdr payload
    · rfl

theorem start_listener (n : RadioNode σ κ Q) : (n.start P).1.listener = n.listener := by
  unfold start
  split
  · rfl
  · split
    · rfl
    · split
      · rfl
      · split <;> rfl

theorem sendEncrypted_listener (n : RadioNode σ κ Q) (msgType : UInt8) (dest : UInt32)
    (payload : Bytes) (c : SimChannel S) :
    (n.sendEncrypted P msgType dest payload c).1.listener = n.listener := by
  unfold sendEncrypted
  split
  · rfl
  · rfl
  · simp only
    split
    · rfl
    · split <;> rfl

theorem sendData_listener (n : RadioNode σ κ Q) (dest : UInt32) (payload : Bytes)
    (c : SimChannel S) : (n.sendData P dest payload c).1.listener = n.listener := by
  unfold sendData
  split
  · rfl
  · exact n.sendEncrypted_listener _ dest payload c

theorem voiceTx_listener (n : RadioNode σ κ Q) (dest : UInt32) (audio : List Int16)
    (c : SimChannel S) : (n.voiceTx P dest audio c).1.listener = n.listener := by
  unfold voiceTx
  split
  · rfl
  · split
    · rfl
    · exact sendEncrypted_listener _ _ dest _ c

theorem receiveFromChannel_length (P : Platform S σ κ) (n : RadioNode σ κ Q) (c : SimChannel S)
    (freq : Frequency) :
    (n.receiveFromChannel P c freq).2.2.length + 13 + 2 ^ 32 ≤ 2 ^ 64 := by
  obtain ⟨n₁, hread, -⟩ := receiveFromChannel_spec P n c freq
  rw [hread]
  exact samplesToBytes_take_length P.format _

section Frames
variable [LT Q] [DecidableLT Q] [One Q] [Mul Q] [Zero Q]

theorem onBeacon_eq (limit now : ℕ) (payload : Bytes) (n : RadioNode σ κ Q) :
    n.onBeacon limit now payload =
      (n.listener.hear limit
        ⟨decodeU32 payload, decodeU32 (payload.drop 4), payload.getD 8 0, now⟩).map
        fun l => ({ n with discovery := l.discovery, router := l.router }, .ok ()) := by
  unfold onBeacon Listener.hear listener
  simp only
  by_cases hnew : (n.discovery.processBeacon
      ⟨decodeU32 payload, decodeU32 (payload.drop 4), payload.getD 8 0, now⟩).2 = true
  · simp only [hnew, if_true]
    cases n.router.updateNeighbor limit (decodeU32 payload) 1 <;> rfl
  · simp only [hnew, Bool.false_eq_true, if_false]
    rfl

variable {limit now : ℕ} {n : RadioNode σ κ Q}

theorem onDiscoveryMessage_fed {hdr : MessageHeader} {payload : Bytes}
    {r : RadioNode σ κ Q × Throws Unit} (h : n.listener.Fed)
    (hvisit : onDiscoveryMessage P limit now hdr payload n = some r) : r.1.listener.Fed := by
  by_cases hbeacon : (hdr.msgType == kMsgTypeBeacon && decide (9 ≤ hdr.payloadLen)) = true
  · rw [onDiscoveryMessage, if_pos hbeacon, onBeacon_eq] at hvisit
    obtain ⟨l, hhear, rfl⟩ := Option.map_eq_some_iff.mp hvisit
    exact h.hear _ hhear
  · rw [onDiscoveryMessage_of_not_beacon payload n hbeacon] at hvisit
    cases hvisit
    rwa [onHopMessage_listener]

theorem parseMessages_fed {onMessage : OnMessage (RadioNode σ κ Q)}
    (hvisit : ∀ hdr payload n r, n.listener.Fed → onMessage hdr payload n = some r →
      r.1.listener.Fed) {rxData : Bytes} (hsize : rxData.length + 13 + 2 ^ 32 ≤ 2 ^ 64)
    {r : RadioNode σ κ Q × Throws Unit} (h : n.listener.Fed)
    (hparse : parseMessages 64 limit onMessage rxData n = some r) : r.1.listener.Fed := by
  obtain ⟨n', result⟩ := r
  have hfed := parseMessages_induction hsize (fun _ n => n.listener.Fed) (fun n => n.listener.Fed)
    (fun m _ n₁ n₂ h₁ h₂ => hvisit m.1 m.2 n₁ _ h₁ h₂)
    (fun m _ n₁ n₂ e h₁ h₂ => hvisit m.1 m.2 n₁ _ h₁ h₂) h hparse
  cases result <;> exact hfed

theorem finishTick_fed {c : SimChannel S} {r : RadioNode σ κ Q × SimChannel S × Throws Unit}
    (h : n.listener.Fed) (hfinish : n.finishTick P limit c = some r) : r.1.listener.Fed := by
  unfold finishTick at hfinish
  split at hfinish
  · cases hfinish
    exact h
  · split at hfinish
    · cases hfinish
      exact h
    · next freq _ =>
      obtain ⟨⟨n', result⟩, hparse, hrest⟩ := Option.bind_eq_some_iff.mp hfinish
      have hfed : n'.listener.Fed := by
        refine parseMessages_fed ?_ ?_ ?_ hparse
        · intro hdr payload n₁ r₁ h₁ hvisit
          cases hvisit
          rwa [onHopMessage_listener]
        · exact receiveFromChannel_length P n c freq
        · exact h
      cases result <;> cases hrest <;> exact hfed

theorem tick_fed {c : SimChannel S} {r : RadioNode σ κ Q × SimChannel S × Throws Unit}
    (h : n.listener.Fed) (htick : n.tick P limit now c = some r) : r.1.listener.Fed := by
  unfold tick at htick
  split at htick
  · cases htick
    exact h
  · obtain ⟨⟨n', result⟩, hparse, hrest⟩ := Option.bind_eq_some_iff.mp htick
    have hfed : n'.listener.Fed := by
      refine parseMessages_fed ?_ ?_ ?_ hparse
      · exact fun hdr payload n₁ r₁ => onDiscoveryMessage_fed
      · exact receiveFromChannel_length P _ _ kDiscoveryFreq
      · exact h
    cases result with
    | error e =>
      cases hrest
      exact hfed
    | ok u => exact finishTick_fed hfed hrest

theorem Reachable.fed (h : Reachable P n) : n.listener.Fed := by
  induction h with
  | new id hsm c => exact .new id 0
  | provisionKeys tek fhek _ ih => exact ih
  | start _ ih => rwa [start_listener]
  | tick _ hreturns ih =>
    obtain ⟨limit, hlimit⟩ := hreturns
    exact tick_fed ih (hlimit limit (Nat.le_refl limit))
  | sendData dest payload c _ ih => rwa [sendData_listener]
  | voiceTx dest audio c _ ih => rwa [voiceTx_listener]
  | receiveData _ ih => exact ih
  | voiceRx _ ih => exact ih
  | keys keyMgr _ ih => exact ih

end Frames

end RadioNode
end Cirradio.Node
