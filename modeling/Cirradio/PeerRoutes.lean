import Cirradio.LinkSymmetry
import Cirradio.NetIsolation
import Cirradio.NodeCalls
import Mathlib.Data.FinEnum

/-!
# Peers are neighbours

A node keeps the nodes that it has heard twice: as peers, and as neighbours of its router. What
both stand for is one set of nodes around it, and the links are a star with the node in the
middle. Over a star a finished search has exactly one route for each neighbour, the link itself.
-/

namespace Cirradio.Network
open BestWalks OrderedMaps

namespace PairLinks
variable {Q : Type} [One Q]

open Classical in
/-- Links of quality one between a node and each of its neighbours. -/
noncomputable def star (centre : UInt32) (peers : Set UInt32) : PairLinks Q :=
  fun pair => if ∃ p ∈ peers, pair = s(centre, p) then some 1 else none

theorem star_eq_some_iff {centre : UInt32} {peers : Set UInt32} {u v : UInt32} {w : Q} :
    star centre peers s(u, v) = some w ↔
      w = 1 ∧ ((u = centre ∧ v ∈ peers) ∨ (v = centre ∧ u ∈ peers)) := by
  unfold star
  rw [Option.ite_none_right_eq_some, and_comm, Option.some.injEq, eq_comm]
  apply and_congr_right
  intro _
  constructor
  · rintro ⟨p, hp, hpair⟩
    rcases Sym2.eq_iff.mp hpair with ⟨rfl, rfl⟩ | ⟨rfl, rfl⟩
    · exact .inl ⟨rfl, hp⟩
    · exact .inr ⟨rfl, hp⟩
  · rintro (⟨rfl, hv⟩ | ⟨rfl, hu⟩)
    · exact ⟨v, hv, rfl⟩
    · exact ⟨u, hu, Sym2.eq_swap⟩

theorem star_empty (centre : UInt32) : (star centre ∅ : PairLinks Q) = fun _ => none := by
  funext pair
  unfold star
  simp

theorem star_insert (centre p : UInt32) (peers : Set UInt32) :
    (star centre peers : PairLinks Q).edit (.updateLink centre p 1) =
      star centre (insert p peers) := by
  funext pair
  have hinsert : (∃ p' ∈ insert p peers, pair = s(centre, p')) ↔
      pair = s(centre, p) ∨ ∃ p' ∈ peers, pair = s(centre, p') := by
    simp only [Set.mem_insert_iff, exists_eq_or_imp]
  simp only [edit, star, Function.update_apply]
  by_cases hpair : pair = s(centre, p)
  · rw [if_pos hpair, if_pos (hinsert.mpr (.inl hpair))]
  · rw [if_neg hpair]
    by_cases hpeers : ∃ p' ∈ peers, pair = s(centre, p')
    · rw [if_pos hpeers, if_pos (hinsert.mpr (.inr hpeers))]
    · rw [if_neg hpeers, if_neg fun h => (hinsert.mp h).elim hpair hpeers]

end PairLinks

namespace RouteTable
variable {Q : Type} [One Q] {t : RouteTable Q} {peers : Set UInt32}

/-- The links are a star around the local node, which is not a neighbour of its own. -/
structure Hub (t : RouteTable Q) (peers : Set UInt32) : Prop where
  abstracts : t.Abstracts (.star t.localId peers)
  not_mem : t.localId ∉ peers

theorem Hub.link_iff (h : t.Hub peers) {u v : UInt32} {w : Q} : t.Link u v w ↔
    w = 1 ∧ ((u = t.localId ∧ v ∈ peers) ∨ (v = t.localId ∧ u ∈ peers)) :=
  (h.abstracts.mem_iff u v w).trans PairLinks.star_eq_some_iff

theorem hub_new (localId : UInt32) : (new localId : RouteTable Q).Hub ∅ where
  abstracts := by
    rw [PairLinks.star_empty]
    exact abstracts_new localId
  not_mem := Set.notMem_empty localId

theorem Hub.congr (h : t.Hub peers) {t' : RouteTable Q} (hlocal : t'.localId = t.localId)
    (hadj : t'.adjacency = t.adjacency) : t'.Hub peers := by
  obtain ⟨localId, adjacency, routes⟩ := t
  obtain ⟨localId', adjacency', routes'⟩ := t'
  cases hlocal
  cases hadj
  exact ⟨⟨h.abstracts.nodup, h.abstracts.link_eq⟩, h.not_mem⟩

theorem Hub.updateLink (h : t.Hub peers) {p : UInt32} (hp : p ≠ t.localId) :
    (t.updateLink t.localId p 1).Hub (insert p peers) where
  abstracts := by
    have hlinks := h.abstracts.updateLink t.localId p 1
    rwa [PairLinks.star_insert] at hlinks
  not_mem := by
    rintro (heq | hmem)
    · exact hp heq.symm
    · exact h.not_mem hmem

end RouteTable

namespace RouteTable
variable {Q : Type} [MulOneClass Q] {t : RouteTable Q} {peers : Set UInt32}

theorem Hub.quality_eq_one (h : t.Hub peers) {v : UInt32} {q : Q}
    (hq : q ∈ qualities t.Link t.localId v) : q = 1 := by
  obtain ⟨steps, hwalk, rfl⟩ := hq
  induction hwalk with
  | nil => rfl
  | concat _ hlink ih =>
    rw [quality_concat, ih, (h.link_iff.mp hlink).1, mul_one]

variable [Preorder Q]

/-- A route leads to a neighbour, over the link to it. -/
theorem Hub.entry_eq (h : t.Hub peers) {quality : Std.ExtTreeMap UInt32 Q}
    {predecessor : Std.ExtTreeMap UInt32 UInt32} (hexplores : t.Explores quality predecessor [])
    {d : UInt32} {e : RouteEntry Q} (he : Describes t.localId quality predecessor d e) :
    d ∈ peers ∧ e = ⟨d, d, 1, 1⟩ := by
  -- the node before the destination is the local one, as no other link leads there
  obtain ⟨u, hu⟩ := hexplores.preceded d e.pathQuality he.pathQuality he.ne_local
  obtain ⟨w, hlink, -⟩ := hexplores.linked d u hu
  obtain ⟨rfl, hd⟩ := (h.link_iff.mp hlink).2.resolve_right fun hend => he.ne_local hend.1
  obtain ⟨n, htrace, hhops⟩ := he.trace
  obtain ⟨hnext, rfl⟩ := htrace.unique (.last hu)
  have hquality : e.pathQuality = 1 :=
    h.quality_eq_one (hexplores.attained d e.pathQuality he.pathQuality)
  refine ⟨hd, ?_⟩
  calc e = ⟨e.destination, e.nextHop, e.hopCount, e.pathQuality⟩ := rfl
    _ = ⟨d, d, 1, 1⟩ := by
      rw [he.destination, hnext, hhops, hquality]
      rfl

/-- The routes over a star are its links. -/
theorem Routed.nextHop_iff (hrouted : t.Routed) (h : t.Hub peers) (d : UInt32)
    (e : RouteEntry Q) : t.nextHop d = some e ↔ d ∈ peers ∧ e = ⟨d, d, 1, 1⟩ := by
  obtain ⟨quality, predecessor, hexplores, hroutes⟩ := hrouted
  constructor
  · intro he
    exact h.entry_eq hexplores (hroutes.entry d e he)
  · rintro ⟨hd, rfl⟩
    -- the link to the neighbour has been taken, so there is a route
    have hlink : t.Link t.localId d 1 := h.link_iff.mpr ⟨rfl, .inl ⟨rfl, hd⟩⟩
    obtain ⟨q, hq, -⟩ := hexplores.start
    have hrelaxed := (hexplores.relaxed t.localId q hq).resolve_left List.not_mem_nil
    obtain ⟨q', hq', -⟩ := hrelaxed d 1 hlink
    have hlocal : d ≠ t.localId := fun heq => h.not_mem (heq ▸ hd)
    obtain ⟨e, he⟩ := hroutes.found d q' hq' hlocal
    have hentry := (h.entry_eq hexplores (hroutes.entry d e he)).2
    rw [hentry] at he
    exact he

end RouteTable

namespace Listener
variable {Q : Type} {l l' : Listener Q} {limit : ℕ} {beacon : DiscoveryBeacon}
  {peers : Set UInt32}

/-- The set that a beacon leaves. -/
def heard (l : Listener Q) (beacon : DiscoveryBeacon) (peers : Set UInt32) : Set UInt32 :=
  {id | id ∈ peers ∨ beacon.nodeId ≠ l.discovery.nodeId ∧ id = beacon.nodeId}

theorem heard_of_ne (hother : beacon.nodeId ≠ l.discovery.nodeId) (peers : Set UInt32) :
    l.heard beacon peers = insert beacon.nodeId peers := by
  ext id
  simp [heard, hother, or_comm]

section Agrees
variable [Preorder Q] [MulOneClass Q]

/-- The nodes that are known are those of both parts, and the links of the router are a star
around its node. -/
structure Agrees (l : Listener Q) (peers : Set UInt32) : Prop where
  nodeId : l.discovery.nodeId = l.router.localId
  mem_discovered : ∀ id, id ∈ l.discovery.discovered ↔ id ∈ peers
  mem_neighbors : ∀ id, id ∈ l.router.directNeighbors ↔ id ∈ peers
  current : l.router.Current
  hub : l.router.table.Hub peers

theorem agrees_new (nodeId netId : UInt32) : (new nodeId netId : Listener Q).Agrees ∅ where
  nodeId := rfl
  mem_discovered id := by simp [new, PeerDiscovery.new]
  mem_neighbors id := by simp [new, MeshRouter.new]
  current := MeshRouter.current_new nodeId
  hub := RouteTable.hub_new nodeId

theorem Agrees.heard_of_knows (h : l.Agrees peers)
    (hknows : l.Knows beacon.nodeId) : l.heard beacon peers = peers := by
  ext id
  refine ⟨?_, .inl⟩
  rintro (hid | ⟨hother, rfl⟩)
  · exact hid
  · exact (h.mem_discovered _).mp (hknows.resolve_left hother)

theorem Agrees.discoveredNodes_eq (h : l.Agrees peers) :
    l.discovery.discoveredNodes = l.router.neighbors :=
  keys_eq_of_mem_iff fun id => (h.mem_discovered id).trans (h.mem_neighbors id).symm

theorem Agrees.routeTo_iff (h : l.Agrees peers) (d : UInt32) (e : RouteEntry Q) :
    l.router.routeTo d = some e ↔ d ∈ l.discovery.discovered ∧ e = ⟨d, d, 1, 1⟩ := by
  rw [h.mem_discovered]
  exact h.current.routed.nextHop_iff h.hub d e

theorem Agrees.not_mem (h : l.Agrees peers) : l.discovery.nodeId ∉ l.discovery.discovered := by
  rw [h.mem_discovered, h.nodeId, ← h.current.localId]
  exact h.hub.not_mem

variable [DecidableLT Q] [Zero Q]

theorem updateNeighbor_spec {r r' : MeshRouter Q} {id : UInt32} {q : Q}
    (h : r.updateNeighbor limit id q = some r') :
    r'.localId = r.localId ∧ r'.directNeighbors = r.directNeighbors.insert id q ∧
      r'.table.localId = r.table.localId ∧
      r'.table.adjacency = (r.table.updateLink r.localId id q).adjacency := by
  obtain ⟨table, htable, heq⟩ := Option.bind_eq_some_iff.mp h
  cases heq
  obtain ⟨hlocal, hadj, -⟩ := RouteTable.routed_of_recompute htable
  exact ⟨rfl, rfl, hlocal, hadj⟩

theorem Agrees.hear (h : l.Agrees peers)
    (hhear : l.hear limit beacon = some l') : l'.Agrees (l.heard beacon peers) := by
  have hdiscovered : ∀ id, id ∈ (l.discovery.processBeacon beacon).1.discovered ↔
      id ∈ l.heard beacon peers := by
    intro id
    rw [PeerDiscovery.mem_processBeacon, h.mem_discovered]
    rfl
  have hnode : (l.discovery.processBeacon beacon).1.nodeId = l.router.localId := by
    rw [PeerDiscovery.processBeacon_nodeId, h.nodeId]
  by_cases hknows : l.Knows beacon.nodeId
  · rw [hear_of_knows hknows] at hhear
    cases hhear
    rw [h.heard_of_knows hknows] at hdiscovered ⊢
    exact ⟨hnode, hdiscovered, h.mem_neighbors, h.current, h.hub⟩
  · rw [hear_of_not_knows hknows] at hhear
    obtain ⟨router, hrouter, heq⟩ := Option.bind_eq_some_iff.mp hhear
    cases heq
    obtain ⟨hlocal, hneighbors, htable, hadj⟩ := updateNeighbor_spec hrouter
    have hother : beacon.nodeId ≠ l.discovery.nodeId := fun heq => hknows (.inl heq)
    rw [heard_of_ne hother] at hdiscovered ⊢
    refine ⟨hnode.trans hlocal.symm, hdiscovered, fun id => ?_, ?_, ?_⟩
    · change id ∈ router.directNeighbors ↔ _
      rw [hneighbors, mem_insert_iff, h.mem_neighbors]
      rfl
    · exact h.current.call (c := .updateNeighbor beacon.nodeId 1) hrouter
    · rw [← h.current.localId] at hadj
      refine (h.hub.updateLink ?_).congr htable hadj
      rwa [h.current.localId, ← h.nodeId]

theorem Fed.exists_agrees (h : Fed l) : ∃ peers, l.Agrees peers := by
  induction h with
  | new nodeId netId => exact ⟨∅, agrees_new nodeId netId⟩
  | hear beacon _ hhear ih =>
    obtain ⟨peers, hpeers⟩ := ih
    exact ⟨_, hpeers.hear hhear⟩

end Agrees

end Listener
end Cirradio.Network

namespace Cirradio.Node
open Security Hal Network Fhss WhileLoops Relation

namespace RadioNode
variable {S σ κ Q : Type} {P : Platform S σ κ} [LT Q] [DecidableLT Q] [One Q] [Mul Q] [Zero Q]
  {limit now : ℕ} {n n' : RadioNode σ κ Q}

theorem FrameStep.nodeId {read : List (MessageHeader × Bytes)}
    (h : FrameStep P limit now read n n') : n'.discovery.nodeId = n.discovery.nodeId := by
  cases h with
  | tune freq => rfl
  | @data hdr payload _ _ _ =>
    obtain ⟨keyMgr, dataInbox, hnode, -⟩ := openData_node (P := P) hdr payload n
    rw [hnode]
  | @voice hdr payload _ _ _ =>
    obtain ⟨keyMgr, voiceCodec, voiceInbox, hnode, -⟩ := openVoice_node (P := P) hdr payload n
    rw [hnode]
  | beacon _ _ hbeacon =>
    rw [onBeacon_eq] at hbeacon
    obtain ⟨l, hhear, heq⟩ := Option.map_eq_some_iff.mp hbeacon
    cases heq
    change l.discovery.nodeId = _
    rw [Listener.hear_discovery hhear, PeerDiscovery.processBeacon_nodeId]
    rfl

theorem nodeId_of_steps {read : List (MessageHeader × Bytes)}
    (h : ReflTransGen (FrameStep P limit now read) n n') :
    n'.discovery.nodeId = n.discovery.nodeId := by
  induction h with
  | refl => rfl
  | tail _ hstep ih => exact hstep.nodeId.trans ih

/-- The discovery of a node has the node's id. -/
theorem Reachable.nodeId (h : Reachable P n) : n.discovery.nodeId = n.id := by
  induction h with
  | new id hsm c => rfl
  | provisionKeys tek fhek _ ih => exact ih
  | @start n _ ih =>
    obtain ⟨keyMgr, hopSeq, radio, scheduler, state, hnode, -⟩ := start_node (P := P) n
    rw [hnode]
    exact ih
  | @tick n n' now c c' result _ hreturns ih =>
    obtain ⟨limit, hlimit⟩ := hreturns
    have htick : n.tick P limit now c = some (n', c', result) := hlimit limit (Nat.le_refl limit)
    by_cases hidle : n.state = .idle
    · rw [tick_of_idle hidle] at htick
      cases htick
      exact ih
    · obtain ⟨⟨n₁, hsteps, hn'⟩, -⟩ := tick_steps hidle htick
      have hkept : n₁.discovery.nodeId = n₁.id := by
        rw [nodeId_of_steps hsteps, (stays_of_steps hsteps).id, ih]
      rcases hn' with rfl | rfl
      · exact hkept
      · exact hkept
  | @sendData n dest payload c _ ih =>
    obtain ⟨keyMgr, radio, hnode, -⟩ := sendData_node (P := P) dest payload n c
    rw [hnode]
    exact ih
  | @voiceTx n dest audio c _ ih =>
    obtain ⟨voiceCodec, keyMgr, radio, hnode, -⟩ := voiceTx_node (P := P) dest audio n c
    rw [hnode]
    exact ih
  | receiveData _ ih => exact ih
  | voiceRx _ ih => exact ih
  | keys keyMgr _ ih => exact ih

end RadioNode

namespace RadioNode
variable {S σ κ Q : Type} {P : Platform S σ κ} [Preorder Q] [DecidableLT Q] [MulOneClass Q]
  [Zero Q] {n : RadioNode σ κ Q}

/-- In every state that a node reaches, its peers are the neighbours of its router, without the
node itself, and the route to each is the link to it. -/
theorem peers_agree (h : Reachable P n) :
    n.peers = n.router.neighbors ∧ n.id ∉ n.peers ∧
      ∀ p ∈ n.peers, n.router.routeTo p = some ⟨p, p, 1, 1⟩ := by
  obtain ⟨peers, hagrees⟩ := h.fed.exists_agrees
  refine ⟨hagrees.discoveredNodes_eq, ?_, fun p hp => ?_⟩
  · rw [← h.nodeId]
    exact fun hmem => hagrees.not_mem (Std.ExtTreeMap.mem_keys.mp hmem)
  · exact (hagrees.routeTo_iff p _).mpr ⟨Std.ExtTreeMap.mem_keys.mp hp, rfl⟩

instance : MulOneClass MeshRouter.Percent where
  one_mul q := by
    change Fin.ofNat 101 (100 * Fin.val q / 100) = q
    rw [Nat.mul_div_cancel_left _ (by decide)]
    exact Fin.ofNat_val_eq_self q
  mul_one q := by
    change Fin.ofNat 101 (Fin.val q * 100 / 100) = q
    rw [Nat.mul_div_cancel _ (by decide)]
    exact Fin.ofNat_val_eq_self q

/-- Node 1's channel, with a beacon of node 2. -/
def helloChannel : SimChannel UInt8 :=
  (SimChannel.new.registerRadio.1.registerRadio.1).transmit 2 kDiscoveryFreq
    (serializeHeader ⟨kMsgTypeBeacon, 2, 0, 9⟩ ++ (encodeU32 2 ++ encodeU32 0 ++ [1]))

theorem peers_helloChannel (limit : ℕ) :
    ((sampleNode 1).tick samplePlatform (limit + 8) 0 helloChannel).map (fun r => r.1.peers) =
      some [2] := rfl

theorem peers_agree_hello : ∃ n : SampleNode, n.peers = [2] ∧
    n.peers = n.router.neighbors ∧ n.id ∉ n.peers ∧ n.router.routeTo 2 = some ⟨2, 2, 1, 1⟩ := by
  obtain ⟨n, c, result, ⟨limit, hlimit⟩, -⟩ := tick_spec samplePlatform_decrypts
    samplePlatform_aes ((sampleNode_reachable 1).sound samplePlatform_decrypts samplePlatform_aes)
    (by decide) 0 helloChannel
  have htick : (sampleNode 1).tick samplePlatform (limit + 8) 0 helloChannel =
      some (n, c, result) := hlimit (limit + 8) (Nat.le_add_right limit 8)
  have hpeers : n.peers = [2] := by
    have hheard := peers_helloChannel limit
    rw [htick] at hheard
    exact Option.some.inj hheard
  obtain ⟨hneighbors, hself, hroutes⟩ :=
    peers_agree ((sampleNode_reachable 1).tick ⟨limit, hlimit⟩)
  exact ⟨n, hpeers, hneighbors, hself, hroutes 2 (by simp [hpeers])⟩

end RadioNode
end Cirradio.Node
