import Cirradio.OrderedMaps
import Mathlib.Data.Nat.Notation

/-!
# Peer discovery

A node beacons its id and the number of nodes it knows. The first beacon of another node
adds it to the nodes discovered, later ones update its time.
-/

namespace Cirradio.Network
open OrderedMaps

structure DiscoveryBeacon where
  nodeId : UInt32
  netId : UInt32
  numNodes : UInt8
  timestamp : ℕ
  deriving DecidableEq, Repr

structure PeerDiscovery where
  nodeId : UInt32
  netId : UInt32
  discovered : Std.ExtTreeMap UInt32 ℕ

namespace PeerDiscovery

def new (nodeId : UInt32) (netId : UInt32 := 0) : PeerDiscovery := ⟨nodeId, netId, ∅⟩

def generateBeacon (d : PeerDiscovery) (now : ℕ) (currentNodeCount : UInt8) :
    DiscoveryBeacon := ⟨d.nodeId, d.netId, currentNodeCount, now⟩

/-- Whether the beacon is of a new node. -/
def processBeacon (d : PeerDiscovery) (beacon : DiscoveryBeacon) : PeerDiscovery × Bool :=
  if beacon.nodeId = d.nodeId then (d, false)
  else
    ({ d with discovered := d.discovered.insert beacon.nodeId beacon.timestamp },
      !d.discovered.contains beacon.nodeId)

def discoveredNodes (d : PeerDiscovery) : List UInt32 := d.discovered.keys

variable (d : PeerDiscovery) (beacon : DiscoveryBeacon)

@[simp] theorem processBeacon_nodeId : (d.processBeacon beacon).1.nodeId = d.nodeId := by
  unfold processBeacon
  split <;> rfl

@[simp] theorem processBeacon_netId : (d.processBeacon beacon).1.netId = d.netId := by
  unfold processBeacon
  split <;> rfl

theorem mem_processBeacon (id : UInt32) :
    id ∈ (d.processBeacon beacon).1.discovered ↔
      id ∈ d.discovered ∨ beacon.nodeId ≠ d.nodeId ∧ id = beacon.nodeId := by
  unfold processBeacon
  split
  · next hself => simp [hself]
  · next hother =>
    rw [mem_insert_iff]
    constructor
    · rintro (heq | hmem)
      · exact .inr ⟨hother, heq⟩
      · exact .inl hmem
    · rintro (hmem | ⟨-, heq⟩)
      · exact .inr hmem
      · exact .inl heq

theorem processBeacon_isNew : (d.processBeacon beacon).2 = true ↔
    beacon.nodeId ≠ d.nodeId ∧ beacon.nodeId ∉ d.discovered := by
  unfold processBeacon
  split
  · next hself => simp [hself]
  · next hother => simp [hother, ← Std.ExtTreeMap.contains_iff_mem]

end PeerDiscovery
end Cirradio.Network
