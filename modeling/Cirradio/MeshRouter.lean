import Cirradio.RouteSearch

/-!
# The mesh router

Links measured here and links that other nodes advertise go into one route table. An
advertisement carries the sequence number of its node; one that is not above the last
number seen from that node is stale.
-/

namespace Cirradio.Network
open WhileLoops

structure LinkInfo (Q : Type) where
  neighborId : UInt32
  quality : Q
  deriving DecidableEq, Repr

structure LinkStateAdvertisement (Q : Type) where
  nodeId : UInt32
  neighbors : List (LinkInfo Q)
  sequence : UInt32
  timestamp : ℕ
  deriving DecidableEq, Repr

structure MeshRouter (Q : Type) where
  localId : UInt32
  sequence : UInt32
  table : RouteTable Q
  directNeighbors : Std.ExtTreeMap UInt32 Q
  lastSequence : Std.ExtTreeMap UInt32 UInt32

namespace MeshRouter
variable {Q : Type}

def new (localId : UInt32) : MeshRouter Q := ⟨localId, 0, .new localId, ∅, ∅⟩

def generateAdvertisement (now : ℕ) (r : MeshRouter Q) : LinkStateAdvertisement Q where
  nodeId := r.localId
  neighbors := r.directNeighbors.toList.map fun p => ⟨p.1, p.2⟩
  sequence := r.sequence
  timestamp := now

/-- From ourselves, or stale. -/
def rejects (r : MeshRouter Q) (lsa : LinkStateAdvertisement Q) : Bool :=
  lsa.nodeId == r.localId ||
    match r.lastSequence[lsa.nodeId]? with
    | none => false
    | some last => decide (lsa.sequence ≤ last)

/-- The advertised links go into the table. -/
def addLinks (t : RouteTable Q) (lsa : LinkStateAdvertisement Q) : RouteTable Q :=
  lsa.neighbors.foldl (fun t link => t.updateLink lsa.nodeId link.neighborId link.quality) t

def routeTo (r : MeshRouter Q) (destination : UInt32) : Option (RouteEntry Q) :=
  r.table.nextHop destination

def neighbors (r : MeshRouter Q) : List UInt32 := r.directNeighbors.keys

variable [LT Q] [DecidableLT Q] [One Q] [Mul Q] [Zero Q]

def processAdvertisement (limit : ℕ) (r : MeshRouter Q) (lsa : LinkStateAdvertisement Q) :
    Option (MeshRouter Q × Bool) :=
  if r.rejects lsa then some (r, false)
  else do
    let table ← (addLinks r.table lsa).recompute limit
    some ({ r with table, lastSequence := r.lastSequence.insert lsa.nodeId lsa.sequence }, true)

def updateNeighbor (limit : ℕ) (r : MeshRouter Q) (neighborId : UInt32) (quality : Q) :
    Option (MeshRouter Q) := do
  let table ← (r.table.updateLink r.localId neighborId quality).recompute limit
  some { r with table, directNeighbors := r.directNeighbors.insert neighborId quality }

def removeNeighbor (limit : ℕ) (r : MeshRouter Q) (neighborId : UInt32) :
    Option (MeshRouter Q) := do
  let table ← (r.table.removeNode neighborId).recompute limit
  some { r with table, directNeighbors := r.directNeighbors.erase neighborId }

end MeshRouter
end Cirradio.Network
