import Cirradio.OrderedMaps
import Cirradio.WhileLoops
import Mathlib.Algebra.Group.Defs

/-!
# The route table

Links with a quality between nodes, and the best route from the local node to each other
node. The quality of a path is the product of its links; the search and the trace back
along predecessors are loops of the source, so what they give depends on a turn limit.
-/

namespace Cirradio.Network
open WhileLoops

structure RouteEntry (Q : Type) where
  destination : UInt32
  nextHop : UInt32
  hopCount : UInt32
  pathQuality : Q
  deriving DecidableEq, Repr

structure RouteTable (Q : Type) where
  localId : UInt32
  adjacency : Std.ExtTreeMap UInt32 (List (UInt32 × Q))
  routes : Std.ExtTreeMap UInt32 (RouteEntry Q)

/-- The maps and the queue of `recompute`. -/
structure Search (Q : Type) where
  quality : Std.ExtTreeMap UInt32 Q
  predecessor : Std.ExtTreeMap UInt32 UInt32
  pq : List (Q × UInt32)

namespace RouteTable
variable {Q : Type}

def new (localId : UInt32) : RouteTable Q := ⟨localId, ∅, ∅⟩

/-- The first pair with the id gets the quality, or a new pair is added. -/
def setNeighbor (id : UInt32) (q : Q) : List (UInt32 × Q) → List (UInt32 × Q)
  | [] => [(id, q)]
  | p :: neighbors =>
    if p.1 = id then (p.1, q) :: neighbors else p :: setNeighbor id q neighbors

def updateAdj (t : RouteTable Q) (a b : UInt32) (q : Q) : RouteTable Q :=
  { t with adjacency := t.adjacency.insert a (setNeighbor b q (t.adjacency.getD a [])) }

def updateLink (t : RouteTable Q) (source target : UInt32) (quality : Q) : RouteTable Q :=
  (t.updateAdj source target quality).updateAdj target source quality

def removeNode (t : RouteTable Q) (nodeId : UInt32) : RouteTable Q :=
  { t with
    adjacency := (t.adjacency.erase nodeId).map fun _ neighbors =>
      neighbors.filter fun p => p.1 != nodeId }

section Recompute
variable [LT Q] [DecidableLT Q]

/-- The order of pairs in the queue. -/
def entryLt (a b : Q × UInt32) : Bool :=
  decide (a.1 < b.1) || (!decide (b.1 < a.1) && decide (a.2 < b.2))

/-- The greatest of the entries, and the others. -/
def takeTop (e : Q × UInt32) : List (Q × UInt32) → (Q × UInt32) × List (Q × UInt32)
  | [] => (e, [])
  | e' :: es =>
    let (top, rest) := takeTop e' es
    if entryLt e top then (top, e :: rest) else (e, top :: rest)

variable [One Q] [Mul Q] [Zero Q]

/-- `quality[u]`, which adds a zero when there is none. -/
def qualityAt (quality : Std.ExtTreeMap UInt32 Q) (u : UInt32) : Q × Std.ExtTreeMap UInt32 Q :=
  match quality[u]? with
  | some q => (q, quality)
  | none => (0, quality.insert u 0)

/-- A link from `u`, which is reached with quality `q`. -/
def relaxLink (q : Q) (u : UInt32) (s : Search Q) (link : UInt32 × Q) : Search Q :=
  let newQuality := q * link.2
  let better :=
    match s.quality[link.1]? with
    | none => true
    | some old => decide (old < newQuality)
  if better then
    { quality := s.quality.insert link.1 newQuality
      predecessor := s.predecessor.insert link.1 u
      pq := (newQuality, link.1) :: s.pq }
  else s

/-- A turn of the search: the best entry is taken from the queue. -/
def relaxTurn (t : RouteTable Q) (s : Search Q) : Search Q ⊕ Search Q :=
  match s.pq with
  | [] => .inr s
  | e :: es =>
    let ((q, u), rest) := takeTop e es
    let (best, quality) := qualityAt s.quality u
    let s := { s with quality, pq := rest }
    if q < best then .inl s
    else
      match t.adjacency[u]? with
      | none => .inl s
      | some neighbors => .inl (neighbors.foldl (relaxLink q u) s)

def startSearch (t : RouteTable Q) : Search Q where
  quality := (∅ : Std.ExtTreeMap UInt32 Q).insert t.localId 1
  predecessor := ∅
  pq := [(1, t.localId)]

/-- A turn of the trace back to the first hop. -/
def traceTurn (t : RouteTable Q) (predecessor : Std.ExtTreeMap UInt32 UInt32)
    (s : UInt32 × UInt32) : (UInt32 × UInt32) ⊕ (UInt32 × UInt32) :=
  match predecessor[s.1]? with
  | none => .inr s
  | some p => if p = t.localId then .inr s else .inl (p, s.2 + 1)

/-- The entry of a destination is added to the routes. -/
def addRoute (t : RouteTable Q) (predecessor : Std.ExtTreeMap UInt32 UInt32) (limit : ℕ)
    (routes : Std.ExtTreeMap UInt32 (RouteEntry Q)) (reached : UInt32 × Q) :
    Option (Std.ExtTreeMap UInt32 (RouteEntry Q)) :=
  if reached.1 = t.localId then some routes
  else do
    let (current, hops) ← loop (fun s => some (t.traceTurn predecessor s)) limit (reached.1, 0)
    some (routes.insert reached.1 ⟨reached.1, current, hops + 1, reached.2⟩)

/-- `none` when a loop does not end within the limit. -/
def recompute (limit : ℕ) (t : RouteTable Q) : Option (RouteTable Q) := do
  let s ← loop (fun s => some (t.relaxTurn s)) limit t.startSearch
  let routes ← s.quality.toList.foldlM (t.addRoute s.predecessor limit) ∅
  some { t with routes }

end Recompute

def nextHop (t : RouteTable Q) (destination : UInt32) : Option (RouteEntry Q) :=
  t.routes[destination]?

/-- The neighbours of a node. -/
def linksOf (t : RouteTable Q) (u : UInt32) : List (UInt32 × Q) := t.adjacency.getD u []

/-- The quality recorded for a link. -/
def link (t : RouteTable Q) (a b : UInt32) : Option Q := (t.linksOf a).lookup b

end RouteTable
end Cirradio.Network
