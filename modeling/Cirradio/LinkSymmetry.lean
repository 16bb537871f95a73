import Cirradio.CallRuns
import Cirradio.LinkHistory
import Mathlib.Data.Sym.Sym2

/-!
# The two halves of a link

A link stands in the neighbour lists of both its ends, and an update writes one after the other.
What the table is for is one quality for each unordered pair of nodes, so the lists are compared
with a partial function on pairs: an update writes the value at one pair, a removal clears the
pairs of one node.
-/

namespace Cirradio.Network
open CallRuns OrderedMaps

/-- A change of the links. -/
inductive LinkEdit (Q : Type)
  | updateLink (source target : UInt32) (quality : Q)
  | removeNode (nodeId : UInt32)

/-- One quality, if any, for each unordered pair of nodes. -/
abbrev PairLinks (Q : Type) := Sym2 UInt32 → Option Q

namespace PairLinks
variable {Q : Type}

def edit (m : PairLinks Q) : LinkEdit Q → PairLinks Q
  | .updateLink a b q => Function.update m s(a, b) (some q)
  | .removeNode n => fun pair => if n ∈ pair then none else m pair

end PairLinks

namespace RouteTable
variable {Q : Type}

def editLinks (t : RouteTable Q) : LinkEdit Q → RouteTable Q × Unit
  | .updateLink a b q => (t.updateLink a b q, ())
  | .removeNode n => (t.removeNode n, ())

/-- The ids of a neighbour list. -/
def ids (neighbors : List (UInt32 × Q)) : List UInt32 := neighbors.map Prod.fst

theorem ids_setNeighbor (b : UInt32) (q : Q) (neighbors : List (UInt32 × Q)) :
    ids (setNeighbor b q neighbors) =
      if b ∈ ids neighbors then ids neighbors else ids neighbors ++ [b] := by
  unfold ids
  induction neighbors with
  | nil => rfl
  | cons p neighbors ih =>
    unfold setNeighbor
    by_cases hpb : p.1 = b
    · simp [hpb]
    · have hbp : b ≠ p.1 := fun h => hpb h.symm
      rw [if_neg hpb, List.map_cons, ih]
      simp only [List.map_cons, List.mem_cons, hbp, false_or]
      split <;> rfl

theorem nodup_setNeighbor {neighbors : List (UInt32 × Q)} (h : (ids neighbors).Nodup)
    (b : UInt32) (q : Q) : (ids (setNeighbor b q neighbors)).Nodup := by
  rw [ids_setNeighbor]
  split
  · exact h
  · next hb =>
    apply h.append (List.nodup_singleton b)
    intro v hv hvb
    rw [List.mem_singleton.mp hvb] at hv
    exact hb hv

theorem nodup_filter {neighbors : List (UInt32 × Q)} (h : (ids neighbors).Nodup)
    (f : UInt32 × Q → Bool) : (ids (neighbors.filter f)).Nodup :=
  h.sublist (List.filter_sublist.map Prod.fst)

theorem mem_iff_lookup {neighbors : List (UInt32 × Q)} (h : (ids neighbors).Nodup)
    (b : UInt32) (q : Q) : (b, q) ∈ neighbors ↔ neighbors.lookup b = some q := by
  induction neighbors with
  | nil => simp
  | cons p neighbors ih =>
    obtain ⟨hp, hrest⟩ := List.nodup_cons.mp h
    rw [lookup_cons_node, List.mem_cons, ih hrest]
    by_cases hbp : b = p.1
    · have hb : neighbors.lookup b ≠ some q := fun hlookup =>
        hp (hbp ▸ List.mem_map_of_mem ((ih hrest).mpr hlookup))
      rw [if_pos hbp, Option.some.injEq, Prod.ext_iff]
      simp [hbp, eq_comm, hbp ▸ hb]
    · simp [hbp, Prod.ext_iff]

theorem lookup_filter_ne (n b : UInt32) (neighbors : List (UInt32 × Q)) :
    (neighbors.filter fun p => p.1 != n).lookup b =
      if b = n then none else neighbors.lookup b := by
  induction neighbors with
  | nil => simp
  | cons p neighbors ih =>
    by_cases hpn : p.1 = n
    · rw [List.filter_cons_of_neg (by simp [hpn]), ih, lookup_cons_node, hpn]
      by_cases hbn : b = n
      · rw [if_pos hbn, if_pos hbn]
      · rw [if_neg hbn, if_neg hbn, if_neg hbn]
    · rw [List.filter_cons_of_pos (by simp [hpn]), lookup_cons_node, lookup_cons_node, ih]
      by_cases hbp : b = p.1
      · have hbn : b ≠ n := fun h => hpn (hbp.symm.trans h)
        rw [if_pos hbp, if_neg hbn, if_pos hbp]
      · rw [if_neg hbp, if_neg hbp]

theorem link_updateAdj (t : RouteTable Q) (a b u v : UInt32) (q : Q) :
    (t.updateAdj a b q).link u v = if u = a ∧ v = b then some q else t.link u v := by
  unfold link
  rw [linksOf_updateAdj]
  by_cases hua : u = a
  · subst hua
    rw [if_pos rfl, lookup_setNeighbor]
    simp
  · rw [if_neg hua, if_neg (fun h => hua h.1)]

theorem link_removeNode (t : RouteTable Q) (n u v : UInt32) :
    (t.removeNode n).link u v = if n = u ∨ n = v then none else t.link u v := by
  unfold link
  rw [linksOf_removeNode]
  by_cases hun : u = n
  · rw [if_pos hun, if_pos (.inl hun.symm)]
    rfl
  · have hnu : n ≠ u := fun h => hun h.symm
    rw [if_neg hun, lookup_filter_ne]
    simp [hnu, eq_comm]

/-- The lists have no repeated id, and hold of each pair what the function says, in both
directions. -/
structure Abstracts (t : RouteTable Q) (m : PairLinks Q) : Prop where
  nodup : ∀ u, (ids (t.linksOf u)).Nodup
  link_eq : ∀ u v, t.link u v = m s(u, v)

theorem abstracts_new (localId : UInt32) : Abstracts (new localId : RouteTable Q) fun _ => none where
  nodup u := by
    rw [linksOf_new]
    exact List.nodup_nil
  link_eq u v := by
    unfold link
    rw [linksOf_new]
    rfl

theorem nodup_updateAdj {t : RouteTable Q} (h : ∀ u, (ids (t.linksOf u)).Nodup)
    (a b : UInt32) (q : Q) (u : UInt32) : (ids ((t.updateAdj a b q).linksOf u)).Nodup := by
  rw [linksOf_updateAdj]
  split
  · exact nodup_setNeighbor (h a) b q
  · exact h u

theorem Abstracts.updateLink {t : RouteTable Q} {m : PairLinks Q} (h : Abstracts t m)
    (a b : UInt32) (q : Q) :
    Abstracts (t.updateLink a b q) (m.edit (.updateLink a b q)) where
  nodup := nodup_updateAdj (nodup_updateAdj h.nodup a b q) b a q
  link_eq u v := by
    change ((t.updateAdj a b q).updateAdj b a q).link u v =
      Function.update m s(a, b) (some q) s(u, v)
    rw [link_updateAdj, link_updateAdj, h.link_eq, Function.update_apply]
    by_cases hback : u = b ∧ v = a
    · rw [if_pos hback, if_pos (Sym2.eq_iff.mpr (.inr hback))]
    · rw [if_neg hback]
      by_cases hforth : u = a ∧ v = b
      · rw [if_pos hforth, if_pos (Sym2.eq_iff.mpr (.inl hforth))]
      · rw [if_neg hforth, if_neg fun h => (Sym2.eq_iff.mp h).elim hforth hback]

theorem Abstracts.removeNode {t : RouteTable Q} {m : PairLinks Q} (h : Abstracts t m)
    (n : UInt32) : Abstracts (t.removeNode n) (m.edit (.removeNode n)) where
  nodup u := by
    rw [linksOf_removeNode]
    split
    · exact List.nodup_nil
    · exact nodup_filter (h.nodup u) _
  link_eq u v := by
    unfold PairLinks.edit
    rw [link_removeNode, h.link_eq]
    simp only [Sym2.mem_iff]

theorem Abstracts.editLinks {t : RouteTable Q} {m : PairLinks Q} (h : Abstracts t m)
    (e : LinkEdit Q) : Abstracts (t.editLinks e).1 (m.edit e) := by
  cases e with
  | updateLink a b q => exact h.updateLink a b q
  | removeNode n => exact h.removeNode n

theorem abstracts_run (localId : UInt32) (edits : List (LinkEdit Q)) :
    Abstracts (after editLinks (new localId) edits)
      (edits.foldl PairLinks.edit fun _ => none) :=
  run_induction editLinks (new localId : RouteTable Q)
    (fun edits t => Abstracts t (edits.foldl PairLinks.edit fun _ => none))
    (abstracts_new localId)
    (fun edits e h => by
      rw [List.foldl_concat]
      exact h.editLinks e)
    edits

theorem Abstracts.mem_iff {t : RouteTable Q} {m : PairLinks Q} (h : Abstracts t m)
    (a b : UInt32) (q : Q) : (b, q) ∈ t.linksOf a ↔ m s(a, b) = some q := by
  rw [mem_iff_lookup (h.nodup a), ← h.link_eq]
  rfl

theorem Abstracts.symmetric {t : RouteTable Q} {m : PairLinks Q} (h : Abstracts t m)
    (a b : UInt32) (q : Q) : (b, q) ∈ t.linksOf a ↔ (a, q) ∈ t.linksOf b := by
  rw [h.mem_iff, h.mem_iff, Sym2.eq_swap]

theorem not_mem_removeNode (t : RouteTable Q) (n : UInt32) :
    n ∉ (t.removeNode n).adjacency := by
  unfold removeNode
  simp

theorem linksOf_removeNode_of_ne (t : RouteTable Q) {n u : UInt32} (h : u ≠ n) :
    (t.removeNode n).linksOf u = (t.linksOf u).filter fun p => p.1 != n := by
  rw [linksOf_removeNode, if_neg h]

theorem ne_of_mem_removeNode {t : RouteTable Q} {n u : UInt32} {p : UInt32 × Q}
    (hp : p ∈ (t.removeNode n).linksOf u) : p.1 ≠ n := by
  rw [linksOf_removeNode] at hp
  split at hp
  · cases hp
  · exact bne_iff_ne.mp (List.mem_filter.mp hp).2

theorem mem_removeNode_of_ne (t : RouteTable Q) {n a b : UInt32} (ha : a ≠ n) (hb : b ≠ n)
    (q : Q) : (b, q) ∈ (t.removeNode n).linksOf a ↔ (b, q) ∈ t.linksOf a := by
  rw [linksOf_removeNode_of_ne t ha, List.mem_filter]
  exact and_iff_left (bne_iff_ne.mpr hb)

/-- After every run the lists have no repeated id and agree in both directions, and a removal
then takes out the node and nothing else. -/
theorem links_symmetric_run (localId : UInt32) (edits : List (LinkEdit Q)) :
    let t : RouteTable Q := after editLinks (new localId) edits
    (∀ (u : UInt32) (neighbors : List (UInt32 × Q)),
      t.adjacency[u]? = some neighbors → (ids neighbors).Nodup) ∧
    (∀ a b q, (b, q) ∈ t.linksOf a ↔ (a, q) ∈ t.linksOf b) ∧
    ∀ x,
      x ∉ (t.removeNode x).adjacency ∧
      (∀ u, ∀ p ∈ (t.removeNode x).linksOf u, p.1 ≠ x) ∧
      ∀ a, a ≠ x →
        (a ∈ (t.removeNode x).adjacency ↔ a ∈ t.adjacency) ∧
        (t.removeNode x).linksOf a = (t.linksOf a).filter (fun p => p.1 != x) ∧
        ∀ b q, b ≠ x → ((b, q) ∈ (t.removeNode x).linksOf a ↔ (b, q) ∈ t.linksOf a) := by
  intro t
  have hall := abstracts_run localId edits
  refine ⟨fun u neighbors hu => ?_, hall.symmetric, fun x => ⟨not_mem_removeNode t x,
    fun u p hp => ne_of_mem_removeNode hp, fun a ha => ⟨?_, linksOf_removeNode_of_ne t ha,
      fun b q hb => mem_removeNode_of_ne t ha hb q⟩⟩⟩
  · have hlist : t.linksOf u = neighbors := by
      unfold linksOf
      rw [Std.ExtTreeMap.getD_eq_getD_getElem?, hu]
      rfl
    rw [← hlist]
    exact hall.nodup u
  · unfold removeNode
    simpa using fun _ => ha.symm

end RouteTable

end Cirradio.Network
