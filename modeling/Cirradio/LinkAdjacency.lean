import Cirradio.RouteSearch

/-!
# Links of the route table

What an update of a link and the removal of a node leave of the neighbours of each node,
and tables in which every link has the local node at one end.
-/

namespace Cirradio.Network
open OrderedMaps

namespace RouteTable
variable {Q : Type}

theorem linksOf_updateAdj (t : RouteTable Q) (a b u : UInt32) (q : Q) :
    (t.updateAdj a b q).linksOf u =
      if u = a then setNeighbor b q (t.linksOf a) else t.linksOf u := by
  unfold linksOf updateAdj
  exact getD_insert_ite _ _ _ _ _

theorem linksOf_removeNode (t : RouteTable Q) (n u : UInt32) :
    (t.removeNode n).linksOf u =
      if u = n then [] else (t.linksOf u).filter fun p => p.1 != n := by
  unfold linksOf removeNode
  rw [Std.ExtTreeMap.getD_eq_getD_getElem?, Std.ExtTreeMap.getElem?_map, getElem?_erase_ite]
  by_cases hun : u = n
  · rw [if_pos hun, if_pos hun]
    rfl
  · rw [if_neg hun, if_neg hun, Std.ExtTreeMap.getD_eq_getD_getElem?]
    cases t.adjacency[u]? <;> rfl

theorem mem_setNeighbor {b : UInt32} {q : Q} {neighbors : List (UInt32 × Q)}
    {p : UInt32 × Q} (h : p ∈ setNeighbor b q neighbors) : p = (b, q) ∨ p ∈ neighbors := by
  induction neighbors with
  | nil => exact .inl (List.mem_singleton.mp h)
  | cons p' neighbors ih =>
    unfold setNeighbor at h
    split at h
    · next hid =>
      rcases List.mem_cons.mp h with rfl | h
      · exact .inl (by rw [hid])
      · exact .inr (List.mem_cons_of_mem p' h)
    · rcases List.mem_cons.mp h with rfl | h
      · exact .inr List.mem_cons_self
      · rcases ih h with h | h
        · exact .inl h
        · exact .inr (List.mem_cons_of_mem p' h)

theorem lookup_cons_node (p : UInt32 × Q) (neighbors : List (UInt32 × Q)) (b : UInt32) :
    (p :: neighbors).lookup b = if b = p.1 then some p.2 else neighbors.lookup b := by
  rw [List.lookup_cons]
  by_cases hb : b = p.1
  · rw [if_pos hb, beq_iff_eq.mpr hb]
  · rw [if_neg hb, beq_eq_false_iff_ne.mpr hb]

theorem lookup_setNeighbor (b b' : UInt32) (q : Q) (neighbors : List (UInt32 × Q)) :
    (setNeighbor b q neighbors).lookup b' =
      if b' = b then some q else neighbors.lookup b' := by
  induction neighbors with
  | nil => exact lookup_cons_node (b, q) [] b'
  | cons p neighbors ih =>
    unfold setNeighbor
    by_cases hid : p.1 = b
    · rw [if_pos hid, lookup_cons_node, lookup_cons_node, hid]
      split <;> rfl
    · rw [if_neg hid, lookup_cons_node, ih, lookup_cons_node]
      by_cases hb : b' = p.1
      · have hne : b' ≠ b := fun h => hid (hb.symm.trans h)
        rw [if_pos hb, if_neg hne, if_pos hb]
      · rw [if_neg hb, if_neg hb]

theorem link_updateLink (t : RouteTable Q) (a n : UInt32) (q : Q) (m : UInt32) :
    (t.updateLink a n q).link a m = if m = n then some q else t.link a m := by
  unfold link updateLink
  rw [linksOf_updateAdj]
  by_cases han : a = n
  · subst han
    rw [if_pos rfl, linksOf_updateAdj, if_pos rfl, lookup_setNeighbor, lookup_setNeighbor]
    by_cases hm : m = a
    · rw [if_pos hm, if_pos hm]
    · rw [if_neg hm, if_neg hm]
  · rw [if_neg han, linksOf_updateAdj, if_pos rfl, lookup_setNeighbor]

/-- Every link has the local node at one end. -/
def Star (t : RouteTable Q) : Prop :=
  ∀ u, u ≠ t.localId → ∀ p ∈ t.linksOf u, p.1 = t.localId

theorem Star.near {t : RouteTable Q} (h : t.Star) : t.Near :=
  fun p _ hlocal p' hp' => h p.1 hlocal p' hp'

theorem linksOf_new (localId u : UInt32) : (new localId : RouteTable Q).linksOf u = [] := by
  unfold linksOf new
  exact getD_empty u []

theorem star_new (localId : UInt32) : (new localId : RouteTable Q).Star := by
  intro u _ p hp
  rw [linksOf_new] at hp
  cases hp

theorem Star.updateLink {t : RouteTable Q} (h : t.Star) (n : UInt32) (q : Q) :
    (t.updateLink t.localId n q).Star := by
  intro u hu p hp
  change u ≠ t.localId at hu
  change p.1 = t.localId
  unfold RouteTable.updateLink at hp
  rw [linksOf_updateAdj, linksOf_updateAdj, linksOf_updateAdj] at hp
  split at hp
  · next hun =>
    rw [← hun, if_neg hu] at hp
    rcases mem_setNeighbor hp with rfl | hp
    · rfl
    · exact h u hu p hp
  · exact h u hu p hp

theorem Star.removeNode {t : RouteTable Q} (h : t.Star) (n : UInt32) :
    (t.removeNode n).Star := by
  intro u hu p hp
  rw [linksOf_removeNode] at hp
  split at hp
  · cases hp
  · exact h u hu p (List.mem_of_mem_filter hp)

theorem near_single {a b : UInt32} (hab : a ≠ b) (n : UInt32) (q : Q) :
    ((new b : RouteTable Q).updateLink a n q).Near := by
  intro p hp hlocal p' hp'
  change p.1 ≠ b at hlocal
  change p'.1 = b
  change p ∈ ((new b).updateLink a n q).linksOf b at hp
  unfold updateLink at hp hp'
  simp only [linksOf_updateAdj, linksOf_new] at hp hp'
  have hba : b ≠ a := fun h => hab h.symm
  -- only the far end of the link can be the local node
  by_cases hbn : b = n
  · subst hbn
    simp only [hba, if_false, if_true, setNeighbor, List.mem_singleton] at hp
    subst hp
    simp only [hab, if_false, if_true, setNeighbor, List.mem_singleton] at hp'
    rw [hp']
  · simp [hba, hbn] at hp

end RouteTable

end Cirradio.Network
