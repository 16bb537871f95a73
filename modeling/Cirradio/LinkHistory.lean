import Cirradio.LinkStateFlooding
import Cirradio.MeshRouterRuns

/-!
# How links come and go

The links from one node to another are written by the advertisements of both and by the
local node's own measurements, and are taken out only with one of the two nodes. So an
advertisement that no longer lists a neighbour leaves the old link in the table, and the
first hop of a route need not be a link that the local node measured.
-/

namespace Cirradio.Network
open BestWalks OrderedMaps WhileLoops

namespace RouteTable
variable {Q : Type}

/-- The links recorded from one node to another. -/
def cell (t : RouteTable Q) (u v : UInt32) : List (UInt32 × Q) :=
  (t.linksOf u).filter fun p => p.1 == v

theorem mem_cell {t : RouteTable Q} {u v : UInt32} {w : Q} :
    (v, w) ∈ t.cell u v ↔ t.Link u v w := by
  simp [cell, Link, List.mem_filter]

theorem link_congr {t t' : RouteTable Q} {u v : UInt32} (h : t'.cell u v = t.cell u v) (w : Q) :
    t'.Link u v w ↔ t.Link u v w := by
  rw [← mem_cell, ← mem_cell, h]

theorem cell_congr {t t' : RouteTable Q} (h : t'.adjacency = t.adjacency) (u v : UInt32) :
    t'.cell u v = t.cell u v := by
  unfold cell linksOf
  rw [h]

theorem exists_link_iff {t : RouteTable Q} {u v : UInt32} :
    (∃ w, t.Link u v w) ↔ t.cell u v ≠ [] := by
  constructor
  · rintro ⟨w, hlink⟩ hempty
    have hmem := mem_cell.mpr hlink
    rw [hempty] at hmem
    cases hmem
  · intro hne
    obtain ⟨p, hp⟩ := List.exists_mem_of_ne_nil _ hne
    have hid : p.1 = v := eq_of_beq (List.mem_filter.mp hp).2
    refine ⟨p.2, mem_cell.mp ?_⟩
    rw [← hid]
    rwa [← hid] at hp

theorem filter_setNeighbor (b v : UInt32) (q : Q) (neighbors : List (UInt32 × Q)) :
    (setNeighbor b q neighbors).filter (fun p => p.1 == v) =
      if v = b then setNeighbor b q (neighbors.filter fun p => p.1 == v)
      else neighbors.filter fun p => p.1 == v := by
  induction neighbors with
  | nil =>
    by_cases hvb : v = b
    · simp [setNeighbor, hvb]
    · have hbv : b ≠ v := fun h => hvb h.symm
      simp [setNeighbor, hvb, hbv]
  | cons p neighbors ih =>
    by_cases hpb : p.1 = b
    · by_cases hvb : v = b
      · simp [setNeighbor, hpb, hvb]
      · have hbv : b ≠ v := fun h => hvb h.symm
        simp [setNeighbor, hpb, hvb, hbv]
    · by_cases hpv : p.1 = v
      · have hvb : v ≠ b := fun h => hpb (hpv.trans h)
        simp only [hvb, if_false] at ih
        simp [setNeighbor, hpv, hvb, ih]
      · by_cases hvb : v = b
        · simp only [hvb, if_true] at ih
          simp [setNeighbor, hpb, hvb, ih]
        · simp only [hvb, if_false] at ih
          simp [setNeighbor, hpb, hpv, hvb, ih]

theorem setNeighbor_setNeighbor (b : UInt32) (q q' : Q) (neighbors : List (UInt32 × Q)) :
    setNeighbor b q (setNeighbor b q' neighbors) = setNeighbor b q neighbors := by
  induction neighbors with
  | nil => simp [setNeighbor]
  | cons p neighbors ih =>
    by_cases hpb : p.1 = b
    · simp [setNeighbor, hpb]
    · simp [setNeighbor, hpb, ih]

theorem setNeighbor_ne_nil (b : UInt32) (q : Q) (neighbors : List (UInt32 × Q)) :
    setNeighbor b q neighbors ≠ [] := by
  cases neighbors with
  | nil => simp [setNeighbor]
  | cons p neighbors =>
    unfold setNeighbor
    split <;> simp

theorem cell_updateAdj (t : RouteTable Q) (a b u v : UInt32) (q : Q) :
    (t.updateAdj a b q).cell u v =
      if u = a ∧ v = b then setNeighbor v q (t.cell u v) else t.cell u v := by
  unfold cell
  rw [linksOf_updateAdj]
  by_cases hua : u = a
  · subst hua
    rw [if_pos rfl, filter_setNeighbor]
    by_cases hvb : v = b
    · subst hvb
      simp
    · simp [hvb]
  · simp [hua]

/-- The link between two nodes is written in both directions. -/
def Joins (a b u v : UInt32) : Prop := (u = a ∧ v = b) ∨ (u = b ∧ v = a)

instance (a b u v : UInt32) : Decidable (Joins a b u v) :=
  inferInstanceAs (Decidable ((u = a ∧ v = b) ∨ (u = b ∧ v = a)))

theorem cell_updateLink (t : RouteTable Q) (a b u v : UInt32) (q : Q) :
    (t.updateLink a b q).cell u v =
      if Joins a b u v then setNeighbor v q (t.cell u v) else t.cell u v := by
  unfold updateLink
  rw [cell_updateAdj, cell_updateAdj]
  by_cases hfirst : u = a ∧ v = b
  · have hjoins : Joins a b u v := .inl hfirst
    rw [if_pos hjoins, if_pos hfirst]
    by_cases hsecond : u = b ∧ v = a
    · rw [if_pos hsecond, setNeighbor_setNeighbor]
    · rw [if_neg hsecond]
  · by_cases hsecond : u = b ∧ v = a
    · have hjoins : Joins a b u v := .inr hsecond
      rw [if_pos hsecond, if_neg hfirst, if_pos hjoins]
    · have hjoins : ¬ Joins a b u v := not_or.mpr ⟨hfirst, hsecond⟩
      rw [if_neg hsecond, if_neg hfirst, if_neg hjoins]

/-- Only the links of the removed node go. -/
theorem cell_removeNode (t : RouteTable Q) (n u v : UInt32) :
    (t.removeNode n).cell u v = if u = n ∨ v = n then [] else t.cell u v := by
  unfold cell
  rw [linksOf_removeNode]
  by_cases hun : u = n
  · simp [hun]
  · by_cases hvn : v = n
    · subst hvn
      simp [hun, List.filter_filter]
    · rw [if_neg hun, if_neg (not_or.mpr ⟨hun, hvn⟩), List.filter_filter]
      apply List.filter_congr
      intro p _
      by_cases hpv : p.1 = v
      · simp [hpv, hvn]
      · simp [hpv]

/-- A write, if there is one. -/
def overwrite (v : UInt32) (links : List (UInt32 × Q)) : Option Q → List (UInt32 × Q)
  | none => links
  | some q => setNeighbor v q links

theorem overwrite_overwrite (v : UInt32) (links : List (UInt32 × Q)) (q q' : Option Q) :
    overwrite v (overwrite v links q') q = overwrite v links (q.or q') := by
  cases q with
  | none => rfl
  | some q =>
    cases q' with
    | none => rfl
    | some q' => exact setNeighbor_setNeighbor v q q' links

end RouteTable

namespace LinkStateAdvertisement
variable {Q : Type}

/-- The quality an advertisement's list gives for a neighbour, the last one if several. -/
def listed : List (LinkInfo Q) → UInt32 → Option Q
  | [], _ => none
  | link :: links, v =>
    (listed links v).or (if link.neighborId = v then some link.quality else none)

theorem exists_of_listed {links : List (LinkInfo Q)} {v : UInt32} {q : Q}
    (h : listed links v = some q) : ∃ link ∈ links, link.neighborId = v := by
  induction links with
  | nil => cases h
  | cons link links ih =>
    unfold listed at h
    rcases Option.or_eq_some_iff.mp h with hrest | ⟨-, hfirst⟩
    · obtain ⟨link', hmem, hid⟩ := ih hrest
      exact ⟨link', List.mem_cons_of_mem link hmem, hid⟩
    · split at hfirst
      · next hid => exact ⟨link, List.mem_cons_self, hid⟩
      · cases hfirst

/-- The quality the advertisement gives for the link between two nodes. -/
def reports (lsa : LinkStateAdvertisement Q) (u v : UInt32) : Option Q :=
  if u = lsa.nodeId then listed lsa.neighbors v
  else if v = lsa.nodeId then listed lsa.neighbors u
  else none

end LinkStateAdvertisement

namespace MeshRouter
open RouteTable LinkStateAdvertisement
variable {Q : Type}

/-- An advertisement overwrites what it reports of a link, and nothing else. -/
theorem cell_addLinks (t : RouteTable Q) (lsa : LinkStateAdvertisement Q) (u v : UInt32) :
    (addLinks t lsa).cell u v = overwrite v (t.cell u v) (lsa.reports u v) := by
  obtain ⟨n, links, sequence, timestamp⟩ := lsa
  unfold addLinks reports
  induction links generalizing t with
  | nil => simp [listed, overwrite]
  | cons link links ih =>
    rw [List.foldl_cons, ih, cell_updateLink]
    simp only [listed]
    have hone : (if Joins n link.neighborId u v then setNeighbor v link.quality (t.cell u v)
        else t.cell u v) = overwrite v (t.cell u v)
          (if Joins n link.neighborId u v then some link.quality else none) := by
      split <;> rfl
    rw [hone, overwrite_overwrite]
    congr 1
    unfold Joins
    by_cases hun : u = n
    · subst hun
      simp only [true_and, if_true, eq_comm (a := link.neighborId) (b := v)]
      by_cases hv : v = link.neighborId
      · simp [hv]
      · by_cases hvu : v = u
        · have hul : u ≠ link.neighborId := fun h => hv (hvu.trans h)
          simp [hvu, hul]
        · simp [hv, hvu]
    · by_cases hvn : v = n
      · subst hvn
        simp [hun, eq_comm (a := link.neighborId)]
      · simp [hun, hvn]

section History
variable [Preorder Q] [DecidableLT Q] [One Q] [Mul Q] [Zero Q]

/-- The call at a position of a run is an advertisement that is accepted. -/
def AcceptedAt (limit : ℕ) (localId : UInt32) (calls : List (RouterCall Q)) (i : ℕ)
    (lsa : LinkStateAdvertisement Q) : Prop :=
  calls[i]? = some (.processAdvertisement lsa) ∧
    ∃ r, (new localId).run limit (calls.take i) = some r ∧ r.rejects lsa = false

theorem AcceptedAt.concat {limit : ℕ} {localId : UInt32} {calls : List (RouterCall Q)} {i : ℕ}
    {lsa : LinkStateAdvertisement Q} (h : AcceptedAt limit localId calls i lsa)
    (c : RouterCall Q) : AcceptedAt limit localId (calls ++ [c]) i lsa := by
  obtain ⟨hcall, haccepted⟩ := h
  have hi : i < calls.length := (List.getElem?_eq_some_iff.mp hcall).1
  refine ⟨by rw [List.getElem?_append_left hi, hcall], ?_⟩
  rwa [List.take_append_of_le_length (Nat.le_of_lt hi)]

theorem acceptedAt_last {limit : ℕ} {localId : UInt32} {calls : List (RouterCall Q)}
    {r : MeshRouter Q} (hrun : (new localId).run limit calls = some r)
    {lsa : LinkStateAdvertisement Q} (haccepts : r.rejects lsa = false) :
    AcceptedAt limit localId (calls ++ [.processAdvertisement lsa]) calls.length lsa := by
  refine ⟨List.getElem?_concat_length, r, ?_, haccepts⟩
  rwa [List.take_left]

/-- Every first hop is a neighbour that the node measured itself and has not removed. -/
def ForwardsToNeighbors (Q : Type) [LT Q] [DecidableLT Q] [One Q] [Mul Q] [Zero Q] : Prop :=
  ∀ (limit : ℕ) (localId : UInt32) (calls : List (RouterCall Q)) (r : MeshRouter Q),
    (new localId).run limit calls = some r →
    ∀ d e, r.routeTo d = some e → e.nextHop ∈ r.neighbors

/-- An advertisement of the node that lists the local node was accepted, and the node has
not been removed since. -/
def AdvertisedHere (limit : ℕ) (localId : UInt32) (calls : List (RouterCall Q))
    (n : UInt32) : Prop :=
  ∃ i lsa, AcceptedAt limit localId calls i lsa ∧ lsa.nodeId = n ∧
    (∃ link ∈ lsa.neighbors, link.neighborId = localId) ∧
    ∀ j, i < j → calls[j]? ≠ some (.removeNeighbor n)

theorem AdvertisedHere.concat {limit : ℕ} {localId n : UInt32} {calls : List (RouterCall Q)}
    (h : AdvertisedHere limit localId calls n) {c : RouterCall Q} (hc : c ≠ .removeNeighbor n) :
    AdvertisedHere limit localId (calls ++ [c]) n := by
  obtain ⟨i, lsa, haccepted, hid, hlists, hkept⟩ := h
  refine ⟨i, lsa, haccepted.concat c, hid, hlists, ?_⟩
  intro j hij hj
  rcases Nat.lt_or_ge j calls.length with hlt | hge
  · rw [List.getElem?_append_left hlt] at hj
    exact hkept j hij hj
  · rw [List.getElem?_append_right hge] at hj
    rw [List.getElem?_singleton] at hj
    split at hj
    · exact hc (Option.some.inj hj)
    · cases hj

/-- An accepted advertisement is not from the local node, so what it reports of a link there comes
from the other end. -/
theorem advertisedHere_last {limit : ℕ} {localId n : UInt32} {calls : List (RouterCall Q)}
    {r : MeshRouter Q} (hrun : (new localId).run limit calls = some r) (hid : r.localId = localId)
    {lsa : LinkStateAdvertisement Q} (haccepts : r.rejects lsa = false) {q : Q}
    (hreports : lsa.reports localId n = some q) :
    AdvertisedHere limit localId (calls ++ [.processAdvertisement lsa]) n := by
  have hforeign : localId ≠ lsa.nodeId := by
    rintro rfl
    simp [rejects, hid] at haccepts
  unfold reports at hreports
  rw [if_neg hforeign] at hreports
  split at hreports
  · next hn =>
    refine ⟨calls.length, lsa, acceptedAt_last hrun haccepts, hn.symm,
      exists_of_listed hreports, fun j hj => ?_⟩
    rw [List.getElem?_eq_none (by simp; omega)]
    simp
  · cases hreports

theorem cell_of_call {limit : ℕ} {r r' : MeshRouter Q} {c : RouterCall Q}
    (h : r.call limit c = some r') (u v : UInt32) :
    (r.effect c = none ∧ r' = r) ∨ ∃ m, r.effect c = some m ∧
      r'.directNeighbors = m.directNeighbors ∧ r'.table.cell u v = m.table.cell u v := by
  rcases call_cases h with hrejected | ⟨m, table, heffect, hrecompute, rfl⟩
  · exact .inl hrejected
  · obtain ⟨-, hadj, -⟩ := routed_of_recompute hrecompute
    exact .inr ⟨m, heffect, rfl, cell_congr hadj u v⟩

/-- A link of the local node was measured here or advertised by its other end. -/
theorem mem_or_advertisedHere {limit : ℕ} {localId : UInt32} {calls : List (RouterCall Q)}
    {r : MeshRouter Q} (hrun : (new localId).run limit calls = some r) :
    r.localId = localId ∧ ∀ n, r.table.cell localId n ≠ [] →
      n ∈ r.directNeighbors ∨ AdvertisedHere limit localId calls n := by
  refine run_induction (fun calls r => r.localId = localId ∧
    ∀ n, r.table.cell localId n ≠ [] →
      n ∈ r.directNeighbors ∨ AdvertisedHere limit localId calls n) ?_ ?_ hrun
  · refine ⟨rfl, fun n hn => absurd ?_ hn⟩
    change ((RouteTable.new localId).linksOf localId).filter _ = []
    rw [linksOf_new]
    rfl
  · rintro calls r₁ c r₂ hrun₁ ⟨hid, hlinks⟩ hcall
    refine ⟨(call_localId hcall).trans hid, fun n hn => ?_⟩
    rcases cell_of_call hcall localId n with ⟨heffect, rfl⟩ | ⟨m, heffect, hneighbors, hcell⟩
    · -- rejected
      have hkeep : c ≠ .removeNeighbor n := by
        rintro rfl
        cases heffect
      exact (hlinks n hn).imp id fun h => h.concat hkeep
    · rw [hneighbors]
      rw [hcell] at hn
      cases c with
      | processAdvertisement lsa =>
        obtain ⟨haccepts, rfl⟩ := effect_advertisement heffect
        rw [cell_addLinks] at hn
        cases hreports : lsa.reports localId n with
        | none =>
          rw [hreports] at hn
          exact (hlinks n hn).imp id fun h => h.concat (by simp)
        | some q =>
          exact .inr (advertisedHere_last hrun₁ hid haccepts hreports)
      | updateNeighbor neighborId quality =>
        cases heffect
        change n ∈ r₁.directNeighbors.insert neighborId quality ∨ _
        change (r₁.table.updateLink r₁.localId neighborId quality).cell localId n ≠ [] at hn
        rw [cell_updateLink, hid] at hn
        rw [mem_insert_iff]
        by_cases hsame : neighborId = n
        · exact .inl (.inl hsame.symm)
        · have hother : ¬ Joins localId neighborId localId n := by
            rintro (⟨-, h⟩ | ⟨h, h'⟩)
            · exact hsame h.symm
            · exact hsame (h.symm.trans h'.symm)
          rw [if_neg hother] at hn
          exact (hlinks n hn).imp .inr fun h => h.concat (by simp)
      | removeNeighbor neighborId =>
        cases heffect
        change n ∈ r₁.directNeighbors.erase neighborId ∨ _
        change (r₁.table.removeNode neighborId).cell localId n ≠ [] at hn
        rw [cell_removeNode] at hn
        split at hn
        · exact absurd rfl hn
        · next hne =>
          have hsame : neighborId ≠ n := fun h => hne (.inr h.symm)
          rw [mem_erase_iff]
          refine (hlinks n hn).imp (fun h => ⟨fun heq => hsame heq.symm, h⟩) fun h => h.concat ?_
          rintro ⟨⟩
          exact hsame rfl

/-- The first hop of a route is a neighbour that the node measured, or one that advertised
the local node. -/
theorem nextHop_mem_or_advertisedHere (limit : ℕ) (localId : UInt32)
    (calls : List (RouterCall Q)) (r : MeshRouter Q)
    (hrun : (new localId).run limit calls = some r) (d : UInt32) (e : RouteEntry Q)
    (he : r.routeTo d = some e) :
    e.nextHop ∈ r.neighbors ∨ AdvertisedHere limit localId calls e.nextHop := by
  obtain ⟨hcurrent, -⟩ := (current_new localId).run hrun
  obtain ⟨hid, hlinks⟩ := mem_or_advertisedHere hrun
  obtain ⟨quality, predecessor, hexplores, hroutes⟩ := hcurrent.routed
  obtain ⟨n, htrace, -⟩ := (hroutes.entry d e he).trace
  obtain ⟨w, hlink, -⟩ := hexplores.linked _ _ htrace.predecessor_last
  rw [hcurrent.localId, hid] at hlink
  have hcell : r.table.cell localId e.nextHop ≠ [] := exists_link_iff.mp ⟨w, hlink⟩
  exact (hlinks e.nextHop hcell).imp Std.ExtTreeMap.mem_keys.mpr id

end History

/-- Node 2 advertises a link to node 1, which has measured no link. -/
def heardRun : List (RouterCall Percent) :=
  [.processAdvertisement ⟨2, [⟨1, .of 90⟩], 1, 0⟩]

theorem heardRun_route : ∃ r e, (new 1).run 9 heardRun = some r ∧ r.routeTo 2 = some e ∧
    r.neighbors = [] := by
  have hroute : ((new 1).run 9 heardRun).map
      (fun r => ((r.routeTo 2).isSome, r.neighbors)) = some (true, []) := by decide
  obtain ⟨r, hrun, hr⟩ := Option.map_eq_some_iff.mp hroute
  obtain ⟨hsome, hneighbors⟩ := Prod.mk.inj hr
  obtain ⟨e, he⟩ := Option.isSome_iff_exists.mp hsome
  exact ⟨r, e, hrun, he, hneighbors⟩

theorem nextHop_mem_or_advertisedHere_heardRun :
    ∃ r e, (new 1).run 9 heardRun = some r ∧ r.routeTo 2 = some e ∧
      (e.nextHop ∈ r.neighbors ∨ AdvertisedHere 9 1 heardRun e.nextHop) := by
  obtain ⟨r, e, hrun, he, -⟩ := heardRun_route
  exact ⟨r, e, hrun, he, nextHop_mem_or_advertisedHere 9 1 heardRun r hrun 2 e he⟩

/-- Node 1 forwards packets for node 2 to node 2, though it has measured no link. -/
theorem not_forwardsToNeighbors : ¬ ForwardsToNeighbors Percent := by
  intro h
  obtain ⟨r, e, hrun, he, hneighbors⟩ := heardRun_route
  have hmem := h 9 1 heardRun r hrun 2 e he
  rw [hneighbors] at hmem
  cases hmem

section Withdrawal
variable [Preorder Q] [DecidableLT Q] [One Q] [Mul Q] [Zero Q]

/-- The advertisement is the last one of its node that the run accepted. -/
def Latest (limit : ℕ) (localId : UInt32) (calls : List (RouterCall Q))
    (lsa : LinkStateAdvertisement Q) : Prop :=
  ∃ i, AcceptedAt limit localId calls i lsa ∧
    ∀ j lsa', i < j → AcceptedAt limit localId calls j lsa' → lsa'.nodeId ≠ lsa.nodeId

end Withdrawal

/-- A link between two other nodes is gone after an accepted advertisement of one of them
that does not list the other, when the latest advertisements of all others do not give
that link either. -/
def WithdrawnGone (Q : Type) [Preorder Q] [DecidableLT Q] [One Q] [Mul Q] [Zero Q] : Prop :=
  ∀ (limit : ℕ) (localId : UInt32) (calls : List (RouterCall Q))
    (lsa : LinkStateAdvertisement Q) (x : UInt32) (r r' : MeshRouter Q),
    (new localId).run limit calls = some r →
    r.processAdvertisement limit lsa = some (r', true) →
    (∀ link ∈ lsa.neighbors, link.neighborId ≠ x) →
    (∀ lsa', Latest limit localId calls lsa' → lsa'.nodeId ≠ lsa.nodeId →
      lsa'.reports lsa.nodeId x = none) →
    lsa.nodeId ≠ localId → x ≠ localId →
    ∀ w, ¬ r'.table.Link lsa.nodeId x w ∧ ¬ r'.table.Link x lsa.nodeId w

section Withdrawal
variable [Preorder Q] [DecidableLT Q] [One Q] [Mul Q] [Zero Q]

omit [Preorder Q] [DecidableLT Q] [One Q] [Mul Q] [Zero Q] in
theorem reports_eq_none {lsa : LinkStateAdvertisement Q} {x : UInt32}
    (h : ∀ link ∈ lsa.neighbors, link.neighborId ≠ x) :
    lsa.reports lsa.nodeId x = none ∧ lsa.reports x lsa.nodeId = none := by
  have hlisted : listed lsa.neighbors x = none := by
    cases hx : listed lsa.neighbors x with
    | none => rfl
    | some q =>
      obtain ⟨link, hmem, hid⟩ := exists_of_listed hx
      exact absurd hid (h link hmem)
  unfold reports
  refine ⟨by rw [if_pos rfl, hlisted], ?_⟩
  split
  · next hx => rw [← hx, hlisted]
  · rw [if_pos rfl, hlisted]

/-- A link stays in the table until one of its nodes is removed. -/
theorem link_kept {limit : ℕ} {n x : UInt32} {calls : List (RouterCall Q)}
    (hkeep : ∀ c ∈ calls, c ≠ .removeNeighbor n ∧ c ≠ .removeNeighbor x)
    {r r' : MeshRouter Q} (hrun : r.run limit calls = some r')
    (hlink : ∃ w, r.table.Link n x w) : ∃ w, r'.table.Link n x w := by
  rw [exists_link_iff] at hlink ⊢
  revert hkeep
  refine run_induction (fun calls r' => (∀ c ∈ calls, c ≠ .removeNeighbor n ∧
    c ≠ .removeNeighbor x) → r'.table.cell n x ≠ []) (fun _ => hlink) ?_ hrun
  intro calls r₁ c r₂ _ ih hcall hkeep
  have hcell := ih fun c' hc' => hkeep c' (List.mem_append_left _ hc')
  obtain ⟨hn, hx⟩ := hkeep c (by simp)
  rcases cell_of_call hcall n x with ⟨-, rfl⟩ | ⟨m, heffect, -, hsame⟩
  · exact hcell
  · rw [hsame]
    cases c with
    | processAdvertisement lsa =>
      obtain ⟨-, rfl⟩ := effect_advertisement heffect
      rw [cell_addLinks]
      cases lsa.reports n x with
      | none => exact hcell
      | some q => exact setNeighbor_ne_nil _ _ _
    | updateNeighbor neighborId quality =>
      cases heffect
      change (r₁.table.updateLink r₁.localId neighborId quality).cell n x ≠ []
      rw [cell_updateLink]
      split
      · exact setNeighbor_ne_nil _ _ _
      · exact hcell
    | removeNeighbor neighborId =>
      cases heffect
      change (r₁.table.removeNode neighborId).cell n x ≠ []
      rw [cell_removeNode, if_neg]
      · exact hcell
      · rintro (rfl | rfl)
        · exact hn rfl
        · exact hx rfl

theorem accepted_of_processAdvertisement {limit : ℕ} {r r' : MeshRouter Q}
    {lsa : LinkStateAdvertisement Q}
    (h : r.processAdvertisement limit lsa = some (r', true)) (u v : UInt32) :
    r'.table.cell u v = overwrite v (r.table.cell u v) (lsa.reports u v) := by
  unfold processAdvertisement at h
  split at h
  · cases h
  · obtain ⟨table, htable, heq⟩ := Option.bind_eq_some_iff.mp h
    cases heq
    obtain ⟨-, hadj, -⟩ := routed_of_recompute htable
    rw [← cell_addLinks]
    exact cell_congr hadj u v

/-- An accepted advertisement leaves a link to a node that it does not list as it was, and
the link stays until one of its nodes is removed. -/
theorem unlisted_link_kept (limit : ℕ) (r r' : MeshRouter Q) (lsa : LinkStateAdvertisement Q)
    (haccepted : r.processAdvertisement limit lsa = some (r', true)) (x : UInt32)
    (hunlisted : ∀ link ∈ lsa.neighbors, link.neighborId ≠ x) :
    (∀ w, (r'.table.Link lsa.nodeId x w ↔ r.table.Link lsa.nodeId x w) ∧
      (r'.table.Link x lsa.nodeId w ↔ r.table.Link x lsa.nodeId w)) ∧
    ∀ calls r'', (∀ c ∈ calls, c ≠ .removeNeighbor lsa.nodeId ∧ c ≠ .removeNeighbor x) →
      r'.run limit calls = some r'' →
      (∃ w, r'.table.Link lsa.nodeId x w) → ∃ w, r''.table.Link lsa.nodeId x w := by
  obtain ⟨hto, hfrom⟩ := reports_eq_none hunlisted
  have hcellTo := accepted_of_processAdvertisement haccepted lsa.nodeId x
  have hcellFrom := accepted_of_processAdvertisement haccepted x lsa.nodeId
  rw [hto] at hcellTo
  rw [hfrom] at hcellFrom
  exact ⟨fun w => ⟨link_congr hcellTo w, link_congr hcellFrom w⟩,
    fun calls r'' hkeep hrun hlink => link_kept hkeep hrun hlink⟩

end Withdrawal

/-- Node 2 has advertised a link to node 3. -/
def listedRun : List (RouterCall Percent) :=
  [.processAdvertisement ⟨2, [⟨3, .of 90⟩], 1, 0⟩]

/-- A later advertisement of node 2, without links. -/
def emptyAdvertisement : LinkStateAdvertisement Percent := ⟨2, [], 2, 0⟩

theorem listedRun_withdrawn : ∃ r r', (new 1).run 9 listedRun = some r ∧
    r.processAdvertisement 9 emptyAdvertisement = some (r', true) ∧
    r'.table.cell 2 3 = [(3, .of 90)] := by
  have hboth : (((new 1).run 9 listedRun).bind fun r =>
      (r.processAdvertisement 9 emptyAdvertisement).map fun p =>
        (p.2, p.1.table.cell 2 3)) = some (true, [(3, Percent.of 90)]) := by decide
  obtain ⟨r, hrun, hprocess⟩ := Option.bind_eq_some_iff.mp hboth
  obtain ⟨⟨r', accepted⟩, hr', heq⟩ := Option.map_eq_some_iff.mp hprocess
  obtain ⟨rfl, hcell⟩ := Prod.mk.inj heq
  exact ⟨r, r', hrun, hr', hcell⟩

theorem unlisted_link_kept_listedRun : ∃ r r', (new 1).run 9 listedRun = some r ∧
    r.processAdvertisement 9 emptyAdvertisement = some (r', true) ∧
    (∀ w, (r'.table.Link 2 3 w ↔ r.table.Link 2 3 w) ∧
      (r'.table.Link 3 2 w ↔ r.table.Link 3 2 w)) := by
  obtain ⟨r, r', hrun, hprocess, -⟩ := listedRun_withdrawn
  exact ⟨r, r', hrun, hprocess,
    (unlisted_link_kept 9 r r' emptyAdvertisement hprocess 3
      (fun link hmem => by cases hmem)).1⟩

/-- Node 2 no longer lists node 3, and node 1 keeps the link between them. -/
theorem not_withdrawnGone : ¬ WithdrawnGone Percent := by
  intro h
  obtain ⟨r, r', hrun, hprocess, hcell⟩ := listedRun_withdrawn
  have hothers : ∀ lsa', Latest 9 1 listedRun lsa' → lsa'.nodeId ≠ emptyAdvertisement.nodeId →
      lsa'.reports emptyAdvertisement.nodeId 3 = none := by
    rintro lsa' ⟨i, ⟨hcall, -⟩, -⟩ hother
    have hi : i < listedRun.length := (List.getElem?_eq_some_iff.mp hcall).1
    obtain rfl : i = 0 := Nat.lt_one_iff.mp hi
    cases hcall
    exact absurd rfl hother
  have hgone := (h 9 1 listedRun emptyAdvertisement 3 r r' hrun hprocess
    (fun link hmem => by cases hmem) hothers (by decide) (by decide) (.of 90)).1
  apply hgone
  apply mem_cell.mp
  change ((3 : UInt32), Percent.of 90) ∈ r'.table.cell 2 3
  rw [hcell]
  exact List.mem_singleton.mpr rfl

end MeshRouter
end Cirradio.Network
