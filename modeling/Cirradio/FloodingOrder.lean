import Cirradio.LinkHistory
import Mathlib.Data.List.ReduceOption

/-!
# Flooding in different orders

A link is written by the advertisements of its two ends only, so a set of advertisements
from different nodes makes the same links in every order, up to the quality of a link of
which both ends give different ones: there the last one delivered counts. What can be
reached depends on the links alone, and the qualities of the routes on the links with
their qualities.
-/

namespace Cirradio.BestWalks
variable {V Q : Type}

theorem Reaches.congr {Link Link' : V → V → Q → Prop} {source v : V}
    (hlink : ∀ u v, (∃ w, Link u v w) → ∃ w, Link' u v w) (h : Reaches Link source v) :
    Reaches Link' source v := by
  obtain ⟨steps, hwalk⟩ := h
  induction hwalk with
  | nil => exact ⟨[], .nil⟩
  | @concat steps u v w _ link ih =>
    obtain ⟨steps', hwalk'⟩ := ih
    obtain ⟨w', hw'⟩ := hlink u v ⟨w, link⟩
    exact ⟨_, hwalk'.concat hw'⟩

theorem qualities_congr [One Q] [Mul Q] {Link Link' : V → V → Q → Prop}
    (hlink : ∀ u v w, Link u v w ↔ Link' u v w) (source v : V) :
    qualities Link source v = qualities Link' source v := by
  ext q
  constructor
  · rintro ⟨steps, hwalk, hq⟩
    exact ⟨steps, hwalk.congr fun u v w => (hlink u v w).mp, hq⟩
  · rintro ⟨steps, hwalk, hq⟩
    exact ⟨steps, hwalk.congr fun u v w => (hlink u v w).mpr, hq⟩

end Cirradio.BestWalks

namespace Cirradio.Network
open BestWalks OrderedMaps WhileLoops

namespace MeshRouter
open RouteTable LinkStateAdvertisement
variable {Q : Type}

/-- Deliveries in the order of the list. -/
def deliveries (ads : List (LinkStateAdvertisement Q)) : List (RouterCall Q) :=
  ads.map .processAdvertisement

/-- From different nodes, and newer than what the router has seen from each. -/
structure Fresh (r : MeshRouter Q) (ads : List (LinkStateAdvertisement Q)) : Prop where
  origins : (ads.map LinkStateAdvertisement.nodeId).Nodup
  newer : ∀ lsa ∈ ads, ∀ last, r.lastSequence[lsa.nodeId]? = some last → last < lsa.sequence

theorem Fresh.perm {r : MeshRouter Q} {ads ads' : List (LinkStateAdvertisement Q)}
    (h : r.Fresh ads) (hperm : ads.Perm ads') : r.Fresh ads' :=
  ⟨(hperm.map _).nodup_iff.mp h.origins, fun lsa hlsa => h.newer lsa (hperm.mem_iff.mpr hlsa)⟩

theorem Fresh.rejects_iff {r : MeshRouter Q} {lsa : LinkStateAdvertisement Q}
    {ads : List (LinkStateAdvertisement Q)} (h : r.Fresh (lsa :: ads)) :
    r.rejects lsa = true ↔ lsa.nodeId = r.localId := by
  unfold rejects
  cases hlast : r.lastSequence[lsa.nodeId]? with
  | none => simp
  | some last =>
    have hnewer := h.newer lsa List.mem_cons_self last hlast
    simp [UInt32.not_le.mpr hnewer]

/-- What the links of a cell become, by advertisements in their order. -/
def written (v : UInt32) (links : List (UInt32 × Q)) (qualities : List (Option Q)) :
    List (UInt32 × Q) :=
  qualities.foldl (overwrite v) links

theorem written_eq_overwrite (v : UInt32) (links : List (UInt32 × Q))
    (qualities : List (Option Q)) :
    written v links qualities = overwrite v links (qualities.reduceOption.getLast?) := by
  unfold written
  induction qualities using List.reverseRecOn with
  | nil => rfl
  | append_singleton qualities q ih =>
    rw [List.foldl_append, List.foldl_cons, List.foldl_nil, ih, overwrite_overwrite,
      List.reduceOption_append]
    cases q with
    | none => simp [List.reduceOption]
    | some q => simp [List.reduceOption]

/-- Two orders write the same when all writes are equal. -/
theorem written_perm (v : UInt32) (links : List (UInt32 × Q)) {qualities qualities' : List (Option Q)}
    (hperm : qualities.Perm qualities')
    (hequal : ∀ q q', some q ∈ qualities → some q' ∈ qualities → q = q') :
    written v links qualities = written v links qualities' := by
  rw [written_eq_overwrite, written_eq_overwrite]
  have hreduce : qualities.reduceOption.Perm qualities'.reduceOption := hperm.filterMap id
  have hconstant : ∀ q ∈ qualities.reduceOption, ∀ q' ∈ qualities.reduceOption, q = q' := by
    intro q hq q' hq'
    exact hequal q q' (List.reduceOption_mem_iff.mp hq) (List.reduceOption_mem_iff.mp hq')
  congr 1
  cases hlast : qualities.reduceOption.getLast? with
  | none =>
    rw [List.getLast?_eq_none_iff] at hlast
    rw [hlast] at hreduce
    rw [List.nil_perm.mp hreduce]
    rfl
  | some q =>
    have hq := List.mem_of_getLast? hlast
    cases hlast' : qualities'.reduceOption.getLast? with
    | none =>
      rw [List.getLast?_eq_none_iff] at hlast'
      rw [hlast'] at hreduce
      rw [List.perm_nil.mp hreduce] at hq
      cases hq
    | some q' =>
      have hq' := hreduce.mem_iff.mpr (List.mem_of_getLast? hlast')
      rw [hconstant q hq q' hq']

/-- A cell is left empty when nothing is there and nothing is written. -/
theorem written_eq_nil_iff (v : UInt32) (links : List (UInt32 × Q)) (qualities : List (Option Q)) :
    written v links qualities = [] ↔ links = [] ∧ ∀ q ∈ qualities, q = none := by
  induction qualities using List.reverseRecOn with
  | nil => simp [written]
  | append_singleton qualities q ih =>
    have hstep : written v links (qualities ++ [q]) = overwrite v (written v links qualities) q := by
      simp [written]
    rw [hstep]
    cases q with
    | none =>
      simp only [overwrite, ih]
      simp [or_imp]
    | some q =>
      constructor
      · intro h
        exact absurd h (setNeighbor_ne_nil v q _)
      · rintro ⟨-, h⟩
        cases h (some q) (by simp)

section Deliveries
variable [Preorder Q] [DecidableLT Q] [One Q] [Mul Q] [Zero Q]

omit [Preorder Q] [DecidableLT Q] [One Q] [Mul Q] [Zero Q] in
theorem Fresh.tail_of_effect {r m : MeshRouter Q} {lsa : LinkStateAdvertisement Q}
    {ads : List (LinkStateAdvertisement Q)} (h : r.Fresh (lsa :: ads))
    (heffect : r.effect (.processAdvertisement lsa) = some m) : m.Fresh ads := by
  obtain ⟨-, rfl⟩ := effect_advertisement heffect
  obtain ⟨hnotin, horigins⟩ := List.nodup_cons.mp h.origins
  refine ⟨horigins, fun lsa' hlsa' last hlast => ?_⟩
  change (r.lastSequence.insert lsa.nodeId lsa.sequence)[lsa'.nodeId]? = some last at hlast
  rw [getElem?_insert_ite] at hlast
  split at hlast
  · next hid =>
    rw [← hid] at hnotin
    exact absurd (List.mem_map.mpr ⟨lsa', hlsa', rfl⟩) hnotin
  · exact h.newer lsa' (List.mem_cons_of_mem lsa hlsa') last hlast

/-- What the delivered advertisements of other nodes write. -/
def reported (localId : UInt32) (ads : List (LinkStateAdvertisement Q)) (u v : UInt32) :
    List (Option Q) :=
  (ads.filter fun lsa => lsa.nodeId != localId).map fun lsa => lsa.reports u v

/-- Fresh advertisements write all that other nodes report, and leave computed routes
unless all of them were the router's own. -/
theorem Fresh.run {limit : ℕ} {r r' : MeshRouter Q} {ads : List (LinkStateAdvertisement Q)}
    (h : r.Fresh ads) (hrun : r.run limit (deliveries ads) = some r') :
    r'.table.localId = r.table.localId ∧
      (∀ u v, r'.table.cell u v = written v (r.table.cell u v) (reported r.localId ads u v)) ∧
      (((∀ lsa ∈ ads, lsa.nodeId = r.localId) ∧ r' = r) ∨ r'.table.Routed) := by
  induction ads generalizing r with
  | nil =>
    cases hrun
    exact ⟨rfl, fun u v => rfl, .inl ⟨List.forall_mem_nil _, rfl⟩⟩
  | cons lsa ads ih =>
    obtain ⟨r₁, hcall, hrest⟩ := Option.bind_eq_some_iff.mp hrun
    have hown := h.rejects_iff
    rcases call_cases hcall with ⟨heffect, rfl⟩ | ⟨m, table, heffect, hrecompute, rfl⟩
    · -- the router's own advertisement
      have hid : lsa.nodeId = r₁.localId := by
        apply hown.mp
        by_contra hrejects
        rw [effect, if_neg hrejects] at heffect
        cases heffect
      have htail : r₁.Fresh ads :=
        ⟨(List.nodup_cons.mp h.origins).2,
          fun lsa' hlsa' => h.newer lsa' (List.mem_cons_of_mem lsa hlsa')⟩
      obtain ⟨hlocal, hcells, hroutes⟩ := ih htail hrest
      refine ⟨hlocal, fun u v => ?_, ?_⟩
      · rw [hcells u v]
        simp [reported, hid]
      · exact hroutes.imp (fun hsame => ⟨List.forall_mem_cons.mpr ⟨hid, hsame.1⟩, hsame.2⟩) id
    · obtain ⟨hlocal₁, hadj, hrouted⟩ := routed_of_recompute hrecompute
      have htail : ({ m with table } : MeshRouter Q).Fresh ads :=
        ⟨(h.tail_of_effect heffect).origins, (h.tail_of_effect heffect).newer⟩
      obtain ⟨hlocal, hcells, hroutes⟩ := ih htail hrest
      obtain ⟨haccepts, rfl⟩ := effect_advertisement heffect
      have hid : lsa.nodeId ≠ r.localId := by
        intro hid
        rw [hown.mpr hid] at haccepts
        cases haccepts
      refine ⟨hlocal.trans (hlocal₁.trans (addLinks_localId r.table lsa)), fun u v => ?_, ?_⟩
      · rw [hcells u v]
        change written v (table.cell u v) _ = _
        rw [cell_congr hadj, cell_addLinks]
        simp [reported, hid, written]
      · rcases hroutes with ⟨-, rfl⟩ | hroutes
        · exact .inr hrouted
        · exact .inr hroutes

theorem own_deliveries {limit : ℕ} {r r' : MeshRouter Q} {ads : List (LinkStateAdvertisement Q)}
    (hown : ∀ lsa ∈ ads, lsa.nodeId = r.localId)
    (hrun : r.run limit (deliveries ads) = some r') : r' = r := by
  induction ads with
  | nil =>
    cases hrun
    rfl
  | cons lsa ads ih =>
    obtain ⟨r₁, hcall, hrest⟩ := Option.bind_eq_some_iff.mp hrun
    have hrejects : r.rejects lsa = true := by
      simp [rejects, hown lsa List.mem_cons_self]
    rcases call_cases hcall with ⟨-, rfl⟩ | ⟨m, table, heffect, -, -⟩
    · exact ih (fun lsa' hlsa' => hown lsa' (List.mem_cons_of_mem lsa hlsa')) hrest
    · rw [(effect_advertisement heffect).1] at hrejects
      cases hrejects

/-- Delivering fresh advertisements in two orders gives the same destinations with the same
path qualities. -/
def OrderIrrelevant (Q : Type) [LT Q] [DecidableLT Q] [One Q] [Mul Q] [Zero Q] : Prop :=
  ∀ (r : MeshRouter Q) (ads ads' : List (LinkStateAdvertisement Q)),
    r.Fresh ads → ads.Perm ads' →
    ∀ limit limit' r₁ r₂, r.run limit (deliveries ads) = some r₁ →
      r.run limit' (deliveries ads') = some r₂ →
      ∀ d, (r₁.routeTo d).map RouteEntry.pathQuality = (r₂.routeTo d).map RouteEntry.pathQuality

/-- When two of the advertisements, not the router's own, list each other's nodes, they
give the link between them the same quality. -/
def Agree (r : MeshRouter Q) (ads : List (LinkStateAdvertisement Q)) : Prop :=
  ∀ lsa ∈ ads, ∀ lsa' ∈ ads, lsa.nodeId ≠ r.localId → lsa'.nodeId ≠ r.localId →
    ∀ q q', listed lsa.neighbors lsa'.nodeId = some q →
      listed lsa'.neighbors lsa.nodeId = some q' → q = q'

omit [Preorder Q] [DecidableLT Q] [One Q] [Mul Q] [Zero Q] in
theorem mem_reported {localId : UInt32} {ads : List (LinkStateAdvertisement Q)} {u v : UInt32}
    {q : Q} (h : some q ∈ reported localId ads u v) :
    ∃ lsa ∈ ads, lsa.nodeId ≠ localId ∧
      ((u = lsa.nodeId ∧ listed lsa.neighbors v = some q) ∨
        (v = lsa.nodeId ∧ listed lsa.neighbors u = some q)) := by
  obtain ⟨lsa, hlsa, hreports⟩ := List.mem_map.mp h
  obtain ⟨hmem, hforeign⟩ := List.mem_filter.mp hlsa
  refine ⟨lsa, hmem, by simpa using hforeign, ?_⟩
  unfold reports at hreports
  split at hreports
  · next hu => exact .inl ⟨hu, hreports⟩
  · split at hreports
    · next hv => exact .inr ⟨hv, hreports⟩
    · cases hreports

omit [Preorder Q] [DecidableLT Q] [One Q] [Mul Q] [Zero Q] in
/-- All that agreeing advertisements report of a link is the same. -/
theorem Fresh.reported_equal {r : MeshRouter Q} {ads : List (LinkStateAdvertisement Q)}
    (h : r.Fresh ads) (hagree : r.Agree ads) (u v : UInt32) :
    ∀ q q', some q ∈ reported r.localId ads u v → some q' ∈ reported r.localId ads u v →
      q = q' := by
  intro q q' hq hq'
  obtain ⟨lsa, hlsa, hne, hreports⟩ := mem_reported hq
  obtain ⟨lsa', hlsa', hne', hreports'⟩ := mem_reported hq'
  have hsame : lsa.nodeId = lsa'.nodeId → lsa = lsa' :=
    fun hid => List.inj_on_of_nodup_map h.origins hlsa hlsa' hid
  rcases hreports with ⟨hu, hlisted⟩ | ⟨hv, hlisted⟩
  · rcases hreports' with ⟨hu', hlisted'⟩ | ⟨hv', hlisted'⟩
    · obtain rfl := hsame (hu.symm.trans hu')
      exact Option.some.inj (hlisted.symm.trans hlisted')
    · rw [hv'] at hlisted
      rw [hu] at hlisted'
      exact hagree lsa hlsa lsa' hlsa' hne hne' q q' hlisted hlisted'
  · rcases hreports' with ⟨hu', hlisted'⟩ | ⟨hv', hlisted'⟩
    · rw [hu'] at hlisted
      rw [hv] at hlisted'
      exact hagree lsa hlsa lsa' hlsa' hne hne' q q' hlisted hlisted'
    · obtain rfl := hsame (hv.symm.trans hv')
      exact Option.some.inj (hlisted.symm.trans hlisted')

end Deliveries

section Confluence
variable [LinearOrder Q] [One Q] [Mul Q] [Zero Q]

omit [Zero Q] in
/-- Tables with links between the same nodes have routes to the same destinations. -/
theorem isSome_routeTo_congr {r₁ r₂ : MeshRouter Q} (h₁ : r₁.table.Routed)
    (h₂ : r₂.table.Routed) (hlocal : r₁.table.localId = r₂.table.localId)
    (hlinks : ∀ u v, r₁.table.cell u v = [] ↔ r₂.table.cell u v = []) (d : UInt32) :
    (r₁.routeTo d).isSome ↔ (r₂.routeTo d).isSome := by
  by_cases hd : d = r₁.table.localId
  · have habsent₁ : r₁.routeTo d = none := by
      rw [hd]
      exact h₁.local_absent
    have habsent₂ : r₂.routeTo d = none := by
      rw [hd, hlocal]
      exact h₂.local_absent
    rw [habsent₁, habsent₂]
  · have hexists : ∀ u v, (∃ w, r₁.table.Link u v w) ↔ ∃ w, r₂.table.Link u v w := by
      intro u v
      rw [exists_link_iff, exists_link_iff]
      exact not_congr (hlinks u v)
    calc (r₁.routeTo d).isSome = true
        ↔ Reaches r₁.table.Link r₁.table.localId d := h₁.isSome_iff hd
      _ ↔ Reaches r₂.table.Link r₂.table.localId d := by
          rw [hlocal]
          exact ⟨.congr fun u v => (hexists u v).mp, .congr fun u v => (hexists u v).mpr⟩
      _ ↔ (r₂.routeTo d).isSome = true := (h₂.isSome_iff (hlocal ▸ hd)).symm

variable [MulRightMono Q]

omit [Zero Q] in
/-- Tables with the same links have routes of the same quality. -/
theorem pathQuality_routeTo_congr {r₁ r₂ : MeshRouter Q} (h₁ : r₁.table.Routed)
    (h₂ : r₂.table.Routed) (hlocal : r₁.table.localId = r₂.table.localId)
    (hcells : ∀ u v, r₁.table.cell u v = r₂.table.cell u v) (d : UInt32) :
    (r₁.routeTo d).map RouteEntry.pathQuality = (r₂.routeTo d).map RouteEntry.pathQuality := by
  have hsome := isSome_routeTo_congr h₁ h₂ hlocal (fun u v => by rw [hcells u v]) d
  cases hr₁ : r₁.routeTo d with
  | none =>
    rw [hr₁] at hsome
    have hr₂ : r₂.routeTo d = none := by
      apply Option.not_isSome_iff_eq_none.mp
      intro h
      cases hsome.mpr h
    rw [hr₂]
  | some e₁ =>
    rw [hr₁] at hsome
    obtain ⟨e₂, hr₂⟩ := Option.isSome_iff_exists.mp (hsome.mp rfl)
    have hbest₁ := h₁.greatest hr₁
    have hbest₂ := h₂.greatest hr₂
    rw [qualities_congr (fun u v w => link_congr (hcells u v).symm w), ← hlocal] at hbest₂
    rw [hr₂, Option.map_some, Option.map_some, hbest₁.unique hbest₂]

/-- The order of flooding does not matter for what is reached, nor for the qualities of the
routes if the advertisements agree. Deliveries return where no product is above its left
factor. -/
theorem flooding_order_irrelevant (r : MeshRouter Q) (ads ads' : List (LinkStateAdvertisement Q))
    (hfresh : r.Fresh ads) (hperm : ads.Perm ads') :
    ((∀ q w : Q, q * w ≤ q) →
      (∃ r₁, Returns (fun limit => r.run limit (deliveries ads)) r₁) ∧
      ∃ r₂, Returns (fun limit => r.run limit (deliveries ads')) r₂) ∧
    ∀ limit limit' r₁ r₂, r.run limit (deliveries ads) = some r₁ →
      r.run limit' (deliveries ads') = some r₂ →
      (∀ d, (r₁.routeTo d).isSome ↔ (r₂.routeTo d).isSome) ∧
      (r.Agree ads → ∀ d,
        (r₁.routeTo d).map RouteEntry.pathQuality =
          (r₂.routeTo d).map RouteEntry.pathQuality) := by
  refine ⟨fun hcontract => ⟨exists_returns_run hcontract r _, exists_returns_run hcontract r _⟩,
    ?_⟩
  intro limit limit' r₁ r₂ hrun₁ hrun₂
  have hreported : ∀ u v, (reported r.localId ads u v).Perm (reported r.localId ads' u v) :=
    fun u v => (hperm.filter _).map _
  obtain ⟨hlocal₁, hcells₁, hroutes₁⟩ := hfresh.run hrun₁
  obtain ⟨hlocal₂, hcells₂, hroutes₂⟩ := (hfresh.perm hperm).run hrun₂
  have hlocal : r₁.table.localId = r₂.table.localId := hlocal₁.trans hlocal₂.symm
  -- either all advertisements were the router's own, in both orders, or none was
  have hcases : r₁ = r₂ ∨ (r₁.table.Routed ∧ r₂.table.Routed) := by
    rcases hroutes₁ with ⟨hown, rfl⟩ | hrouted₁
    · rcases hroutes₂ with ⟨-, rfl⟩ | hrouted₂
      · exact .inl rfl
      · left
        have hown' : ∀ lsa ∈ ads', lsa.nodeId = r₁.localId :=
          fun lsa hlsa => hown lsa (hperm.mem_iff.mpr hlsa)
        exact (own_deliveries hown' hrun₂).symm
    · rcases hroutes₂ with ⟨hown, rfl⟩ | hrouted₂
      · left
        have hown' : ∀ lsa ∈ ads, lsa.nodeId = r₂.localId :=
          fun lsa hlsa => hown lsa (hperm.mem_iff.mp hlsa)
        exact own_deliveries hown' hrun₁
      · exact .inr ⟨hrouted₁, hrouted₂⟩
  rcases hcases with rfl | ⟨hrouted₁, hrouted₂⟩
  · exact ⟨fun _ => Iff.rfl, fun _ _ => rfl⟩
  · refine ⟨isSome_routeTo_congr hrouted₁ hrouted₂ hlocal fun u v => ?_, fun hagree => ?_⟩
    · rw [hcells₁, hcells₂, written_eq_nil_iff, written_eq_nil_iff]
      exact and_congr_right fun _ =>
        ⟨fun h q hq => h q ((hreported u v).mem_iff.mpr hq),
          fun h q hq => h q ((hreported u v).mem_iff.mp hq)⟩
    · refine pathQuality_routeTo_congr hrouted₁ hrouted₂ hlocal fun u v => ?_
      rw [hcells₁, hcells₂]
      exact written_perm v _ (hreported u v) (hfresh.reported_equal hagree u v)

end Confluence

/-- Nodes 2 and 3 give the link between them the same quality. -/
def agreeingAdvertisements : List (LinkStateAdvertisement UnitQuality) :=
  [⟨2, [⟨3, 1⟩], 1, 0⟩, ⟨3, [⟨2, 1⟩], 1, 0⟩]

theorem agreeingAdvertisements_fresh : (new 1).Fresh agreeingAdvertisements := by
  refine ⟨by decide, fun lsa _ last hlast => ?_⟩
  simp [new] at hlast

theorem agreeingAdvertisements_agree : (new 1).Agree agreeingAdvertisements := by
  have hone : ∀ lsa ∈ agreeingAdvertisements, ∀ v q, listed lsa.neighbors v = some q → 1 = q := by
    intro lsa hlsa v q hq
    rcases List.mem_pair.mp hlsa with rfl | rfl
    · exact (Option.ite_none_right_eq_some.mp hq).2 |> Option.some.inj
    · exact (Option.ite_none_right_eq_some.mp hq).2 |> Option.some.inj
  intro lsa hlsa lsa' hlsa' _ _ q q' hq hq'
  exact (hone lsa hlsa _ q hq).symm.trans (hone lsa' hlsa' _ q' hq')

theorem flooding_order_irrelevant_agreeing : ∃ limit limit' r₁ r₂,
    (new 1).run limit (deliveries agreeingAdvertisements) = some r₁ ∧
    (new 1).run limit' (deliveries agreeingAdvertisements.reverse) = some r₂ ∧
    (∀ d, (r₁.routeTo d).isSome ↔ (r₂.routeTo d).isSome) ∧
    ∀ d, (r₁.routeTo d).map RouteEntry.pathQuality =
      (r₂.routeTo d).map RouteEntry.pathQuality := by
  obtain ⟨hreturns, hsame⟩ := flooding_order_irrelevant (new 1) agreeingAdvertisements
    agreeingAdvertisements.reverse agreeingAdvertisements_fresh (List.reverse_perm _).symm
  obtain ⟨⟨r₁, n₁, hn₁⟩, ⟨r₂, n₂, hn₂⟩⟩ := hreturns UnitQuality.mul_le_self
  obtain ⟨hsome, hquality⟩ := hsame n₁ n₂ r₁ r₂ (hn₁ n₁ (le_refl _)) (hn₂ n₂ (le_refl _))
  exact ⟨n₁, n₂, r₁, r₂, hn₁ n₁ (le_refl _), hn₂ n₂ (le_refl _), hsome,
    hquality agreeingAdvertisements_agree⟩

/-- Node 2 gives the link to node 3 ninety percent, and node 3 gives it fifty. -/
def advertisementOfTwo : LinkStateAdvertisement Percent := ⟨2, [⟨3, .of 90⟩], 1, 0⟩

def advertisementOfThree : LinkStateAdvertisement Percent := ⟨3, [⟨2, .of 50⟩], 1, 0⟩

/-- Node 1 routes to node 3 with the quality that arrived last. -/
theorem not_orderIrrelevant : ¬ OrderIrrelevant Percent := by
  intro h
  have hruns : ((new 1).run 9 [.updateNeighbor 2 (.of 100)]).bind (fun r =>
      (r.run 9 (deliveries [advertisementOfTwo, advertisementOfThree])).bind fun r₁ =>
        (r.run 9 (deliveries [advertisementOfThree, advertisementOfTwo])).map fun r₂ =>
          ((r₁.routeTo 3).map RouteEntry.pathQuality, (r₂.routeTo 3).map RouteEntry.pathQuality,
            r.lastSequence.toList)) =
      some (some (Percent.of 50), some (Percent.of 90), []) := by decide +kernel
  obtain ⟨r, -, hrest⟩ := Option.bind_eq_some_iff.mp hruns
  obtain ⟨r₁, hrun₁, hrest⟩ := Option.bind_eq_some_iff.mp hrest
  obtain ⟨r₂, hrun₂, heq⟩ := Option.map_eq_some_iff.mp hrest
  obtain ⟨hquality₁, heq⟩ := Prod.mk.inj heq
  obtain ⟨hquality₂, hseen⟩ := Prod.mk.inj heq
  have hfresh : r.Fresh [advertisementOfTwo, advertisementOfThree] := by
    refine ⟨by decide, fun lsa _ last hlast => ?_⟩
    rw [Std.ExtTreeMap.toList_eq_nil_iff.mp hseen] at hlast
    simp at hlast
  have hsame := h r _ _ hfresh (List.Perm.swap _ _ _) 9 9 r₁ r₂ hrun₁ hrun₂ 3
  rw [hquality₁, hquality₂] at hsame
  exact absurd hsame (by decide)

end MeshRouter
end Cirradio.Network
