import Cirradio.FloodingOrder
import Cirradio.NextHops
import Mathlib.Tactic.NormNum

/-!
# Forwarding after a flood

Routers measure their own links, and then each gets the advertisements of all, in an order
of its own. Where two ends that both measured a link agree on it, all routers then have
the same links, and a packet that each router sends on to its next hop for the destination
comes there, on a way of the best quality.
-/

namespace Cirradio.Network
open BestWalks OrderedMaps WhileLoops

namespace MeshRouter
open RouteTable LinkStateAdvertisement
variable {Q : Type}

/-- The router's own links with a quality, in both directions. -/
def ownLink (r : MeshRouter Q) (a b : UInt32) : Option Q :=
  if a = r.localId then r.directNeighbors[b]?
  else if b = r.localId then r.directNeighbors[a]?
  else none

theorem mem_of_listed {links : List (UInt32 × Q)} {v : UInt32} {q : Q}
    (h : listed (links.map fun p => ⟨p.1, p.2⟩) v = some q) : (v, q) ∈ links := by
  induction links with
  | nil => cases h
  | cons p links ih =>
    rcases Option.or_eq_some_iff.mp h with hrest | ⟨-, hfirst⟩
    · exact List.mem_cons_of_mem p (ih hrest)
    · split at hfirst
      · next hid =>
        cases hfirst
        rw [← hid]
        exact List.mem_cons_self
      · cases hfirst

theorem listed_ne_none {links : List (UInt32 × Q)} {v : UInt32} {q : Q} (h : (v, q) ∈ links) :
    listed (links.map fun p => ⟨p.1, p.2⟩) v ≠ none := by
  induction links with
  | nil => cases h
  | cons p links ih =>
    intro hnone
    obtain ⟨hrest, hfirst⟩ := Option.or_eq_none_iff.mp hnone
    rcases List.mem_cons.mp h with rfl | hmem
    · simp at hfirst
    · exact ih hmem hrest

theorem listed_generateAdvertisement (now : ℕ) (r : MeshRouter Q) (v : UInt32) :
    listed (r.generateAdvertisement now).neighbors v = r.directNeighbors[v]? := by
  change listed (r.directNeighbors.toList.map fun p => ⟨p.1, p.2⟩) v = _
  cases hlisted : listed (r.directNeighbors.toList.map fun p => ⟨p.1, p.2⟩) v with
  | some q =>
    symm
    exact Std.ExtTreeMap.mem_toList_iff_getElem?_eq_some.mp (mem_of_listed hlisted)
  | none =>
    symm
    apply Option.eq_none_iff_forall_ne_some.mpr
    intro q hq
    exact listed_ne_none (Std.ExtTreeMap.mem_toList_iff_getElem?_eq_some.mpr hq) hlisted

theorem reports_generateAdvertisement (now : ℕ) (r : MeshRouter Q) (a b : UInt32) :
    (r.generateAdvertisement now).reports a b = r.ownLink a b := by
  unfold reports ownLink
  rw [listed_generateAdvertisement, listed_generateAdvertisement]
  rfl

end MeshRouter

/-- The call measures the router's links with other nodes. -/
def RouterCall.Measures {Q : Type} (localId : UInt32) : RouterCall Q → Prop
  | .processAdvertisement _ => False
  | .updateNeighbor _ _ => True
  | .removeNeighbor neighborId => neighborId ≠ localId

namespace MeshRouter
open RouteTable LinkStateAdvertisement
variable {Q : Type}

section Measuring
variable [Preorder Q] [One Q] [Mul Q]

/-- A router that heard no advertisement and has its own links in the table. -/
structure Measuring (r : MeshRouter Q) : Prop where
  current : r.Current
  unheard : r.lastSequence = ∅
  cells : ∀ a b, r.table.cell a b = overwrite b [] (r.ownLink a b)

theorem measuring_new (localId : UInt32) : (new localId : MeshRouter Q).Measuring := by
  refine ⟨current_new localId, rfl, fun a b => ?_⟩
  have hcell : (new localId : MeshRouter Q).table.cell a b = [] := by
    change ((RouteTable.new localId : RouteTable Q).linksOf a).filter _ = []
    rw [linksOf_new]
    rfl
  have hown : (new localId : MeshRouter Q).ownLink a b = none := by simp [ownLink, new]
  rw [hcell, hown]
  rfl

omit [Preorder Q] [One Q] [Mul Q] in
theorem ownLink_insert (r : MeshRouter Q) (n : UInt32) (q : Q) (a b : UInt32) :
    ({ r with directNeighbors := r.directNeighbors.insert n q } : MeshRouter Q).ownLink a b =
      if Joins r.localId n a b then some q else r.ownLink a b := by
  unfold ownLink Joins
  simp only [getElem?_insert_ite]
  by_cases ha : a = r.localId
  · by_cases hb : b = n
    · simp [ha, hb]
    · by_cases hself : r.localId = n ∧ b = r.localId
      · exact absurd (hself.2.trans hself.1) hb
      · simp [ha, hb, hself]
  · by_cases hb : b = r.localId
    · simp [ha, hb]
    · simp [ha, hb]

omit [Preorder Q] [One Q] [Mul Q] in
theorem ownLink_erase (r : MeshRouter Q) {n : UInt32} (hn : n ≠ r.localId) (a b : UInt32) :
    ({ r with directNeighbors := r.directNeighbors.erase n } : MeshRouter Q).ownLink a b =
      if a = n ∨ b = n then none else r.ownLink a b := by
  unfold ownLink
  simp only [getElem?_erase_ite]
  by_cases ha : a = r.localId
  · subst ha
    simp [hn.symm]
  · by_cases hb : b = r.localId
    · subst hb
      simp [ha, hn.symm]
    · simp [ha, hb]

variable [DecidableLT Q] [Zero Q]

theorem Measuring.call {limit : ℕ} {r r' : MeshRouter Q} {c : RouterCall Q} (h : r.Measuring)
    (hc : c.Measures r.localId) (hcall : r.call limit c = some r') : r'.Measuring := by
  have hcurrent := h.current.call hcall
  rcases call_cases hcall with ⟨-, rfl⟩ | ⟨m, table, heffect, hrecompute, rfl⟩
  · exact h
  · obtain ⟨-, hadj, -⟩ := routed_of_recompute hrecompute
    cases c with
    | processAdvertisement lsa => exact hc.elim
    | updateNeighbor n q =>
      cases heffect
      refine ⟨hcurrent, h.unheard, fun a b => ?_⟩
      change table.cell a b = overwrite b []
        (({ r with directNeighbors := r.directNeighbors.insert n q } : MeshRouter Q).ownLink a b)
      rw [cell_congr hadj, cell_updateLink, h.cells, ownLink_insert]
      split
      · cases r.ownLink a b with
        | none => rfl
        | some q' => exact setNeighbor_setNeighbor b q q' []
      · rfl
    | removeNeighbor n =>
      cases heffect
      refine ⟨hcurrent, h.unheard, fun a b => ?_⟩
      change table.cell a b = overwrite b []
        (({ r with directNeighbors := r.directNeighbors.erase n } : MeshRouter Q).ownLink a b)
      rw [cell_congr hadj, cell_removeNode, h.cells, ownLink_erase r hc]
      split <;> rfl

theorem measuring_run {limit : ℕ} {localId : UInt32} {calls : List (RouterCall Q)}
    {r : MeshRouter Q} (hcalls : ∀ c ∈ calls, c.Measures localId)
    (hrun : (new localId : MeshRouter Q).run limit calls = some r) :
    r.Measuring ∧ r.localId = localId := by
  refine run_induction (fun calls r => (∀ c ∈ calls, c.Measures localId) →
    r.Measuring ∧ r.localId = localId) ?_ ?_ hrun hcalls
  · exact fun _ => ⟨measuring_new localId, rfl⟩
  · intro calls r₁ c r₂ _ ih hcall hall
    obtain ⟨h₁, hid⟩ := ih fun c' hc' => hall c' (List.mem_append_left _ hc')
    have hc : c.Measures r₁.localId := by
      rw [hid]
      exact hall c (by simp)
    exact ⟨h₁.call hc hcall, (call_localId hcall).trans hid⟩

end Measuring

/-- A quality that an end of the link measured. -/
def Measured (ids : List UInt32) (before : UInt32 → MeshRouter Q) (a b : UInt32) (w : Q) : Prop :=
  (a ∈ ids ∧ (before a).directNeighbors[b]? = some w) ∨
    (b ∈ ids ∧ (before b).directNeighbors[a]? = some w)

theorem Measured.symm {ids : List UInt32} {before : UInt32 → MeshRouter Q} {a b : UInt32} {w : Q}
    (h : Measured ids before a b w) : Measured ids before b a w := Or.symm h

section Flood
variable [LT Q] [DecidableLT Q] [One Q] [Mul Q] [Zero Q]

/-- New routers that measured their links, and the same routers after each got the
advertisements of all, in some order. -/
structure Flooded (ids : List UInt32) (before after : UInt32 → MeshRouter Q) : Prop where
  nodup : ids.Nodup
  measured : ∀ u ∈ ids, ∃ limit calls, (∀ c ∈ calls, c.Measures u) ∧
    (new u).run limit calls = some (before u)
  delivered : ∀ u ∈ ids, ∃ limit ads, ∃ now : UInt32 → ℕ,
    ads.Perm (ids.map fun v => (before v).generateAdvertisement (now v)) ∧
      (before u).run limit (deliveries ads) = some (after u)

end Flood

section Links
variable [Preorder Q] [DecidableLT Q] [One Q] [Mul Q] [Zero Q]
  {ids : List UInt32} {before after : UInt32 → MeshRouter Q}

theorem Flooded.measuring (h : Flooded ids before after) {u : UInt32} (hu : u ∈ ids) :
    (before u).Measuring ∧ (before u).localId = u := by
  obtain ⟨limit, calls, hcalls, hrun⟩ := h.measured u hu
  exact measuring_run hcalls hrun

omit [Preorder Q] [DecidableLT Q] [One Q] [Mul Q] [Zero Q] in
/-- Of equal writes to an empty cell each one can be read. -/
theorem mem_written_nil {v : UInt32} {w : Q} {qualities : List (Option Q)}
    (hequal : ∀ q q', some q ∈ qualities → some q' ∈ qualities → q = q') :
    (v, w) ∈ written v [] qualities ↔ some w ∈ qualities := by
  rw [written_eq_overwrite]
  cases hlast : qualities.reduceOption.getLast? with
  | none =>
    rw [List.getLast?_eq_none_iff] at hlast
    rw [← List.reduceOption_mem_iff, hlast]
    simp [overwrite]
  | some q =>
    have hq := List.reduceOption_mem_iff.mp (List.mem_of_getLast? hlast)
    constructor
    · intro hmem
      obtain rfl : w = q := by simpa [overwrite, setNeighbor] using hmem
      exact hq
    · intro hw
      obtain rfl := hequal w q hw hq
      simp [overwrite, setNeighbor]

/-- After the flood every router has exactly the measured links. -/
theorem Flooded.link_iff (h : Flooded ids before after)
    (hagree : ∀ a b w w', Measured ids before a b w → Measured ids before a b w' → w = w')
    {u : UInt32} (hu : u ∈ ids) :
    (after u).Current ∧ (after u).localId = u ∧
      ∀ a b w, (after u).table.Link a b w ↔ Measured ids before a b w := by
  obtain ⟨hmeasuring, hid⟩ := h.measuring hu
  obtain ⟨limit, ads, now, hperm, hrun⟩ := h.delivered u hu
  have hads : ∀ lsa, lsa ∈ ads ↔ ∃ v ∈ ids, (before v).generateAdvertisement (now v) = lsa :=
    fun lsa => by rw [hperm.mem_iff, List.mem_map]
  have hfresh : (before u).Fresh ads := by
    refine ⟨?_, fun lsa _ last hlast => ?_⟩
    · have hids : (ids.map fun v => (before v).generateAdvertisement (now v)).map
          LinkStateAdvertisement.nodeId = ids := by
        rw [List.map_map]
        conv_rhs => rw [← List.map_id ids]
        exact List.map_congr_left fun v hv => (h.measuring hv).2
      rw [(hperm.map _).nodup_iff, hids]
      exact h.nodup
    · rw [hmeasuring.unheard] at hlast
      simp at hlast
  obtain ⟨hcurrent, hlocal⟩ := hmeasuring.current.run hrun
  refine ⟨hcurrent, hlocal.trans hid, fun a b w => ?_⟩
  -- the router's own link and the reported ones are measured, and all measured ones are there
  have hreports : ∀ q, some q ∈ (before u).ownLink a b :: reported (before u).localId ads a b ↔
      Measured ids before a b q := by
    intro q
    rw [List.mem_cons, hid]
    constructor
    · rintro (hown | hreported)
      · unfold ownLink at hown
        rw [hid] at hown
        split at hown
        · next ha =>
          subst ha
          exact .inl ⟨hu, hown.symm⟩
        · split at hown
          · next hb =>
            subst hb
            exact .inr ⟨hu, hown.symm⟩
          · cases hown
      · obtain ⟨lsa, hlsa, -, hends⟩ := mem_reported hreported
        obtain ⟨v, hv, rfl⟩ := (hads lsa).mp hlsa
        have hnode : ((before v).generateAdvertisement (now v)).nodeId = v := (h.measuring hv).2
        rw [hnode, listed_generateAdvertisement, listed_generateAdvertisement] at hends
        rcases hends with ⟨rfl, hlisted⟩ | ⟨rfl, hlisted⟩
        · exact .inl ⟨hv, hlisted⟩
        · exact .inr ⟨hv, hlisted⟩
    · intro hmeasured
      have hof : ∀ v ∈ ids, (before v).ownLink a b = some q →
          some q = (before u).ownLink a b ∨ some q ∈ reported u ads a b := by
        intro v hv hown
        by_cases hvu : v = u
        · subst hvu
          exact .inl hown.symm
        · refine .inr (List.mem_map.mpr ⟨_, List.mem_filter.mpr
            ⟨(hads _).mpr ⟨v, hv, rfl⟩, ?_⟩, ?_⟩)
          · change ((before v).localId != u) = true
            rw [(h.measuring hv).2]
            exact bne_iff_ne.mpr hvu
          · rw [reports_generateAdvertisement, hown]
      rcases hmeasured with ⟨ha, hq⟩ | ⟨hb, hq⟩
      · apply hof a ha
        rw [ownLink, (h.measuring ha).2, if_pos rfl, hq]
      · apply hof b hb
        rw [ownLink, (h.measuring hb).2]
        by_cases hab : a = b
        · subst hab
          rw [if_pos rfl, hq]
        · rw [if_neg hab, if_pos rfl, hq]
  obtain ⟨-, hcells, -⟩ := hfresh.run hrun
  have hwritten : (after u).table.cell a b =
      written b [] ((before u).ownLink a b :: reported (before u).localId ads a b) := by
    rw [hcells a b, hmeasuring.cells a b]
    rfl
  rw [← mem_cell, hwritten, mem_written_nil, hreports]
  intro q q' hq hq'
  exact hagree a b q q' ((hreports q).mp hq) ((hreports q').mp hq')

end Links

/-- The node a router sends a packet on to. -/
def nextHopOf (ids : List UInt32) (net : UInt32 → MeshRouter Q) (d v : UInt32) : Option UInt32 :=
  if v ∈ ids then ((net v).routeTo d).map RouteEntry.nextHop else none

/-- The nodes a packet comes to after the first, up to its destination; `none` when it is
dropped or still on its way. -/
def forward (ids : List UInt32) (net : UInt32 → MeshRouter Q) (d : UInt32) (limit : ℕ)
    (u : UInt32) : Option (List UInt32) :=
  follow (nextHopOf ids net d) d limit u

section Forwarding
variable [LinearOrder Q] [Monoid Q] [Zero Q] [MulLeftMono Q] [MulRightMono Q]
  {ids : List UInt32} {before after : UInt32 → MeshRouter Q}

/-- After the flood the routers keep the first hops of best walks along measured links. -/
theorem Flooded.bestHops (h : Flooded ids before after)
    (hagree : ∀ a b w w', Measured ids before a b w → Measured ids before a b w' → w = w')
    (hclosed : ∀ a b w, Measured ids before a b w → b ∈ ids) (hone : ∀ q : Q, q ≤ 1)
    (d : UInt32) :
    BestHops (Measured ids before) d fun v =>
      if v ∈ ids then ((after v).routeTo d).map fun e => (e.nextHop, e.pathQuality) else none := by
  have hcontract : ∀ q w : Q, q * w ≤ q := fun q w =>
    calc q * w ≤ q * 1 := mul_le_mul_right (hone w) q
      _ = q := mul_one q
  have hoptimal : ∀ v ∈ ids, Optimal (Measured ids before) v (after v).routeTo := by
    intro v hv
    obtain ⟨hcurrent, hid, hlinks⟩ := h.link_iff hagree hv
    have hrouter := hcurrent.routed.optimal hcontract
    rw [hcurrent.localId, hid] at hrouter
    have hlink : (after v).table.Link = Measured ids before := by
      funext a b w
      exact propext (hlinks a b w)
    rwa [hlink] at hrouter
  have hrouted : ∀ v n q, (if v ∈ ids then
      ((after v).routeTo d).map fun e => (e.nextHop, e.pathQuality) else none) = some (n, q) →
      v ∈ ids ∧ ∃ e, (after v).routeTo d = some e ∧ e.nextHop = n ∧ e.pathQuality = q := by
    intro v n q hhop
    split at hhop
    · next hv =>
      obtain ⟨e, he, heq⟩ := Option.map_eq_some_iff.mp hhop
      cases heq
      exact ⟨hv, e, he, rfl, rfl⟩
    · cases hhop
  refine ⟨fun v hvd => ?_, fun v n q hvd hhop => ?_, fun v n q hvd hhop => ?_⟩
  · by_cases hv : v ∈ ids
    · rw [if_pos hv, Option.isSome_map]
      exact (hoptimal v hv).isSome_iff d hvd.symm
    · simp only [if_neg hv, Option.isSome_none, Bool.false_eq_true, false_iff]
      rintro ⟨steps, hwalk⟩
      cases steps with
      | nil => exact hvd hwalk.eq_of_nil.symm
      | cons step steps => exact hv (hclosed _ _ _ hwalk.uncons.1.symm)
  · obtain ⟨hv, e, he, rfl, rfl⟩ := hrouted v n q hhop
    exact (hoptimal v hv).greatest d e he
  · obtain ⟨hv, e, he, rfl, rfl⟩ := hrouted v n q hhop
    obtain ⟨steps, hwalk, -, hhead, hquality⟩ := (hoptimal v hv).realised d e he
    cases steps with
    | nil => cases hhead
    | cons step steps =>
      obtain ⟨n, w⟩ := step
      obtain rfl : n = e.nextHop := Option.some.inj hhead
      exact ⟨w, steps, hwalk, hquality⟩

/-- Where every link makes a quality fall, a packet comes to every destination that links
lead to, on a way of the best quality that visits no node twice. -/
theorem Flooded.forward (h : Flooded ids before after)
    (hagree : ∀ a b w w', Measured ids before a b w → Measured ids before a b w' → w = w')
    (hclosed : ∀ a b w, Measured ids before a b w → b ∈ ids) (hone : ∀ q : Q, q ≤ 1)
    (hfalls : ∀ a b w, Measured ids before a b w →
      ∀ v d, ∀ q ∈ qualities (Measured ids before) v d, w * q < q)
    {u d : UInt32} (hd : u ≠ d) (hreach : Reaches (Measured ids before) u d) :
    ∃ steps, Walk (Measured ids before) u steps d ∧
      IsGreatest (qualities (Measured ids before) u d) (BestWalks.quality steps) ∧
      (u :: steps.map Prod.fst).Nodup ∧
      Returns (fun limit => MeshRouter.forward ids after d limit u) (steps.map Prod.fst) := by
  have hhops := h.bestHops hagree hclosed hone d
  obtain ⟨⟨n, q⟩, hhop⟩ := Option.isSome_iff_exists.mp ((hhops.isSome_iff u hd).mpr hreach)
  obtain ⟨steps, hwalk, hq, hnodup, hreturns⟩ :=
    hhops.follow hone (fun a b w hlink v => hfalls a b w hlink v d) hd hhop
  have hnext : (fun v => (if v ∈ ids then
      ((after v).routeTo d).map fun e => (e.nextHop, e.pathQuality) else none).map Prod.fst) =
      nextHopOf ids after d := by
    funext v
    unfold nextHopOf
    split
    · simp [Function.comp_def]
    · rfl
  rw [hnext] at hreturns
  exact ⟨steps, hwalk, hq ▸ hhops.greatest u n q hd hhop, hnodup, hreturns⟩

end Forwarding

end MeshRouter

namespace UnitQuality

instance : MulLeftMono UnitQuality where
  elim := by
    intro w q q' h
    have hle : (w : ℚ) * q ≤ w * q' := mul_le_mul_of_nonneg_left h w.2.1
    exact hle

theorem le_one (q : UnitQuality) : q ≤ 1 := q.2.2

theorem falls {V : Type} {Link : V → V → UnitQuality → Prop}
    (hopen : ∀ a b w, Link a b w → 0 < w ∧ w < 1) {a b v d : V} {w q : UnitQuality}
    (hlink : Link a b w) (hq : q ∈ qualities Link v d) : w * q < q := by
  obtain ⟨steps, hwalk, rfl⟩ := hq
  have hpos : (0 : ℚ) < (BestWalks.quality steps : UnitQuality) := by
    induction hwalk with
    | nil => exact one_pos
    | @concat steps u v w' _ hlink' ih =>
      rw [quality_concat]
      exact mul_pos ih (hopen _ _ w' hlink').1
  exact (mul_lt_iff_lt_one_left hpos).mpr (hopen a b w hlink).2

end UnitQuality

namespace MeshRouter

/-- Over links that lose something, any packet between routers of a flooded net arrives,
however the advertisements were ordered at each router: its way is a walk along measured
links of the best quality there is, and comes nowhere twice. -/
theorem flooded_forwarding (ids : List UInt32) (before after : UInt32 → MeshRouter UnitQuality)
    (h : Flooded ids before after)
    (hagree : ∀ a b w w', Measured ids before a b w → Measured ids before a b w' → w = w')
    (hclosed : ∀ a b w, Measured ids before a b w → b ∈ ids)
    (hopen : ∀ a b w, Measured ids before a b w → 0 < w ∧ w < 1)
    (u d : UInt32) (hu : u ∈ ids) (hd : u ≠ d) :
    ((after u).routeTo d = none ↔ ¬ Reaches (Measured ids before) u d) ∧
    (Reaches (Measured ids before) u d → ∃ steps, Walk (Measured ids before) u steps d ∧
      IsGreatest (qualities (Measured ids before) u d) (BestWalks.quality steps) ∧
      (u :: steps.map Prod.fst).Nodup ∧
      Returns (fun limit => forward ids after d limit u) (steps.map Prod.fst)) := by
  refine ⟨?_, fun hreach => h.forward hagree hclosed UnitQuality.le_one
    (fun a b w hlink v d q hq => UnitQuality.falls hopen hlink hq) hd hreach⟩
  have hsome := (h.bestHops hagree hclosed UnitQuality.le_one d).isSome_iff u hd
  simp only [if_pos hu, Option.isSome_map] at hsome
  rw [← hsome, ← Option.isNone_iff_eq_none]
  simp

/-- Every flood returns, whatever was measured and however the advertisements are
ordered. -/
theorem exists_flooded (ids : List UInt32) (hids : ids.Nodup)
    (calls : UInt32 → List (RouterCall UnitQuality))
    (hcalls : ∀ u ∈ ids, ∀ c ∈ calls u, c.Measures u)
    (order : UInt32 → List UInt32) (horder : ∀ u ∈ ids, (order u).Perm ids) :
    ∃ before after, Flooded ids before after ∧
      ∀ u, ∃ limit, (new u).run limit (calls u) = some (before u) := by
  choose before hbefore using fun u =>
    exists_returns_run UnitQuality.mul_le_self (new u) (calls u)
  choose after hafter using fun u =>
    exists_returns_run UnitQuality.mul_le_self (before u)
      (deliveries ((order u).map fun v => (before v).generateAdvertisement 0))
  have hruns : ∀ u, ∃ limit, (new u).run limit (calls u) = some (before u) := by
    intro u
    obtain ⟨n, hn⟩ := hbefore u
    exact ⟨n, hn n (le_refl n)⟩
  refine ⟨before, after, ⟨hids, fun u hu => ?_, fun u hu => ?_⟩, hruns⟩
  · obtain ⟨limit, hrun⟩ := hruns u
    exact ⟨limit, calls u, hcalls u hu, hrun⟩
  · obtain ⟨n, hn⟩ := hafter u
    exact ⟨n, _, fun _ => 0, (horder u hu).map _, hn n (le_refl n)⟩

/-- Node 2 measures a link of one half to node 1 and another to node 3. -/
def lineCalls (half : UnitQuality) (u : UInt32) : List (RouterCall UnitQuality) :=
  if u = 2 then [.updateNeighbor 1 half, .updateNeighbor 3 half] else []

theorem directNeighbors_lineCalls {half : UnitQuality} {limit : ℕ} {u : UInt32}
    {r : MeshRouter UnitQuality} (hrun : (new u).run limit (lineCalls half u) = some r) :
    r.directNeighbors =
      if u = 2 then ((∅ : Std.ExtTreeMap UInt32 UnitQuality).insert 1 half).insert 3 half
      else ∅ := by
  unfold lineCalls at hrun
  split at hrun
  · next hu =>
    obtain ⟨r₁, hfirst, hrest⟩ := Option.bind_eq_some_iff.mp hrun
    obtain ⟨r₂, hsecond, heq⟩ := Option.bind_eq_some_iff.mp hrest
    obtain ⟨table₁, -, heq₁⟩ := Option.bind_eq_some_iff.mp hfirst
    obtain ⟨table₂, -, heq₂⟩ := Option.bind_eq_some_iff.mp hsecond
    cases heq
    cases heq₁
    cases heq₂
    rw [if_pos hu]
    rfl
  · next hu =>
    cases hrun
    rw [if_neg hu]
    rfl

theorem flooded_forwarding_line : ∃ before after : UInt32 → MeshRouter UnitQuality,
    Flooded [1, 2, 3] before after ∧ ∃ steps, Walk (Measured [1, 2, 3] before) 1 steps 3 ∧
      Returns (fun limit => forward [1, 2, 3] after 3 limit 1) (steps.map Prod.fst) := by
  let half : UnitQuality := ⟨1 / 2, by norm_num⟩
  obtain ⟨before, after, hflooded, hruns⟩ := exists_flooded [1, 2, 3] (by decide)
    (lineCalls half) (fun u _ c hc => by
      unfold lineCalls at hc
      split at hc
      · rcases List.mem_pair.mp hc with rfl | rfl <;> trivial
      · cases hc) (fun _ => [3, 1, 2]) (fun _ _ => by decide)
  have hdirect : ∀ (u v : UInt32) (w : UnitQuality), (before u).directNeighbors[v]? = some w ↔
      u = 2 ∧ (v = 1 ∨ v = 3) ∧ w = half := by
    intro u v w
    obtain ⟨limit, hrun⟩ := hruns u
    rw [directNeighbors_lineCalls hrun]
    by_cases hu : u = 2
    · simp only [hu, if_true, getElem?_insert_ite, Std.ExtTreeMap.getElem?_empty]
      by_cases h3 : v = 3
      · simp [h3, eq_comm]
      · by_cases h1 : v = 1
        · simp [h1, eq_comm]
        · simp [h3, h1]
    · simp [hu]
  have hmeasured : ∀ a b w, Measured [1, 2, 3] before a b w →
      w = half ∧ b ∈ [(1 : UInt32), 2, 3] := by
    rintro a b w (⟨-, h⟩ | ⟨hb, h⟩)
    · obtain ⟨-, hb, hw⟩ := (hdirect a b w).mp h
      refine ⟨hw, ?_⟩
      rcases hb with rfl | rfl <;> decide
    · obtain ⟨-, -, hw⟩ := (hdirect b a w).mp h
      exact ⟨hw, hb⟩
  have hhalf : (0 : UnitQuality) < half ∧ half < 1 := by
    have hq : (0 : ℚ) < 1 / 2 ∧ (1 / 2 : ℚ) < 1 := by norm_num
    exact hq
  have hline : Walk (Measured [1, 2, 3] before) 1 [(2, half), (3, half)] 3 :=
    (Walk.nil.concat (.inr ⟨by decide, (hdirect 2 1 half).mpr ⟨rfl, .inl rfl, rfl⟩⟩)).concat
      (.inl ⟨by decide, (hdirect 2 3 half).mpr ⟨rfl, .inr rfl, rfl⟩⟩)
  obtain ⟨-, hforward⟩ := flooded_forwarding [1, 2, 3] before after hflooded
    (fun a b w w' h h' => (hmeasured a b w h).1.trans (hmeasured a b w' h').1.symm)
    (fun a b w h => (hmeasured a b w h).2)
    (fun a b w h => by rw [(hmeasured a b w h).1]; exact hhalf) 1 3 (by decide) (by decide)
  obtain ⟨steps, hwalk, -, -, hreturns⟩ := hforward ⟨_, hline⟩
  exact ⟨before, after, hflooded, steps, hwalk, hreturns⟩

end MeshRouter
end Cirradio.Network
