import Cirradio.RouteRecompute
import Mathlib.Algebra.Order.Interval.Set.Instances
import Mathlib.Algebra.Order.Ring.Rat
import Mathlib.Algebra.Order.Ring.Star
import Mathlib.Data.Rat.Star

/-!
# Best routes

Over a linear order of qualities with a monotone product, the finished search has the
greatest quality of a walk to each node that links lead to. When no product is above its
left factor, the trace of a destination is such a walk.
-/

namespace Cirradio.Network
open BestWalks OrderedMaps WhileLoops

/-- There are routes exactly to the other nodes that links lead to; each has the greatest
quality of a walk there, and its entry is that of such a walk. -/
structure Optimal {Q : Type} [LE Q] [One Q] [Mul Q] (Link : UInt32 → UInt32 → Q → Prop)
    (localId : UInt32) (routeTo : UInt32 → Option (RouteEntry Q)) : Prop where
  local_absent : routeTo localId = none
  isSome_iff : ∀ d, d ≠ localId → ((routeTo d).isSome ↔ Reaches Link localId d)
  greatest : ∀ d e, routeTo d = some e → IsGreatest (qualities Link localId d) e.pathQuality
  realised : ∀ d e, routeTo d = some e → ∃ steps, Walk Link localId steps d ∧
    steps.length = e.hopCount.toNat ∧ steps.head?.map Prod.fst = some e.nextHop ∧
    BestWalks.quality steps = e.pathQuality

namespace RouteTable
variable {Q : Type} [LinearOrder Q] [One Q] [Mul Q] {t : RouteTable Q}
  {quality : Std.ExtTreeMap UInt32 Q} {predecessor : Std.ExtTreeMap UInt32 UInt32}

theorem Explores.settles (h : t.Explores quality predecessor []) :
    Settles t.Link t.localId fun v => quality[v]? := by
  refine ⟨h.start, ?_, h.attained⟩
  intro u v q w hq hlink
  rcases h.relaxed u q hq with hmem | hrelaxed
  · cases hmem
  · obtain ⟨q', hq', hle⟩ := hrelaxed v w hlink
    exact ⟨q', hq', not_lt.mp hle⟩

theorem Routed.local_absent (h : t.Routed) : t.nextHop t.localId = none := by
  obtain ⟨quality, predecessor, -, hroutes⟩ := h
  apply Option.eq_none_iff_forall_ne_some.mpr
  intro e he
  exact (hroutes.entry t.localId e he).ne_local rfl

theorem Routed.isSome_iff (h : t.Routed) {d : UInt32} (hd : d ≠ t.localId) :
    (t.nextHop d).isSome ↔ Reaches t.Link t.localId d := by
  obtain ⟨quality, predecessor, hexplores, hroutes⟩ := h
  refine Iff.trans ?_ (hexplores.settles.isSome_iff d)
  constructor
  · intro hroute
    obtain ⟨e, he⟩ := Option.isSome_iff_exists.mp hroute
    exact Option.isSome_iff_exists.mpr ⟨_, (hroutes.entry d e he).pathQuality⟩
  · intro hquality
    obtain ⟨q, hq⟩ := Option.isSome_iff_exists.mp hquality
    exact Option.isSome_iff_exists.mpr (hroutes.found d q hq hd)

variable [MulRightMono Q]

theorem Explores.realised (h : t.Explores quality predecessor []) {v u : UInt32} {q : Q}
    (hu : predecessor[v]? = some u) (hq : quality[v]? = some q) :
    ∃ w qu, t.Link u v w ∧ quality[u]? = some qu ∧ q = qu * w := by
  obtain ⟨w, hlink, q₀, -, hq₀, qu, hqu, hle⟩ := h.linked v u hu
  obtain ⟨q', hq', hge⟩ := h.settles.closed u v qu w hqu hlink
  refine ⟨w, qu, hlink, hqu, le_antisymm ?_ ?_⟩
  · rw [Option.some.inj (hq.symm.trans hq₀)]
    exact mul_le_mul_left hle w
  · rwa [Option.some.inj (hq.symm.trans hq')]

/-- A trace is a walk with as many links, with the last node before the root as its
first. -/
theorem Explores.exists_walk (h : t.Explores quality predecessor [])
    (hlocal : quality[t.localId]? = some 1) {v c : UInt32} {n : ℕ}
    (htrace : Trace predecessor t.localId v c n) {q : Q} (hq : quality[v]? = some q) :
    ∃ steps, Walk t.Link t.localId steps v ∧ steps.length = n + 1 ∧
      steps.head?.map Prod.fst = some c ∧ BestWalks.quality steps = q := by
  induction htrace generalizing q with
  | @last v hv =>
    obtain ⟨w, qu, hlink, hqu, rfl⟩ := h.realised hv hq
    cases hlocal.symm.trans hqu
    exact ⟨[(v, w)], Walk.nil.concat hlink, rfl, rfl, rfl⟩
  | @step v u c n hv _ _ ih =>
    obtain ⟨w, qu, hlink, hqu, rfl⟩ := h.realised hv hq
    obtain ⟨steps, hwalk, hlen, hhead, rfl⟩ := ih hqu
    refine ⟨_, hwalk.concat hlink, ?_, ?_, quality_concat steps v w⟩
    · simp [hlen]
    · rw [List.head?_append, Option.map_or, hhead]
      rfl

theorem Explores.quality_local (h : t.Explores quality predecessor [])
    (hcontract : ∀ q w : Q, q * w ≤ q) : quality[t.localId]? = some 1 := by
  obtain ⟨q, hq, hone⟩ := h.start
  obtain ⟨steps, -, rfl⟩ := h.attained _ q hq
  rw [hq, quality_eq_foldl]
  rw [quality_eq_foldl] at hone
  exact congrArg some (le_antisymm (foldl_mul_le_self hcontract _ 1) hone)

theorem Routed.greatest (h : t.Routed) {d : UInt32} {e : RouteEntry Q}
    (he : t.nextHop d = some e) : IsGreatest (qualities t.Link t.localId d) e.pathQuality := by
  obtain ⟨quality, predecessor, hexplores, hroutes⟩ := h
  exact hexplores.settles.isGreatest (hroutes.entry d e he).pathQuality

theorem Routed.optimal (h : t.Routed) (hcontract : ∀ q w : Q, q * w ≤ q) :
    Optimal t.Link t.localId t.nextHop := by
  refine ⟨h.local_absent, fun d hd => h.isSome_iff hd, fun d e he => h.greatest he, ?_⟩
  · intro d e he
    obtain ⟨quality, predecessor, hexplores, hroutes⟩ := h
    have hentry := hroutes.entry d e he
    obtain ⟨n, htrace, hhops⟩ := hentry.trace
    obtain ⟨steps, hwalk, hlen, hhead, hquality⟩ :=
      hexplores.exists_walk (hexplores.quality_local hcontract) htrace hentry.pathQuality
    refine ⟨steps, hwalk, ?_, hhead, hquality⟩
    rw [hlen, hhops]
    exact (UInt32.toNat_ofNat_of_lt' (htrace.length_lt hentry.ne_local)).symm

end RouteTable

/-- The documented range of a link quality. -/
abbrev UnitQuality : Type := Set.Icc (0 : ℚ) 1

namespace UnitQuality

instance : MulRightMono UnitQuality where
  elim := by
    intro w q q' h
    have hle : (q : ℚ) * w ≤ q' * w := mul_le_mul_of_nonneg_right h w.2.1
    exact hle

theorem mul_le_self (q w : UnitQuality) : q * w ≤ q := by
  have hle : (q : ℚ) * w ≤ q := mul_le_of_le_one_right q.2.1 w.2.2
  exact hle

end UnitQuality

end Cirradio.Network
