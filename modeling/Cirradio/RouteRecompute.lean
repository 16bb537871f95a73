import Cirradio.RouteTrace

/-!
# What recompute leaves

Whenever `recompute` returns, the routes are those of a finished search, each with the
trace of its destination. It returns when links between other nodes do not raise a
quality and qualities cannot rise for ever, or when no link raises a quality at all.
-/

namespace Cirradio.Network
open BestWalks OrderedMaps WhileLoops

namespace RouteTable
variable {Q : Type}

/-- The entry of a node found, with its trace. -/
structure Describes (localId : UInt32) (quality : Std.ExtTreeMap UInt32 Q)
    (predecessor : Std.ExtTreeMap UInt32 UInt32) (d : UInt32) (e : RouteEntry Q) : Prop where
  ne_local : d ≠ localId
  destination : e.destination = d
  pathQuality : quality[d]? = some e.pathQuality
  trace : ∃ n, Trace predecessor localId d e.nextHop n ∧ e.hopCount = UInt32.ofNat (n + 1)

/-- The entries are those of the nodes found. -/
structure RoutesOf (localId : UInt32) (quality : Std.ExtTreeMap UInt32 Q)
    (predecessor : Std.ExtTreeMap UInt32 UInt32)
    (routes : Std.ExtTreeMap UInt32 (RouteEntry Q)) : Prop where
  entry : ∀ (d : UInt32) (e : RouteEntry Q), routes[d]? = some e →
    Describes localId quality predecessor d e
  found : ∀ (d : UInt32) (q : Q), quality[d]? = some q → d ≠ localId → ∃ e, routes[d]? = some e

section Routes
variable [Preorder Q] [One Q] [Mul Q] {t : RouteTable Q}
  {quality : Std.ExtTreeMap UInt32 Q} {predecessor : Std.ExtTreeMap UInt32 UInt32}
  {queue : List (Q × UInt32)}

/-- Where the loop ends, there is a trace. -/
theorem Explores.trace_of_loop (h : t.Explores quality predecessor queue) {limit : ℕ}
    {v c : UInt32} {hops hops' : UInt32} {q : Q} (hq : quality[v]? = some q)
    (hv : v ≠ t.localId)
    (hloop : loop (fun s => some (t.traceTurn predecessor s)) limit (v, hops) =
      some (c, hops')) :
    ∃ n, Trace predecessor t.localId v c n ∧ hops' = hops + UInt32.ofNat n := by
  induction limit generalizing v hops q with
  | zero => cases hloop
  | succ limit ih =>
    obtain ⟨u, hu⟩ := h.preceded v q hq hv
    by_cases hlocal : u = t.localId
    · subst hlocal
      simp only [loop, traceTurn, hu, if_true, Option.some.injEq, Prod.mk.injEq] at hloop
      obtain ⟨rfl, rfl⟩ := hloop
      exact ⟨0, .last hu, by simp⟩
    · obtain ⟨_, -, _, -, -, qu, hqu, -⟩ := h.linked v u hu
      simp only [loop, traceTurn, hu, if_neg hlocal] at hloop
      obtain ⟨n, htrace, hhops⟩ := ih hqu hlocal hloop
      refine ⟨n + 1, .step hu hlocal htrace, ?_⟩
      rw [hhops, UInt32.ofNat_add, UInt32.add_assoc, UInt32.add_comm (UInt32.ofNat n)]
      rfl

theorem Explores.routes_of_foldlM (h : t.Explores quality predecessor queue) {limit : ℕ}
    {found : List (UInt32 × Q)} (hfound : ∀ p ∈ found, quality[p.1]? = some p.2)
    {routes routes' : Std.ExtTreeMap UInt32 (RouteEntry Q)}
    (hentry : ∀ (d : UInt32) (e : RouteEntry Q), routes[d]? = some e →
      Describes t.localId quality predecessor d e)
    (hfold : found.foldlM (t.addRoute predecessor limit) routes = some routes') :
    (∀ (d : UInt32) (e : RouteEntry Q), routes'[d]? = some e →
      Describes t.localId quality predecessor d e) ∧
    ∀ d : UInt32, d ≠ t.localId → ((∃ e, routes[d]? = some e) ∨ ∃ q, (d, q) ∈ found) →
      ∃ e, routes'[d]? = some e := by
  induction found generalizing routes with
  | nil =>
    cases hfold
    refine ⟨hentry, fun d _ hd => ?_⟩
    rcases hd with hd | ⟨q, hd⟩
    · exact hd
    · cases hd
  | cons p found ih =>
    obtain ⟨routes₁, hadd, hrest⟩ := Option.bind_eq_some_iff.mp hfold
    have hp := hfound p List.mem_cons_self
    -- one destination
    have hfirst : (∀ (d : UInt32) (e : RouteEntry Q), routes₁[d]? = some e →
        Describes t.localId quality predecessor d e) ∧
        ∀ d : UInt32, d ≠ t.localId → ((∃ e, routes[d]? = some e) ∨ d = p.1) →
          ∃ e, routes₁[d]? = some e := by
      unfold addRoute at hadd
      split at hadd
      · next hlocal =>
        cases hadd
        refine ⟨hentry, fun d hd hor => hor.resolve_right fun heq => hd (heq.trans hlocal)⟩
      · next hlocal =>
        obtain ⟨⟨c, hops⟩, hloop, hinsert⟩ := Option.bind_eq_some_iff.mp hadd
        cases hinsert
        obtain ⟨n, htrace, hhops⟩ := h.trace_of_loop hp hlocal hloop
        refine ⟨?_, ?_⟩
        · intro d e he
          rw [getElem?_insert_ite] at he
          split at he
          · next hd =>
            subst hd
            cases he
            refine ⟨hlocal, rfl, hp, n, htrace, ?_⟩
            rw [UInt32.ofNat_add, hhops, UInt32.zero_add]
            rfl
          · exact hentry d e he
        · intro d _ hor
          rw [getElem?_insert_ite]
          split
          · exact ⟨_, rfl⟩
          · next hd => exact hor.resolve_right hd
    obtain ⟨hentry', hkept⟩ := ih (fun p' hp' => hfound p' (List.mem_cons_of_mem p hp'))
      hfirst.1 hrest
    refine ⟨hentry', fun d hd hor => hkept d hd ?_⟩
    rcases hor with hold | ⟨q, hq⟩
    · exact .inl (hfirst.2 d hd (.inl hold))
    · rcases List.mem_cons.mp hq with heq | hq
      · exact .inl (hfirst.2 d hd (.inr (congrArg Prod.fst heq)))
      · exact .inr ⟨q, hq⟩

/-- The routes are those of a finished search. -/
def Routed (t : RouteTable Q) : Prop :=
  ∃ quality predecessor, t.Explores quality predecessor [] ∧
    RoutesOf t.localId quality predecessor t.routes

theorem Explores.congr (h : t.Explores quality predecessor queue) {t' : RouteTable Q}
    (hlocal : t'.localId = t.localId) (hadj : t'.adjacency = t.adjacency) :
    t'.Explores quality predecessor queue := by
  obtain ⟨localId, adjacency, routes⟩ := t
  obtain ⟨localId', adjacency', routes'⟩ := t'
  cases hlocal
  cases hadj
  exact ⟨h.start, h.attained, h.queued, h.relaxed, h.preceded, h.linked⟩

variable [DecidableLT Q] [Zero Q]

/-- What `recompute` returns comes from the end of its search. -/
theorem recompute_eq_some {limit : ℕ} {t' : RouteTable Q} (h : t.recompute limit = some t') :
    ∃ s, loop (fun s => some (t.relaxTurn s)) limit t.startSearch = some s ∧
      t.Explores s.quality s.predecessor [] ∧
      RoutesOf t.localId s.quality s.predecessor t'.routes ∧
      t'.localId = t.localId ∧ t'.adjacency = t.adjacency := by
  obtain ⟨s, hloop, hrest⟩ := Option.bind_eq_some_iff.mp h
  obtain ⟨routes, hroutes, heq⟩ := Option.bind_eq_some_iff.mp hrest
  cases heq
  obtain ⟨s', hexplores, hend⟩ := loop_eq_some
    (fun s => t.Explores s.quality s.predecessor s.pq)
    (fun s s' hs hturn => hs.turn (Option.some.inj hturn)) (explores_start t) hloop
  obtain ⟨hpq, rfl⟩ := relaxTurn_eq_inr (Option.some.inj hend)
  rw [hpq] at hexplores
  obtain ⟨hentry, hfound⟩ := hexplores.routes_of_foldlM
    (fun p hp => Std.ExtTreeMap.mem_toList_iff_getElem?_eq_some.mp hp)
    (fun d e he => by simp at he) hroutes
  refine ⟨s', hloop, hexplores, ⟨hentry, ?_⟩, rfl, rfl⟩
  intro d q hq hd
  exact hfound d hd (.inr ⟨q, Std.ExtTreeMap.mem_toList_iff_getElem?_eq_some.mpr hq⟩)

theorem routed_of_recompute {limit : ℕ} {t' : RouteTable Q}
    (h : t.recompute limit = some t') :
    t'.localId = t.localId ∧ t'.adjacency = t.adjacency ∧ t'.Routed := by
  obtain ⟨s, -, hexplores, hroutes, hlocal, hadj⟩ := recompute_eq_some h
  refine ⟨hlocal, hadj, s.quality, s.predecessor, hexplores.congr hlocal hadj, ?_⟩
  rwa [hlocal]

end Routes

theorem finite_linkQualities (t : RouteTable Q) : {w : Q | ∃ u v, t.Link u v w}.Finite := by
  have hcover : {w : Q | ∃ u v, t.Link u v w} ⊆
      ⋃ u : UInt32, {w | w ∈ (t.linksOf u).map Prod.snd} := by
    rintro w ⟨u, v, hlink⟩
    exact Set.mem_iUnion.mpr ⟨u, List.mem_map.mpr ⟨(v, w), hlink, rfl⟩⟩
  exact (Set.finite_iUnion fun u => List.finite_toSet _).subset hcover

theorem walk_qualities {t : RouteTable Q} {steps : List (UInt32 × Q)} {v : UInt32}
    (h : Walk t.Link t.localId steps v) : ∀ step ∈ steps, ∃ u v, t.Link u v step.2 := by
  induction h with
  | nil =>
    intro step hstep
    cases hstep
  | @concat steps u v w _ hlink ih =>
    intro step hstep
    rcases List.mem_append.mp hstep with hstep | hstep
    · exact ih step hstep
    · rw [List.mem_singleton.mp hstep]
      exact ⟨u, v, hlink⟩

section Ending
variable [Preorder Q] [DecidableLT Q] [One Q] [Mul Q] [Zero Q] {t : RouteTable Q}

theorem exists_returns_recompute_of {s : Search Q}
    (hsearch : Returns (fun limit => loop (fun s => some (t.relaxTurn s)) limit t.startSearch) s)
    (htraced : t.Traced s.quality s.predecessor) :
    ∃ t', Returns (fun limit => t.recompute limit) t' := by
  obtain ⟨routes, hroutes⟩ := exists_returns_routes (t := t) (s := s) fun found hfound hlocal => by
    obtain ⟨c, n, htrace⟩ := htraced found.1 found.2
      (Std.ExtTreeMap.mem_toList_iff_getElem?_eq_some.mp hfound) hlocal
    exact ⟨_, htrace.ends 0⟩
  exact ⟨{ t with routes }, hsearch.bind (hroutes.bind (.pure _))⟩

theorem Damped.exists_returns_search (h : t.Damped) {S : Set Q}
    (hS : S.WellFoundedOn (· > ·))
    (hvalues : ∀ v, qualities t.Link t.localId v ⊆ S) :
    ∃ t', Returns (fun limit => t.recompute limit) t' := by
  obtain ⟨s, ⟨-, htraced⟩, -, hsearch⟩ := exists_returns_search_of t hS
    (fun s => t.Explores s.quality s.predecessor s.pq ∧ t.Traced s.quality s.predecessor)
    (fun s hs v q hq => hvalues v (hs.1.attained v q hq))
    (fun s s' hs hturn => ⟨hs.1.turn hturn, hs.2.turn h hs.1 hturn⟩)
    ⟨explores_start t, traced_start t⟩
  exact exists_returns_recompute_of hsearch htraced

/-- Where qualities cannot rise for ever, `recompute` returns if only links at the local
node raise a quality. -/
theorem Damped.exists_returns_recompute [WellFoundedGT Q] (h : t.Damped) :
    ∃ t', Returns (fun limit => t.recompute limit) t' :=
  h.exists_returns_search (Set.wellFoundedOn_univ.mpr wellFounded_gt)
    fun _ => Set.subset_univ _

theorem exists_returns_recompute_of_contracting [MulRightMono Q]
    (hcontract : ∀ q w : Q, q * w ≤ q) (t : RouteTable Q) :
    ∃ t', Returns (fun limit => t.recompute limit) t' := by
  have hdamped : t.Damped := fun _ _ q _ _ w _ _ _ => hcontract q w
  refine hdamped.exists_returns_search
    (wellFoundedOn_quality (V := UInt32) hcontract t.finite_linkQualities) ?_
  rintro v q ⟨steps, hwalk, rfl⟩
  exact ⟨steps, walk_qualities hwalk, rfl⟩

end Ending

end RouteTable
end Cirradio.Network
