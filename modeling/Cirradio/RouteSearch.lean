import Cirradio.RouteTable
import Mathlib.Order.WellFoundedSet

/-!
# The search for routes ends

Each link taken raises the quality of a node, so where qualities cannot rise for ever the
search ends. When no link of a neighbour leads away from the local node, every
predecessor is the local node and the trace ends at once.
-/

namespace Cirradio.Network
open OrderedMaps WhileLoops

/-- The node gets a better quality, through a link of `u`. -/
def Search.improve {Q : Type} (s : Search Q) (v : UInt32) (q : Q) (u : UInt32) : Search Q where
  quality := s.quality.insert v q
  predecessor := s.predecessor.insert v u
  pq := (q, v) :: s.pq

namespace RouteTable
variable {Q : Type}

/-- No link of a neighbour leads away from the local node. -/
def Near (t : RouteTable Q) : Prop :=
  ∀ p ∈ t.linksOf t.localId, p.1 ≠ t.localId → ∀ p' ∈ t.linksOf p.1, p'.1 = t.localId

/-- The local node or a neighbour. -/
def Close (t : RouteTable Q) (v : UInt32) : Prop :=
  v = t.localId ∨ ∃ p ∈ t.linksOf t.localId, p.1 = v

/-- The search stays close, and only the local node leads on. -/
structure SearchesNear (t : RouteTable Q) (s : Search Q) : Prop where
  queue : ∀ e ∈ s.pq, t.Close e.2
  predecessor : ∀ v p, s.predecessor[v]? = some p → v ≠ t.localId → p = t.localId

theorem startSearch_near [One Q] (t : RouteTable Q) : t.SearchesNear t.startSearch := by
  refine ⟨?_, ?_⟩
  · intro e he
    rw [List.mem_singleton.mp he]
    exact .inl rfl
  · intro v p hp
    rw [startSearch, Std.ExtTreeMap.getElem?_empty] at hp
    cases hp

theorem SearchesNear.trace {t : RouteTable Q} {s : Search Q} (h : t.SearchesNear s)
    {v : UInt32} (hv : v ≠ t.localId) (hops : UInt32) :
    t.traceTurn s.predecessor (v, hops) = .inr (v, hops) := by
  unfold traceTurn
  cases hp : s.predecessor[v]? with
  | none => rfl
  | some p => simp only [h.predecessor v p hp hv, if_true]

section Turn
variable [LT Q] [DecidableLT Q]

theorem takeTop_perm (e : Q × UInt32) (es : List (Q × UInt32)) :
    ((takeTop e es).1 :: (takeTop e es).2).Perm (e :: es) := by
  induction es generalizing e with
  | nil => exact .refl _
  | cons e' es ih =>
    have hrest := ih e'
    simp only [takeTop]
    split
    · exact (List.Perm.swap _ _ _).trans (hrest.cons e)
    · exact hrest.cons e

theorem takeTop_length (e : Q × UInt32) (es : List (Q × UInt32)) :
    (takeTop e es).2.length = es.length := by
  have hlen := (takeTop_perm e es).length_eq
  simp only [List.length_cons] at hlen
  omega

theorem mem_of_takeTop (e : Q × UInt32) (es : List (Q × UInt32)) :
    ∀ p, p = (takeTop e es).1 ∨ p ∈ (takeTop e es).2 → p ∈ e :: es := by
  intro p hp
  exact (takeTop_perm e es).subset (List.mem_cons.mpr hp)

variable [Mul Q]

/-- A link that is no better leaves the search alone; another one is taken. -/
theorem relaxLink_cases (q : Q) (u : UInt32) (s : Search Q) (link : UInt32 × Q) :
    (relaxLink q u s link = s ∧ ∃ old, s.quality[link.1]? = some old ∧ ¬ old < q * link.2) ∨
      (relaxLink q u s link = s.improve link.1 (q * link.2) u ∧
        ∀ old, s.quality[link.1]? = some old → old < q * link.2) := by
  unfold relaxLink
  cases hold : s.quality[link.1]? with
  | none =>
    refine .inr ⟨rfl, ?_⟩
    intro old h
    cases h
  | some old =>
    by_cases hbetter : old < q * link.2
    · refine .inr ⟨?_, ?_⟩
      · simp only [hbetter, decide_true, if_true]
        rfl
      · rintro old' ⟨⟩
        exact hbetter
    · refine .inl ⟨?_, old, rfl, hbetter⟩
      simp only [hbetter, decide_false, Bool.false_eq_true, if_false]

theorem SearchesNear.relaxLink {t : RouteTable Q} (hnear : t.Near) {s : Search Q}
    (h : t.SearchesNear s) {q : Q} {u : UInt32} (hu : t.Close u) {link : UInt32 × Q}
    (hlink : link ∈ t.linksOf u) : t.SearchesNear (RouteTable.relaxLink q u s link) := by
  -- the link leads from or to the local node
  have hends : u = t.localId ∨ link.1 = t.localId := by
    rcases hu with rfl | ⟨p, hp, rfl⟩
    · exact .inl rfl
    · by_cases hlocal : p.1 = t.localId
      · exact .inl hlocal
      · exact .inr (hnear p hp hlocal link hlink)
  have hclose : t.Close link.1 := by
    rcases hends with rfl | hlocal
    · exact .inr ⟨link, hlink, rfl⟩
    · exact .inl hlocal
  rcases relaxLink_cases q u s link with ⟨hsame, -⟩ | ⟨hset, -⟩
  · rwa [hsame]
  · rw [hset]
    refine ⟨?_, ?_⟩
    · intro e he
      rcases List.mem_cons.mp he with rfl | he
      · exact hclose
      · exact h.queue e he
    · intro v p hp hv
      change (s.predecessor.insert link.1 u)[v]? = some p at hp
      rw [getElem?_insert_ite] at hp
      split at hp
      · next hvl =>
        rw [← Option.some.inj hp]
        rcases hends with hlocal | hlocal
        · exact hlocal
        · exact absurd (hvl.trans hlocal) hv
      · exact h.predecessor v p hp hv

theorem SearchesNear.foldl {t : RouteTable Q} (hnear : t.Near) {q : Q} {u : UInt32}
    (hu : t.Close u) {links : List (UInt32 × Q)} (hlinks : ∀ link ∈ links, link ∈ t.linksOf u)
    {s : Search Q} (h : t.SearchesNear s) :
    t.SearchesNear (links.foldl (RouteTable.relaxLink q u) s) := by
  induction links generalizing s with
  | nil => exact h
  | cons link links ih =>
    rw [List.foldl_cons]
    apply ih (fun l hl => hlinks l (List.mem_cons_of_mem link hl))
    exact h.relaxLink hnear hu (hlinks link List.mem_cons_self)

variable [Zero Q]

/-- What a turn can do: it takes an entry from the queue, and then either leaves the rest
alone or takes the links of the entry's node. -/
theorem relaxTurn_cases {t : RouteTable Q} {s s' : Search Q} (h : t.relaxTurn s = .inl s') :
    ∃ e es, s.pq = e :: es ∧
      ∃ s₁ : Search Q, s₁ = { s with
          quality := (qualityAt s.quality (takeTop e es).1.2).2
          pq := (takeTop e es).2 } ∧
        (s' = s₁ ∨ s' = (t.linksOf (takeTop e es).1.2).foldl
          (relaxLink (takeTop e es).1.1 (takeTop e es).1.2) s₁) := by
  unfold relaxTurn at h
  split at h
  · cases h
  · next e es hpq =>
    refine ⟨e, es, hpq, _, rfl, ?_⟩
    simp only at h
    split at h
    · exact .inl (Sum.inl.inj h).symm
    · split at h
      · exact .inl (Sum.inl.inj h).symm
      · next neighbors hfind =>
        right
        rw [linksOf, Std.ExtTreeMap.getD_eq_getD_getElem?, hfind]
        exact (Sum.inl.inj h).symm

theorem relaxTurn_eq_inr {t : RouteTable Q} {s s' : Search Q} (h : t.relaxTurn s = .inr s') :
    s.pq = [] ∧ s = s' := by
  unfold relaxTurn at h
  split at h
  · next hpq => exact ⟨hpq, Sum.inr.inj h⟩
  · simp only at h
    split at h
    · cases h
    · split at h <;> cases h

theorem SearchesNear.turn {t : RouteTable Q} (hnear : t.Near) {s s' : Search Q}
    (h : t.SearchesNear s) (hturn : t.relaxTurn s = .inl s') : t.SearchesNear s' := by
  obtain ⟨e, es, hpq, s₁, hs₁, hs'⟩ := relaxTurn_cases hturn
  have htaken : ∀ p, p = (takeTop e es).1 ∨ p ∈ (takeTop e es).2 → t.Close p.2 := by
    intro p hp
    apply h.queue p
    rw [hpq]
    exact mem_of_takeTop e es p hp
  have hrest : t.SearchesNear s₁ := by
    rw [hs₁]
    exact ⟨fun p hp => htaken p (.inr hp), h.predecessor⟩
  rcases hs' with rfl | rfl
  · exact hrest
  · exact hrest.foldl hnear (htaken _ (.inl rfl)) fun _ hl => hl

end Turn

/-- The routes are found when every trace ends. -/
theorem exists_returns_routes {t : RouteTable Q} {s : Search Q}
    (htraces : ∀ reached ∈ s.quality.toList, reached.1 ≠ t.localId →
      ∃ r, Ends (fun _ s' => some (t.traceTurn s.predecessor s')) (reached.1, 0) r) :
    ∃ routes, Returns
      (fun limit => s.quality.toList.foldlM (t.addRoute s.predecessor limit) ∅) routes := by
  have hroute : ∀ reached ∈ s.quality.toList, ∀ routes, True →
      ∃ routes', Returns (fun limit => t.addRoute s.predecessor limit routes reached) routes' ∧
        True := by
    intro reached hreached routes _
    unfold addRoute
    split
    · exact ⟨_, .pure _, trivial⟩
    · next hlocal =>
      obtain ⟨r, htrace⟩ := htraces reached hreached hlocal
      exact ⟨_, htrace.returns.bind (.pure _), trivial⟩
  obtain ⟨routes, hroutes, -⟩ := exists_returns_foldlM (fun _ => True) s.quality.toList
    hroute (u := ∅) trivial
  exact ⟨routes, hroutes⟩

instance : Finite UInt32 := Finite.of_injective UInt32.toFin fun _ _ => UInt32.toFin_inj.mp

/-- How high the search has brought a node; below all qualities when not at all. -/
def height (quality : Std.ExtTreeMap UInt32 Q) (v : UInt32) : WithBot Q :=
  match quality[v]? with
  | none => ⊥
  | some q => (q : WithBot Q)

theorem height_insert (quality : Std.ExtTreeMap UInt32 Q) (v w : UInt32) (q : Q) :
    height (quality.insert v q) w = if w = v then (q : WithBot Q) else height quality w := by
  unfold height
  rw [getElem?_insert_ite]
  by_cases hvw : w = v
  · rw [if_pos hvw, if_pos hvw]
  · rw [if_neg hvw, if_neg hvw]

open Classical in
/-- How high a node is among some qualities. -/
noncomputable def heightIn (S : Set Q) (quality : Std.ExtTreeMap UInt32 Q) (v : UInt32) :
    WithBot S :=
  match quality[v]? with
  | none => ⊥
  | some q => if h : q ∈ S then ((⟨q, h⟩ : S) : WithBot S) else ⊥

/-- All qualities found are in the set. -/
def ValuesIn (S : Set Q) (s : Search Q) : Prop :=
  ∀ (v : UInt32) (q : Q), s.quality[v]? = some q → q ∈ S

theorem map_heightIn {S : Set Q} {s : Search Q} (h : ValuesIn S s) (v : UInt32) :
    (heightIn S s.quality v).map Subtype.val = height s.quality v := by
  cases hv : s.quality[v]? with
  | none =>
    simp only [heightIn, height, hv]
    rfl
  | some q =>
    simp only [heightIn, height, hv]
    rw [dif_pos (h v q hv)]
    rfl

variable [Preorder Q]

theorem height_lt_insert {quality : Std.ExtTreeMap UInt32 Q} {v : UInt32} {q : Q}
    (hlt : height quality v < q) : height quality < height (quality.insert v q) := by
  apply Pi.lt_def.mpr
  refine ⟨fun w => ?_, v, ?_⟩
  · rw [height_insert]
    split
    · next hwv => exact hwv ▸ le_of_lt hlt
    · exact le_refl _
  · rwa [height_insert, if_pos rfl]

theorem qualityAt_raises [Zero Q] (quality : Std.ExtTreeMap UInt32 Q) (u : UInt32) :
    (qualityAt quality u).2 = quality ∨ height quality < height (qualityAt quality u).2 := by
  unfold qualityAt
  split
  · exact .inl rfl
  · next hnone =>
    right
    apply height_lt_insert
    simp only [height, hnone]
    exact WithBot.bot_lt_coe 0

theorem heightIn_le_iff {S : Set Q} {s s' : Search Q} (h : ValuesIn S s) (h' : ValuesIn S s')
    (v : UInt32) : heightIn S s.quality v ≤ heightIn S s'.quality v ↔
      height s.quality v ≤ height s'.quality v := by
  rw [← map_heightIn h, ← map_heightIn h']
  exact (WithBot.map_le_iff Subtype.val Iff.rfl).symm

theorem heightIn_lt {S : Set Q} {s s' : Search Q} (h : ValuesIn S s) (h' : ValuesIn S s')
    (hlt : height s.quality < height s'.quality) :
    heightIn S s.quality < heightIn S s'.quality := by
  obtain ⟨hle, hne⟩ := lt_iff_le_not_ge.mp hlt
  refine lt_iff_le_not_ge.mpr ⟨fun v => (heightIn_le_iff h h' v).mpr (hle v), ?_⟩
  intro hge
  exact hne fun v => (heightIn_le_iff h' h v).mp (hge v)

/-- Where the search stands: the heights, and below them the queue. -/
def rank (s : Search Q) : (UInt32 → (WithBot Q)ᵒᵈ) × ℕ :=
  (fun v => OrderDual.toDual (height s.quality v), s.pq.length)

/-- The rank among some qualities. -/
noncomputable def rankIn (S : Set Q) (s : Search Q) : (UInt32 → (WithBot S)ᵒᵈ) × ℕ :=
  (fun v => OrderDual.toDual (heightIn S s.quality v), s.pq.length)

theorem rankIn_lt {S : Set Q} {s s' : Search Q} (h : ValuesIn S s) (h' : ValuesIn S s')
    (hlt : Prod.Lex (· < ·) (· < ·) (rank s') (rank s)) :
    Prod.Lex (· < ·) (· < ·) (rankIn S s') (rankIn S s) := by
  rcases Prod.lex_def.mp hlt with hup | ⟨hsame, hlen⟩
  · exact Prod.lex_def.mpr (.inl (heightIn_lt h h' hup))
  · refine Prod.lex_def.mpr (.inr ⟨?_, hlen⟩)
    have hheight : height s'.quality = height s.quality := hsame
    funext v
    apply WithBot.map_injective Subtype.val_injective
    exact (map_heightIn h' v).trans ((congrFun hheight v).trans (map_heightIn h v).symm)

variable [DecidableLT Q] [Mul Q]

theorem relaxLink_raises (q : Q) (u : UInt32) (s : Search Q) (link : UInt32 × Q) :
    relaxLink q u s link = s ∨ height s.quality < height (relaxLink q u s link).quality := by
  rcases relaxLink_cases q u s link with ⟨hsame, -⟩ | ⟨hset, hbetter⟩
  · exact .inl hsame
  · right
    rw [hset]
    apply height_lt_insert
    cases hold : s.quality[link.1]? with
    | none =>
      simp only [height, hold]
      exact WithBot.bot_lt_coe _
    | some old =>
      simp only [height, hold]
      exact WithBot.coe_lt_coe.mpr (hbetter old hold)

theorem foldl_relaxLink_raises (q : Q) (u : UInt32) (links : List (UInt32 × Q)) (s : Search Q) :
    links.foldl (relaxLink q u) s = s ∨
      height s.quality < height (links.foldl (relaxLink q u) s).quality := by
  induction links generalizing s with
  | nil => exact .inl rfl
  | cons link links ih =>
    rw [List.foldl_cons]
    rcases relaxLink_raises q u s link with hsame | hup
    · rw [hsame]
      exact ih s
    · right
      rcases ih (relaxLink q u s link) with hrest | hrest
      · rwa [hrest]
      · exact lt_trans hup hrest

variable [Zero Q]

theorem relaxTurn_rank {t : RouteTable Q} {s s' : Search Q} (h : t.relaxTurn s = .inl s') :
    Prod.Lex (· < ·) (· < ·) (rank s') (rank s) := by
  obtain ⟨e, es, hpq, s₁, hs₁, hs'⟩ := relaxTurn_cases h
  -- taking the entry
  have hfirst : (s₁.quality = s.quality ∧ s₁.pq.length < s.pq.length) ∨
      height s.quality < height s₁.quality := by
    have hlen : s₁.pq.length < s.pq.length := by
      rw [hs₁, hpq, List.length_cons, takeTop_length]
      exact Nat.lt_succ_self _
    rcases qualityAt_raises s.quality (takeTop e es).1.2 with hsame | hup
    · exact .inl ⟨by rw [hs₁]; exact hsame, hlen⟩
    · exact .inr (by rw [hs₁]; exact hup)
  -- taking its links
  have hthen : s' = s₁ ∨ height s₁.quality < height s'.quality := by
    rcases hs' with hs' | hs'
    · exact .inl hs'
    · rw [hs']
      exact foldl_relaxLink_raises _ _ _ s₁
  have hdown : height s.quality < height s'.quality → Prod.Lex (· < ·) (· < ·) (rank s') (rank s) :=
    fun hlt => Prod.Lex.left _ _ hlt
  rcases hthen with rfl | hthen
  · rcases hfirst with ⟨hsame, hlen⟩ | hup
    · unfold rank
      rw [hsame]
      exact Prod.Lex.right _ hlen
    · exact hdown hup
  · rcases hfirst with ⟨hsame, -⟩ | hup
    · exact hdown (hsame ▸ hthen)
    · exact hdown (lt_trans hup hthen)

variable [One Q]

theorem exists_returns_search_of (t : RouteTable Q) {S : Set Q} (hS : S.WellFoundedOn (· > ·))
    (Inv : Search Q → Prop) (hvalues : ∀ s, Inv s → ValuesIn S s)
    (hstep : ∀ s s', Inv s → t.relaxTurn s = .inl s' → Inv s') (hstart : Inv t.startSearch) :
    ∃ s, Inv s ∧ s.pq = [] ∧
      Returns (fun limit => loop (fun s => some (t.relaxTurn s)) limit t.startSearch) s := by
  have : WellFoundedGT S := ⟨hS⟩
  have hwf : WellFounded (InvImage (Prod.Lex (· < ·) (· < ·)) (rankIn S)) :=
    InvImage.wf (rankIn S) (WellFounded.prod_lex wellFounded_lt Nat.lt_wfRel.wf)
  obtain ⟨s, s', hs, hend, hends⟩ := exists_ends hwf Inv
    (fun s s' hs hturn => ⟨hstep s s' hs hturn,
      rankIn_lt (hvalues s hs) (hvalues s' (hstep s s' hs hturn)) (relaxTurn_rank hturn)⟩) hstart
  obtain ⟨hpq, rfl⟩ := relaxTurn_eq_inr hend
  exact ⟨s, hs, hpq, hends.returns⟩

theorem exists_returns_search [WellFoundedGT Q] (t : RouteTable Q)
    (Inv : Search Q → Prop)
    (hstep : ∀ s s', Inv s → t.relaxTurn s = .inl s' → Inv s') (hstart : Inv t.startSearch) :
    ∃ s, Inv s ∧ s.pq = [] ∧
      Returns (fun limit => loop (fun s => some (t.relaxTurn s)) limit t.startSearch) s :=
  exists_returns_search_of t (Set.wellFoundedOn_univ.mpr wellFounded_gt) Inv
    (fun _ _ _ q _ => Set.mem_univ q) hstep hstart

theorem exists_returns_recompute [WellFoundedGT Q] {t : RouteTable Q} (hnear : t.Near) :
    ∃ t', Returns (fun limit => t.recompute limit) t' ∧
      t'.localId = t.localId ∧ t'.adjacency = t.adjacency := by
  obtain ⟨s, hs, -, hsearch⟩ := exists_returns_search t t.SearchesNear
    (fun s s' hs hturn => hs.turn hnear hturn) (startSearch_near t)
  obtain ⟨routes, hroutes⟩ := exists_returns_routes (t := t) (s := s) fun reached _ hlocal =>
    ⟨(reached.1, 0), .of_inr (by rw [hs.trace hlocal]; exact .pure _)⟩
  exact ⟨{ t with routes }, hsearch.bind (hroutes.bind (.pure _)), rfl, rfl⟩

end RouteTable
end Cirradio.Network
