import Cirradio.BestWalks
import Cirradio.RouteSearch

/-!
# What the search has explored

Each quality found is that of a walk, and comes through a link of the predecessor. The
links of a node are all taken at its quality, unless the node waits in the queue with it.
So when the queue is empty no link leads to anything better.
-/

namespace Cirradio.Network
open BestWalks OrderedMaps WhileLoops

namespace RouteTable
variable {Q : Type}

/-- A link in the table. -/
def Link (t : RouteTable Q) (u v : UInt32) (w : Q) : Prop := (v, w) ∈ t.linksOf u

variable [Preorder Q]

/-- A value is kept or raised. -/
def Rises (quality quality' : Std.ExtTreeMap UInt32 Q) : Prop :=
  ∀ (v : UInt32) (q : Q), quality[v]? = some q →
    ∃ q', quality'[v]? = some q' ∧ (q = q' ∨ q < q')

theorem rises_insert {quality : Std.ExtTreeMap UInt32 Q} {v : UInt32} {q : Q}
    (hbetter : ∀ old, quality[v]? = some old → old < q) :
    Rises quality (quality.insert v q) := by
  intro x qx hx
  rw [getElem?_insert_ite]
  split
  · next hxv =>
    subst hxv
    exact ⟨q, rfl, .inr (hbetter qx hx)⟩
  · exact ⟨qx, hx, .inl rfl⟩

variable [Mul Q]

/-- No link of the node leads to anything better than what is found. -/
def Relaxed (t : RouteTable Q) (quality : Std.ExtTreeMap UInt32 Q) (u : UInt32) (q : Q) : Prop :=
  ∀ v w, t.Link u v w → ∃ q', quality[v]? = some q' ∧ ¬ q' < q * w

theorem Relaxed.rises {t : RouteTable Q} {quality quality' : Std.ExtTreeMap UInt32 Q}
    {u : UInt32} {q : Q} (h : t.Relaxed quality u q) (hrises : Rises quality quality') :
    t.Relaxed quality' u q := by
  intro v w hlink
  obtain ⟨old, hold, hle⟩ := h v w hlink
  obtain ⟨q', hq', rfl | hlt⟩ := hrises v old hold
  · exact ⟨old, hq', hle⟩
  · exact ⟨q', hq', fun hless => hle (hlt.trans hless)⟩

variable [One Q]

/-- What holds between the turns of the search. -/
structure Explores (t : RouteTable Q) (quality : Std.ExtTreeMap UInt32 Q)
    (predecessor : Std.ExtTreeMap UInt32 UInt32) (queue : List (Q × UInt32)) : Prop where
  start : ∃ q, quality[t.localId]? = some q ∧ 1 ≤ q
  attained : ∀ v q, quality[v]? = some q → q ∈ qualities t.Link t.localId v
  queued : ∀ e ∈ queue, ∃ q, quality[e.2]? = some q ∧ (e.1 = q ∨ e.1 < q)
  relaxed : ∀ u q, quality[u]? = some q → (q, u) ∈ queue ∨ t.Relaxed quality u q
  preceded : ∀ v q, quality[v]? = some q → v ≠ t.localId → ∃ u, predecessor[v]? = some u
  linked : ∀ v u, predecessor[v]? = some u → ∃ w, t.Link u v w ∧
    ∃ q ∈ qualities t.Link t.localId u, quality[v]? = some (q * w) ∧
      ∃ qu, quality[u]? = some qu ∧ q ≤ qu

theorem explores_start (t : RouteTable Q) :
    t.Explores t.startSearch.quality t.startSearch.predecessor t.startSearch.pq := by
  have hquality : ∀ v q, t.startSearch.quality[v]? = some q → v = t.localId ∧ q = 1 := by
    intro v q hq
    change ((∅ : Std.ExtTreeMap UInt32 Q).insert t.localId 1)[v]? = some q at hq
    rw [getElem?_insert_ite] at hq
    split at hq
    · next hv => exact ⟨hv, (Option.some.inj hq).symm⟩
    · simp at hq
  have hlocal : t.startSearch.quality[t.localId]? = some (1 : Q) := by
    change ((∅ : Std.ExtTreeMap UInt32 Q).insert t.localId 1)[t.localId]? = some (1 : Q)
    rw [getElem?_insert_ite, if_pos rfl]
  refine ⟨⟨1, hlocal, le_refl 1⟩, ?_, ?_, ?_, ?_, ?_⟩
  · intro v q hq
    obtain ⟨rfl, rfl⟩ := hquality v q hq
    exact ⟨[], .nil, rfl⟩
  · intro e he
    rw [List.mem_singleton.mp he]
    exact ⟨1, hlocal, .inl rfl⟩
  · intro u q hq
    obtain ⟨rfl, rfl⟩ := hquality u q hq
    exact .inl (List.mem_singleton.mpr rfl)
  · intro v q hq hv
    exact absurd (hquality v q hq).1 hv
  · intro v u hu
    rw [startSearch, Std.ExtTreeMap.getElem?_empty] at hu
    cases hu

variable {t : RouteTable Q} {quality : Std.ExtTreeMap UInt32 Q}
  {predecessor : Std.ExtTreeMap UInt32 UInt32} {queue queue' : List (Q × UInt32)}

theorem Explores.perm (h : t.Explores quality predecessor queue) (hperm : queue.Perm queue') :
    t.Explores quality predecessor queue' := by
  refine ⟨h.start, h.attained, ?_, ?_, h.preceded, h.linked⟩
  · intro e he
    exact h.queued e (hperm.mem_iff.mpr he)
  · intro u q hq
    exact (h.relaxed u q hq).imp hperm.mem_iff.mp id

/-- An entry may go when its node is better by now, or has all its links taken. -/
theorem Explores.drop {q : Q} {u : UInt32}
    (h : t.Explores quality predecessor ((q, u) :: queue))
    (hdone : quality[u]? = some q → t.Relaxed quality u q) :
    t.Explores quality predecessor queue := by
  refine ⟨h.start, h.attained, ?_, ?_, h.preceded, h.linked⟩
  · intro e he
    exact h.queued e (List.mem_cons_of_mem _ he)
  · intro u' q' hq'
    rcases h.relaxed u' q' hq' with hmem | hrelaxed
    · rcases List.mem_cons.mp hmem with heq | hmem
      · cases heq
        exact .inr (hdone hq')
      · exact .inl hmem
    · exact .inr hrelaxed

/-- A better quality through a link of a node in the queue. -/
theorem Explores.improve (h : t.Explores quality predecessor queue) {q w : Q} {u v : UInt32}
    (hqueue : (q, u) ∈ queue) (hlink : t.Link u v w) (hq : q ∈ qualities t.Link t.localId u)
    (hbetter : ∀ old, quality[v]? = some old → old < q * w) :
    t.Explores (quality.insert v (q * w)) (predecessor.insert v u) ((q * w, v) :: queue) := by
  have hrises := rises_insert hbetter
  have hv : (quality.insert v (q * w))[v]? = some (q * w) := by
    rw [getElem?_insert_ite, if_pos rfl]
  have hother : ∀ x, x ≠ v → (quality.insert v (q * w))[x]? = quality[x]? := by
    intro x hx
    rw [getElem?_insert_ite, if_neg hx]
  refine ⟨?_, ?_, ?_, ?_, ?_, ?_⟩
  · obtain ⟨q₀, hq₀, hone⟩ := h.start
    obtain ⟨q₁, hq₁, rfl | hlt⟩ := hrises _ q₀ hq₀
    · exact ⟨q₀, hq₁, hone⟩
    · exact ⟨q₁, hq₁, hone.trans hlt.le⟩
  · intro x qx hx
    rw [getElem?_insert_ite] at hx
    split at hx
    · next hxv =>
      subst hxv
      obtain ⟨steps, hwalk, rfl⟩ := hq
      exact ⟨_, hwalk.concat hlink, (quality_concat steps x w).trans (Option.some.inj hx)⟩
    · exact h.attained x qx hx
  · intro e he
    rcases List.mem_cons.mp he with rfl | he
    · exact ⟨q * w, hv, .inl rfl⟩
    · obtain ⟨q₀, hq₀, hle⟩ := h.queued e he
      obtain ⟨q₁, hq₁, rfl | hlt⟩ := hrises _ q₀ hq₀
      · exact ⟨q₀, hq₁, hle⟩
      · refine ⟨q₁, hq₁, .inr ?_⟩
        rcases hle with rfl | hle
        · exact hlt
        · exact hle.trans hlt
  · intro x qx hx
    rw [getElem?_insert_ite] at hx
    split at hx
    · next hxv =>
      left
      rw [hxv, ← Option.some.inj hx]
      exact List.mem_cons_self
    · exact (h.relaxed x qx hx).imp (List.mem_cons_of_mem _) fun hr => hr.rises hrises
  · intro x qx hx hlocal
    rw [getElem?_insert_ite] at hx ⊢
    split at hx
    · next hxv => exact ⟨u, if_pos hxv⟩
    · next hxv =>
      rw [if_neg hxv]
      exact h.preceded x qx hx hlocal
  · intro x p hp
    rw [getElem?_insert_ite] at hp
    split at hp
    · next hxv =>
      subst hxv
      cases hp
      obtain ⟨qu, hqu, hle⟩ := h.queued _ hqueue
      obtain ⟨qu', hqu', hle'⟩ := hrises u qu hqu
      exact ⟨w, hlink, q, hq, hv, qu', hqu',
        (le_of_eq_or_lt hle).trans (le_of_eq_or_lt hle')⟩
    · next hxv =>
      obtain ⟨w', hlink', q', hq', hx, qp, hqp, hle⟩ := h.linked x p hp
      obtain ⟨qp', hqp', hle'⟩ := hrises p qp hqp
      exact ⟨w', hlink', q', hq', (hother x hxv).trans hx, qp', hqp',
        hle.trans (le_of_eq_or_lt hle')⟩

variable [DecidableLT Q]

/-- While the links of a node are taken, its entry counts as waiting. -/
theorem Explores.foldl {s : Search Q} {q : Q} {u : UInt32}
    (h : t.Explores s.quality s.predecessor ((q, u) :: s.pq))
    (hq : q ∈ qualities t.Link t.localId u) {links : List (UInt32 × Q)}
    (hlinks : ∀ link ∈ links, link ∈ t.linksOf u) :
    t.Explores (links.foldl (relaxLink q u) s).quality
        (links.foldl (relaxLink q u) s).predecessor
        ((q, u) :: (links.foldl (relaxLink q u) s).pq) ∧
      ∀ link ∈ links, ∃ q', (links.foldl (relaxLink q u) s).quality[link.1]? = some q' ∧
        ¬ q' < q * link.2 := by
  induction links using List.reverseRecOn with
  | nil => exact ⟨h, fun link hlink => by cases hlink⟩
  | append_singleton links link ih =>
    obtain ⟨hexplores, hdone⟩ := ih fun l hl => hlinks l (List.mem_append_left _ hl)
    have hlink : t.Link u link.1 link.2 := hlinks link (by simp)
    rw [List.foldl_append]
    generalize links.foldl (relaxLink q u) s = s₁ at hexplores hdone
    change t.Explores (relaxLink q u s₁ link).quality _ _ ∧ _
    rcases relaxLink_cases q u s₁ link with ⟨hsame, old, hold, hle⟩ | ⟨hset, hbetter⟩
    · rw [List.foldl_cons, List.foldl_nil, hsame]
      refine ⟨hexplores, fun l hl => ?_⟩
      rcases List.mem_append.mp hl with hl | hl
      · exact hdone l hl
      · rw [List.mem_singleton.mp hl]
        exact ⟨old, hold, hle⟩
    · rw [List.foldl_cons, List.foldl_nil, hset]
      have himproved := hexplores.improve List.mem_cons_self hlink hq hbetter
      refine ⟨himproved.perm (List.Perm.swap _ _ _), fun l hl => ?_⟩
      rcases List.mem_append.mp hl with hl | hl
      · obtain ⟨old, hold, hle⟩ := hdone l hl
        obtain ⟨q', hq', rfl | hlt⟩ := rises_insert hbetter l.1 old hold
        · exact ⟨old, hq', hle⟩
        · exact ⟨q', hq', fun hless => hle (hlt.trans hless)⟩
      · rw [List.mem_singleton.mp hl]
        refine ⟨q * link.2, ?_, lt_irrefl _⟩
        change (s₁.quality.insert link.1 (q * link.2))[link.1]? = some (q * link.2)
        rw [getElem?_insert_ite, if_pos rfl]

variable [Zero Q]

/-- What a turn can do between turns: an entry that its node has left behind is dropped,
and at another one the links of its node are taken. -/
theorem Explores.turn_cases {s s' : Search Q}
    (h : t.Explores s.quality s.predecessor s.pq) (hturn : t.relaxTurn s = .inl s') :
    ∃ q u rest, s.pq.Perm ((q, u) :: rest) ∧
      ((∃ best, s.quality[u]? = some best ∧ q < best ∧ s' = { s with pq := rest }) ∨
        (s.quality[u]? = some q ∧
          s' = (t.linksOf u).foldl (relaxLink q u) { s with pq := rest })) := by
  unfold relaxTurn at hturn
  split at hturn
  · cases hturn
  · next e es hpq =>
    have hperm : s.pq.Perm ((takeTop e es).1 :: (takeTop e es).2) := by
      rw [hpq]
      exact (takeTop_perm e es).symm
    refine ⟨(takeTop e es).1.1, (takeTop e es).1.2, (takeTop e es).2, hperm, ?_⟩
    obtain ⟨best, hbest, hle⟩ := h.queued _ (hperm.mem_iff.mpr List.mem_cons_self)
    have hat : qualityAt s.quality (takeTop e es).1.2 = (best, s.quality) := by
      unfold qualityAt
      rw [hbest]
    simp only [hat] at hturn
    split at hturn
    · next hlt => exact .inl ⟨best, hbest, hlt, (Sum.inl.inj hturn).symm⟩
    · next hlt =>
      right
      rw [hle.resolve_right hlt]
      refine ⟨hbest, ?_⟩
      unfold linksOf
      rw [Std.ExtTreeMap.getD_eq_getD_getElem?]
      rw [← hle.resolve_right hlt]
      split at hturn
      · next hnone =>
        rw [hnone]
        exact (Sum.inl.inj hturn).symm
      · next neighbors hsome =>
        rw [hsome]
        exact (Sum.inl.inj hturn).symm

theorem Explores.turn {s s' : Search Q} (h : t.Explores s.quality s.predecessor s.pq)
    (hturn : t.relaxTurn s = .inl s') : t.Explores s'.quality s'.predecessor s'.pq := by
  obtain ⟨q, u, rest, hperm, ⟨best, hbest, hlt, rfl⟩ | ⟨hu, rfl⟩⟩ := h.turn_cases hturn
  · apply (h.perm hperm).drop
    intro hq
    rw [Option.some.inj (hbest.symm.trans hq)] at hlt
    exact absurd hlt (lt_irrefl q)
  · obtain ⟨hexplores, hdone⟩ := Explores.foldl (s := { s with pq := rest }) (h.perm hperm)
      (h.attained u q hu) fun link (hl : link ∈ t.linksOf u) => hl
    exact hexplores.drop fun _ v w hlink => hdone (v, w) hlink

end RouteTable
end Cirradio.Network
