import Cirradio.RouteExploration

/-!
# The trace back to the first hop

A trace follows predecessors until the next one is the local node. A node is only
improved past what its own descendants have, as long as links between other nodes do not
raise a quality, so no trace runs into a cycle. A trace that ends visits no node twice,
so its length is below the number of node ids.
-/

namespace Cirradio.Network
open BestWalks OrderedMaps WhileLoops

namespace RouteTable
variable {Q : Type}

/-- From a node the predecessors lead, after some steps, to a last one before the root. -/
inductive Trace (predecessor : Std.ExtTreeMap UInt32 UInt32) (root : UInt32) :
    UInt32 → UInt32 → ℕ → Prop where
  | last {v : UInt32} (h : predecessor[v]? = some root) : Trace predecessor root v v 0
  | step {v u c : UInt32} {n : ℕ} (h : predecessor[v]? = some u) (hu : u ≠ root)
      (rest : Trace predecessor root u c n) : Trace predecessor root v c (n + 1)

variable {predecessor : Std.ExtTreeMap UInt32 UInt32} {root v c c' : UInt32} {n m : ℕ}

theorem Trace.unique (h : Trace predecessor root v c n) (h' : Trace predecessor root v c' m) :
    c = c' ∧ n = m := by
  induction h generalizing m with
  | last h =>
    cases h' with
    | last _ => exact ⟨rfl, rfl⟩
    | step h' hu _ => exact absurd (Option.some.inj (h'.symm.trans h)) hu
  | step h hu _ ih =>
    cases h' with
    | last h' => exact absurd (Option.some.inj (h.symm.trans h')) hu
    | step h' _ rest' =>
      cases h.symm.trans h'
      obtain ⟨hc, hn⟩ := ih rest'
      exact ⟨hc, congrArg (· + 1) hn⟩

theorem Trace.predecessor_last (h : Trace predecessor root v c n) : predecessor[c]? = some root := by
  induction h with
  | last h => exact h
  | step _ _ _ ih => exact ih

theorem Trace.exists_on_way (h : Trace predecessor root v c n) (hv : v ≠ root) :
    ∀ k ≤ n, ∃ y, y ≠ root ∧ Trace predecessor root y c k := by
  induction h with
  | last h =>
    intro k hk
    obtain rfl : k = 0 := by omega
    exact ⟨_, hv, .last h⟩
  | @step v u c n h hu rest ih =>
    intro k hk
    rcases Nat.lt_or_ge n k with hlt | hle
    · obtain rfl : k = n + 1 := by omega
      exact ⟨v, hv, .step h hu rest⟩
    · exact ih hu k hle

/-- The nodes on the way are different, and different from the root. -/
theorem Trace.length_lt (h : Trace predecessor root v c n) (hv : v ≠ root) :
    n + 1 < 2 ^ 32 := by
  choose node hroot htrace using h.exists_on_way hv
  let visited : Option (Fin (n + 1)) → UInt32
    | none => root
    | some k => node k (Nat.le_of_lt_succ k.isLt)
  have hinjective : Function.Injective visited := by
    rintro (_ | k) (_ | k') heq
    · rfl
    · exact absurd heq.symm (hroot _ _)
    · exact absurd heq (hroot _ _)
    · have hk := htrace k (Nat.le_of_lt_succ k.isLt)
      have heq' : node k (Nat.le_of_lt_succ k.isLt) = node k' (Nat.le_of_lt_succ k'.isLt) := heq
      rw [heq'] at hk
      have hkk := (hk.unique (htrace k' (Nat.le_of_lt_succ k'.isLt))).2
      rw [Fin.ext hkk]
  have hbits : Function.Injective fun k => (visited k).toFin :=
    fun k k' heq => hinjective (UInt32.toFin_inj.mp heq)
  have hcard := Fintype.card_le_of_injective _ hbits
  simp only [Fintype.card_option, Fintype.card_fin, UInt32.size] at hcard
  omega

theorem Trace.ends {t : RouteTable Q} (h : Trace predecessor t.localId v c n) (hops : UInt32) :
    Ends (fun _ s => some (t.traceTurn predecessor s)) (v, hops) (c, hops + UInt32.ofNat n) := by
  induction h generalizing hops with
  | @last v h =>
    apply Ends.of_inr
    have hturn : t.traceTurn predecessor (v, hops) = .inr (v, hops) := by
      simp only [traceTurn, h, if_true]
    rw [hturn]
    simpa using Returns.pure (Sum.inr (v, hops))
  | @step v u c n h hu rest ih =>
    have hturn : t.traceTurn predecessor (v, hops) = .inl (u, hops + 1) := by
      simp only [traceTurn, h, if_neg hu]
    have hfirst : Returns (fun _ => some (t.traceTurn predecessor (v, hops)))
        (.inl (u, hops + 1)) := by
      rw [hturn]
      exact .pure _
    have hsum : hops + UInt32.ofNat (n + 1) = hops + 1 + UInt32.ofNat n := by
      rw [UInt32.ofNat_add, UInt32.add_assoc, UInt32.add_comm (UInt32.ofNat n)]
      rfl
    rw [hsum]
    exact .of_inl hfirst (ih (hops + 1))

/-- Every node found has a trace. -/
def Traced (t : RouteTable Q) (quality : Std.ExtTreeMap UInt32 Q)
    (predecessor : Std.ExtTreeMap UInt32 UInt32) : Prop :=
  ∀ (v : UInt32) (q : Q), quality[v]? = some q → v ≠ t.localId →
    ∃ c n, Trace predecessor t.localId v c n

theorem traced_start [One Q] (t : RouteTable Q) :
    t.Traced t.startSearch.quality t.startSearch.predecessor := by
  intro v q hq hv
  change ((∅ : Std.ExtTreeMap UInt32 Q).insert t.localId 1)[v]? = some q at hq
  rw [getElem?_insert_ite, if_neg hv] at hq
  simp at hq

variable [Preorder Q]

/-- Better or greatest: a node with the first value cannot be improved through one with
the second. -/
def Below (q q' : Q) : Prop := IsMax q' ∨ q ≤ q'

theorem Below.trans {q₁ q₂ q₃ : Q} (h : Below q₁ q₂) (h' : Below q₂ q₃) : Below q₁ q₃ := by
  rcases h' with hmax | hle
  · exact .inl hmax
  · rcases h with hmax | hle'
    · exact .inl (hmax.mono hle)
    · exact .inr (hle'.trans hle)

variable [Mul Q]

/-- A link that does not raise the quality, unless this is a greatest one. -/
def Damps (q w : Q) : Prop := ¬ IsMax q → q * w ≤ q

theorem Damps.below {q w : Q} (h : Damps q w) : Below (q * w) q := by
  by_cases hmax : IsMax q
  · exact .inl hmax
  · exact .inr (h hmax)

theorem Damps.not_lt {q w old : Q} (h : Damps q w) (hbelow : Below q old) : ¬ old < q * w := by
  intro hlt
  rcases hbelow with hmax | hle
  · exact hmax.not_lt hlt
  · rcases h.below with hmax | hle'
    · exact (hmax.mono hle).not_lt hlt
    · exact lt_irrefl old (hlt.trans_le (hle'.trans hle))

/-- No walk to another node gets better by a further link to another node. -/
def Damped [One Q] (t : RouteTable Q) : Prop :=
  ∀ u, u ≠ t.localId → ∀ q ∈ qualities t.Link t.localId u,
    ∀ v w, t.Link u v w → v ≠ t.localId → Damps q w

variable [One Q] {t : RouteTable Q} {quality : Std.ExtTreeMap UInt32 Q}
  {queue : List (Q × UInt32)}

/-- The trace of a node above a quality does not pass a node improved from there. -/
theorem Trace.insert_of_below (hdamped : t.Damped)
    (hexplores : t.Explores quality predecessor queue) {q w : Q} {u : UInt32} {y : UInt32}
    (hdamps : v ≠ t.localId → Damps q w)
    (hbetter : ∀ old, quality[v]? = some old → old < q * w)
    (h : Trace predecessor t.localId y c n) (hy : y ≠ t.localId) {qy : Q}
    (hqy : quality[y]? = some qy) (hbelow : Below q qy) :
    Trace (predecessor.insert v u) t.localId y c n := by
  -- a node on the way is not the improved one
  have hne : ∀ {x : UInt32} {qx : Q}, x ≠ t.localId → quality[x]? = some qx → Below q qx →
      x ≠ v := by
    rintro x qx hx hqx hbelow rfl
    exact (hdamps hx).not_lt hbelow (hbetter qx hqx)
  induction h generalizing qy with
  | @last y h =>
    apply Trace.last
    rw [getElem?_insert_ite, if_neg (hne hy hqy hbelow), h]
  | @step y z c n h hz rest ih =>
    refine .step ?_ hz ?_
    · rw [getElem?_insert_ite, if_neg (hne hy hqy hbelow), h]
    · obtain ⟨w', hlink, q', hq', hqy', qz, hqz, hle⟩ := hexplores.linked y z h
      have hdampsy : Damps q' w' := hdamped z hz q' hq' y w' hlink hy
      rw [hqy] at hqy'
      rw [Option.some.inj hqy'] at hbelow
      exact ih hz hqz ((hbelow.trans hdampsy.below).trans (.inr hle))

/-- With a new predecessor at one node that has a trace, the other nodes have one too. -/
theorem Trace.exists_insert {u : UInt32}
    (hv : v ≠ root → ∃ c n, Trace (predecessor.insert v u) root v c n) {y : UInt32}
    (hy : y ≠ root) (h : Trace predecessor root y c n) :
    ∃ c n, Trace (predecessor.insert v u) root y c n := by
  induction h with
  | @last y h =>
    by_cases hyv : y = v
    · subst hyv
      exact hv hy
    · refine ⟨y, 0, .last ?_⟩
      rw [getElem?_insert_ite, if_neg hyv, h]
  | @step y z c n h hz rest ih =>
    by_cases hyv : y = v
    · subst hyv
      exact hv hy
    · obtain ⟨c', n', hrest⟩ := ih hz
      refine ⟨c', n' + 1, .step ?_ hz hrest⟩
      rw [getElem?_insert_ite, if_neg hyv, h]

theorem Traced.improve (h : t.Traced quality predecessor) (hdamped : t.Damped)
    (hexplores : t.Explores quality predecessor queue) {q w : Q} {u v : UInt32}
    (hlink : t.Link u v w) (hq : q ∈ qualities t.Link t.localId u)
    (hu : u = t.localId ∨ quality[u]? = some q)
    (hbetter : ∀ old, quality[v]? = some old → old < q * w) :
    t.Traced (quality.insert v (q * w)) (predecessor.insert v u) := by
  have hfrom : (predecessor.insert v u)[v]? = some u := by
    rw [getElem?_insert_ite, if_pos rfl]
  -- the improved node is traced through the node it is improved from
  have hv : v ≠ t.localId → ∃ c n, Trace (predecessor.insert v u) t.localId v c n := by
    intro hlocal
    by_cases hul : u = t.localId
    · rw [hul] at hfrom ⊢
      exact ⟨v, 0, .last hfrom⟩
    · have hqu := hu.resolve_left hul
      obtain ⟨c, n, htrace⟩ := h u q hqu hul
      have hkept := htrace.insert_of_below hdamped hexplores (u := u)
        (hdamped u hul q hq v w hlink) hbetter hul hqu (.inr (le_refl q))
      exact ⟨c, n + 1, .step hfrom hul hkept⟩
  intro y qy hqy hy
  rw [getElem?_insert_ite] at hqy
  split at hqy
  · next hyv => exact hyv ▸ hv (hyv ▸ hy)
  · obtain ⟨c, n, htrace⟩ := h y qy hqy hy
    exact htrace.exists_insert hv hy

variable [DecidableLT Q]

theorem Traced.foldl (hdamped : t.Damped) {s : Search Q} {q : Q} {u : UInt32}
    (hexplores : t.Explores s.quality s.predecessor ((q, u) :: s.pq))
    (h : t.Traced s.quality s.predecessor) (hu : s.quality[u]? = some q)
    {links : List (UInt32 × Q)} (hlinks : ∀ link ∈ links, link ∈ t.linksOf u) :
    t.Traced (links.foldl (relaxLink q u) s).quality
        (links.foldl (relaxLink q u) s).predecessor ∧
      (u = t.localId ∨ (links.foldl (relaxLink q u) s).quality[u]? = some q) := by
  have hq := hexplores.attained u q hu
  induction links using List.reverseRecOn with
  | nil => exact ⟨h, .inr hu⟩
  | append_singleton links link ih =>
    have hlinks' : ∀ l ∈ links, l ∈ t.linksOf u := fun l hl => hlinks l (List.mem_append_left _ hl)
    have hlink : t.Link u link.1 link.2 := hlinks link (by simp)
    obtain ⟨htraced, hkept⟩ := ih hlinks'
    obtain ⟨hexplores', -⟩ := hexplores.foldl hq hlinks'
    rw [List.foldl_append, List.foldl_cons, List.foldl_nil]
    generalize links.foldl (relaxLink q u) s = s₁ at htraced hkept hexplores'
    rcases relaxLink_cases q u s₁ link with ⟨hsame, -⟩ | ⟨hset, hbetter⟩
    · rw [hsame]
      exact ⟨htraced, hkept⟩
    · rw [hset]
      refine ⟨htraced.improve hdamped hexplores' hlink hq hkept hbetter, ?_⟩
      by_cases hul : u = t.localId
      · exact .inl hul
      · right
        change (s₁.quality.insert link.1 (q * link.2))[u]? = some q
        rw [getElem?_insert_ite]
        split
        · next hself =>
          -- a link of the node to itself improves nothing
          have hdamps := hdamped u hul q hq link.1 link.2 hlink (hself ▸ hul)
          have hold := hbetter q (hself ▸ hkept.resolve_left hul)
          exact absurd hold (hdamps.not_lt (.inr (le_refl q)))
        · exact hkept.resolve_left hul

variable [Zero Q]

theorem Traced.turn (hdamped : t.Damped) {s s' : Search Q}
    (hexplores : t.Explores s.quality s.predecessor s.pq)
    (h : t.Traced s.quality s.predecessor) (hturn : t.relaxTurn s = .inl s') :
    t.Traced s'.quality s'.predecessor := by
  obtain ⟨q, u, rest, hperm, ⟨_, _, _, rfl⟩ | ⟨hu, rfl⟩⟩ := hexplores.turn_cases hturn
  · exact h
  · exact (Traced.foldl (s := { s with pq := rest }) hdamped (hexplores.perm hperm) h hu
      fun _ hl => hl).1

end RouteTable
end Cirradio.Network
