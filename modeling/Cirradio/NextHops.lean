import Cirradio.BestWalks
import Cirradio.WhileLoops
import Mathlib.Data.Fintype.Card
import Mathlib.Order.WellFounded

/-!
# Following next hops

Each node keeps the first hop of a best walk to a destination. Where every link makes a
quality fall, whoever follows the kept hops from node to node walks to the destination,
comes nowhere twice, and has the best quality on the way.
-/

namespace Cirradio.BestWalks
open WhileLoops

variable {V Q : Type}

theorem Walk.cons {Link : V → V → Q → Prop} {u n d : V} {w : Q} {steps : List (V × Q)}
    (link : Link u n w) (hwalk : Walk Link n steps d) : Walk Link u ((n, w) :: steps) d := by
  induction hwalk with
  | nil => exact Walk.nil.concat link
  | concat _ link' ih => exact ih.concat link'

theorem Walk.eq_of_nil {Link : V → V → Q → Prop} {u v : V} (hwalk : Walk Link u [] v) :
    v = u := by
  generalize hnil : ([] : List (V × Q)) = steps at hwalk
  cases hwalk with
  | nil => rfl
  | concat => simp at hnil

/-- The first link of a walk, and the rest of it. -/
theorem Walk.uncons {Link : V → V → Q → Prop} {u n d : V} {w : Q} {steps : List (V × Q)}
    (hwalk : Walk Link u ((n, w) :: steps) d) : Link u n w ∧ Walk Link n steps d := by
  generalize hall : (n, w) :: steps = all at hwalk
  induction hwalk generalizing steps with
  | nil => cases hall
  | @concat all' x v w' hwalk' link ih =>
    cases steps using List.reverseRecOn with
    | nil =>
      have hall : [] ++ [(n, w)] = all' ++ [(v, w')] := hall
      obtain ⟨hnil, heq⟩ := List.append_inj' hall rfl
      subst hnil
      cases heq
      rw [hwalk'.eq_of_nil] at link
      exact ⟨link, .nil⟩
    | append_singleton steps last _ =>
      rw [← List.cons_append] at hall
      obtain ⟨hinit, heq⟩ := List.append_inj' hall rfl
      cases heq
      obtain ⟨hlink, hrest⟩ := ih hinit
      exact ⟨hlink, hrest.concat link⟩

section Monoid
variable [Monoid Q]

theorem quality_cons (v : V) (w : Q) (steps : List (V × Q)) :
    quality ((v, w) :: steps) = w * quality steps := by
  induction steps using List.reverseRecOn with
  | nil => simp [quality]
  | append_singleton steps last ih =>
    rw [← List.cons_append, quality_concat, ih, quality_concat, mul_assoc]

end Monoid

/-- What a node keeps of a destination: the first hop of a best walk, and its quality. -/
structure BestHops [LE Q] [One Q] [Mul Q] (Link : V → V → Q → Prop) (d : V)
    (hop : V → Option (V × Q)) : Prop where
  isSome_iff : ∀ u, u ≠ d → ((hop u).isSome ↔ Reaches Link u d)
  greatest : ∀ u n q, u ≠ d → hop u = some (n, q) → IsGreatest (qualities Link u d) q
  realised : ∀ u n q, u ≠ d → hop u = some (n, q) →
    ∃ w steps, Walk Link u ((n, w) :: steps) d ∧ quality ((n, w) :: steps) = q

/-- A turn of the way: at the destination it ends, elsewhere it goes on by the kept hop,
if there is one. The state is the node and the nodes that came after the first. -/
def followTurn [DecidableEq V] (hop : V → Option V) (d : V) (s : V × List V) :
    Option ((V × List V) ⊕ List V) :=
  if s.1 = d then some (.inr s.2)
  else (hop s.1).map fun n => .inl (n, s.2 ++ [n])

def follow [DecidableEq V] (hop : V → Option V) (d : V) (limit : ℕ) (u : V) :
    Option (List V) :=
  loop (followTurn hop d) limit (u, [])

theorem ends_followTurn_concat [DecidableEq V] {hop : V → Option V} {d u : V}
    {before path : List V} (h : Ends (fun _ => followTurn hop d) (u, []) path) :
    Ends (fun _ => followTurn hop d) (u, before) (before ++ path) := by
  obtain ⟨n, hn⟩ := h
  refine ⟨n, fun m k hm hk => ?_⟩
  have hpath := hn m k hm hk
  clear hn hk hm
  suffices hgen : ∀ (k : ℕ) (u : V) (start path : List V),
      loop (followTurn hop d) k (u, start) = some path →
      loop (followTurn hop d) k (u, before ++ start) = some (before ++ path) by
    have := hgen k u [] path hpath
    rwa [List.append_nil] at this
  intro k
  induction k with
  | zero =>
    intro u start path h
    cases h
  | succ k ih =>
    intro u start path h
    unfold loop followTurn at h ⊢
    by_cases hd : u = d
    · simp only [hd, if_true, Option.some.injEq] at h ⊢
      rw [h]
    · cases hhop : hop u with
      | none => simp [hd, hhop] at h
      | some n =>
        simp only [hd, if_false, hhop, Option.map_some] at h ⊢
        rw [List.append_assoc]
        exact ih n (start ++ [n]) path h

section Following
variable [LinearOrder Q] [Monoid Q] [MulLeftMono Q]
  {Link : V → V → Q → Prop} {d : V} {hop : V → Option (V × Q)}

/-- The hop of a node is a link to the destination, or to a node with a hop, and its
quality is that of the link and of the rest of the way. -/
theorem BestHops.next (h : BestHops Link d hop) (hone : ∀ q : Q, q ≤ 1) {u n : V} {q : Q}
    (hu : u ≠ d) (hhop : hop u = some (n, q)) :
    ∃ w, Link u n w ∧ ((n = d ∧ q = w) ∨
      (n ≠ d ∧ ∃ n' q', hop n = some (n', q') ∧ q = w * q')) := by
  obtain ⟨w, steps, hwalk, hq⟩ := h.realised u n q hu hhop
  obtain ⟨hlink, hrest⟩ := hwalk.uncons
  rw [quality_cons] at hq
  refine ⟨w, hlink, ?_⟩
  by_cases hn : n = d
  · subst hn
    refine .inl ⟨rfl, le_antisymm ?_ ?_⟩
    · rw [← hq]
      calc w * quality steps ≤ w * 1 := mul_le_mul_right (hone _) w
        _ = w := mul_one w
    · have hdirect := (h.greatest u n q hu hhop).2 ⟨[(n, w)], Walk.nil.concat hlink, rfl⟩
      rwa [quality_cons, quality_nil, mul_one] at hdirect
  · obtain ⟨⟨n', q'⟩, hn'⟩ := Option.isSome_iff_exists.mp ((h.isSome_iff n hn).mpr ⟨steps, hrest⟩)
    obtain ⟨⟨best, hbest, hq'⟩, hle⟩ := h.greatest n n' q' hn hn'
    refine .inr ⟨hn, n', q', hn', le_antisymm ?_ ?_⟩
    · rw [← hq]
      exact mul_le_mul_right (hle ⟨steps, hrest, rfl⟩) w
    · rw [← hq', ← quality_cons n]
      exact (h.greatest u n q hu hhop).2 ⟨_, hbest.cons hlink, rfl⟩

variable [Finite V] [DecidableEq V]

/-- Whoever follows the hops walks to the destination with the best quality and comes
nowhere twice. Each hop leads to a node with a better value, so the induction is on the
nodes that are better still. -/
theorem BestHops.follow (h : BestHops Link d hop) (hone : ∀ q : Q, q ≤ 1)
    (hfalls : ∀ u n w, Link u n w → ∀ v, ∀ q ∈ qualities Link v d, w * q < q)
    {u n : V} {q : Q} (hu : u ≠ d) (hhop : hop u = some (n, q)) :
    ∃ steps, Walk Link u steps d ∧ quality steps = q ∧ (u :: steps.map Prod.fst).Nodup ∧
      Returns (fun limit => BestWalks.follow (fun v => (hop v).map Prod.fst) d limit u)
        (steps.map Prod.fst) := by
  let better : V → V → Prop := fun v u => ∃ x y, hop u = some x ∧ hop v = some y ∧ x.2 < y.2
  have htrans : IsTrans V better := by
    refine ⟨fun a b c hab hbc => ?_⟩
    obtain ⟨x, y, hb, ha, hlt⟩ := hab
    obtain ⟨x', y', hc, hb', hlt'⟩ := hbc
    rw [hb] at hb'
    cases hb'
    exact ⟨x', y, hc, ha, hlt'.trans hlt⟩
  have hirrefl : Std.Irrefl better := by
    refine ⟨fun a ha => ?_⟩
    obtain ⟨x, y, hx, hy, hlt⟩ := ha
    rw [hx] at hy
    cases hy
    exact lt_irrefl _ hlt
  have hwf : WellFounded better := Finite.wellFounded_of_trans_of_irrefl better
  -- the nodes on the way are the destination or have better values
  suffices hway : ∃ steps, Walk Link u steps d ∧ quality steps = q ∧
      (u :: steps.map Prod.fst).Nodup ∧
      (∀ v ∈ steps.map Prod.fst, v = d ∨ ∃ x, hop v = some x ∧ q < x.2) ∧
      Ends (fun _ => followTurn (fun v => (hop v).map Prod.fst) d) (u, [])
        (steps.map Prod.fst) by
    obtain ⟨steps, hwalk, hq, hnodup, -, hends⟩ := hway
    exact ⟨steps, hwalk, hq, hnodup, hends.returns⟩
  induction u using hwf.induction generalizing n q with
  | _ u ih =>
    obtain ⟨w, hlink, hcases⟩ := h.next hone hu hhop
    have hturn : Returns (fun _ => followTurn (fun v => (hop v).map Prod.fst) d (u, []))
        (.inl (n, [n])) := by
      have hstep : followTurn (fun v => (hop v).map Prod.fst) d (u, []) =
          some (.inl (n, [n])) := by simp [followTurn, hu, hhop]
      rw [hstep]
      exact .pure _
    rcases hcases with ⟨rfl, rfl⟩ | ⟨hn, n', q', hn', rfl⟩
    · refine ⟨[(n, q)], Walk.nil.concat hlink, by simp [quality_cons], by simpa using hu,
        by simp, .of_inl hturn (.of_inr ?_)⟩
      have hend : followTurn (fun v => (hop v).map Prod.fst) n (n, [n]) =
          some (.inr [n]) := by simp [followTurn]
      rw [hend]
      exact .pure _
    · have hlt : w * q' < q' := hfalls u n w hlink n q' (h.greatest n n' q' hn hn').1
      obtain ⟨steps, hwalk, hq, hnodup, hway, hends⟩ :=
        ih n ⟨_, _, hhop, hn', hlt⟩ hn hn'
      have hwayu : ∀ v ∈ n :: steps.map Prod.fst, v = d ∨ ∃ x, hop v = some x ∧ w * q' < x.2 := by
        intro v hv
        rcases List.mem_cons.mp hv with rfl | hv
        · exact .inr ⟨_, hn', hlt⟩
        · exact (hway v hv).imp id fun ⟨x, hx, hxlt⟩ => ⟨x, hx, hlt.trans hxlt⟩
      refine ⟨(n, w) :: steps, hwalk.cons hlink, by rw [quality_cons, hq], ?_, hwayu,
        .of_inl hturn (ends_followTurn_concat hends)⟩
      rw [List.map_cons, List.nodup_cons]
      refine ⟨fun hmem => ?_, hnodup⟩
      rcases hwayu u hmem with rfl | ⟨x, hx, hxlt⟩
      · exact hu rfl
      · rw [hhop] at hx
        cases hx
        exact lt_irrefl _ hxlt

end Following

end Cirradio.BestWalks
