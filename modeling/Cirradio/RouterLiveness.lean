import Cirradio.LinkHistory
import Mathlib.Data.Finite.Sum

/-!
# Advertisements that hang the router

An advertisement is handled in finitely many turns when no walk from the local node gets
better by a further link between two other nodes, whatever the advertised qualities are
otherwise. A single link between two other nodes that raises a quality lets these become
predecessors of each other, and then the trace back to the first hop does not end.
-/

namespace Cirradio.Network
open BestWalks OrderedMaps WhileLoops

namespace RouteTable
variable {predecessor : Std.ExtTreeMap UInt32 UInt32} {root v c a b : UInt32} {n : ℕ}

theorem Trace.not_of_cycle (hab : predecessor[a]? = some b) (hba : predecessor[b]? = some a)
    (ha : a ≠ root) (hb : b ≠ root) (hv : v = a ∨ v = b)
    (h : Trace predecessor root v c n) : False := by
  induction h with
  | last h =>
    rcases hv with rfl | rfl
    · exact hb (Option.some.inj (hab.symm.trans h))
    · exact ha (Option.some.inj (hba.symm.trans h))
  | step h _ _ ih =>
    rcases hv with rfl | rfl
    · exact ih (.inr (Option.some.inj (h.symm.trans hab)))
    · exact ih (.inl (Option.some.inj (h.symm.trans hba)))

end RouteTable

/-- The binary floating-point numbers zero, the powers of two from 1 up, infinity and NaN.
Products of these are exact until they overflow. -/
inductive PowerOfTwo where
  | zero
  | power (exponent : Fin 128)
  | infinity
  | nan
  deriving DecidableEq, Repr

namespace PowerOfTwo

/-- The position among the numbers, from zero to infinity. -/
def level : PowerOfTwo → Option ℕ
  | zero => some 0
  | power exponent => some (exponent + 1)
  | infinity => some 129
  | nan => none

/-- NaN compares with no other number. -/
def Le (a b : PowerOfTwo) : Prop :=
  a = b ∨ ∃ i ∈ a.level, ∃ j ∈ b.level, i ≤ j

instance (a b : PowerOfTwo) : Decidable (Le a b) :=
  match ha : a.level, hb : b.level with
  | some i, some j => decidable_of_iff (a = b ∨ i ≤ j) (by simp [Le, ha, hb])
  | none, _ => decidable_of_iff (a = b) (by simp [Le, ha])
  | some _, none => decidable_of_iff (a = b) (by simp [Le, hb])

instance : Preorder PowerOfTwo where
  le := Le
  le_refl a := .inl rfl
  le_trans a b c hab hbc := by
    rcases hab with rfl | ⟨i, hi, j, hj, hij⟩
    · exact hbc
    · rcases hbc with rfl | ⟨j', hj', k, hk, hjk⟩
      · exact .inr ⟨i, hi, j, hj, hij⟩
      · cases Option.mem_unique hj hj'
        exact .inr ⟨i, hi, k, hk, hij.trans hjk⟩

instance : DecidableLT PowerOfTwo := fun a b =>
  inferInstanceAs (Decidable (Le a b ∧ ¬ Le b a))

instance : Zero PowerOfTwo := ⟨zero⟩
instance : One PowerOfTwo := ⟨power 0⟩

def mul : PowerOfTwo → PowerOfTwo → PowerOfTwo
  | nan, _ => nan
  | _, nan => nan
  | zero, infinity => nan
  | infinity, zero => nan
  | zero, _ => zero
  | _, zero => zero
  | infinity, _ => infinity
  | _, infinity => infinity
  | power i, power j => if h : i.val + j.val < 128 then power ⟨i + j, h⟩ else infinity

instance : Mul PowerOfTwo := ⟨mul⟩

instance : Finite PowerOfTwo := by
  apply Finite.of_injective fun q : PowerOfTwo =>
    (match q with
    | zero => .inl 0
    | power exponent => .inr exponent
    | infinity => .inl 1
    | nan => .inl 2 : Fin 3 ⊕ Fin 128)
  rintro (_ | i | _ | _) (_ | j | _ | _) h <;> simp_all

theorem mul_one (q : PowerOfTwo) : q * 1 = q := by
  change mul q (power 0) = q
  cases q with
  | power exponent => simp [mul, exponent.isLt]
  | zero => rfl
  | infinity => rfl
  | nan => rfl

/-- What an advertisement may carry. -/
def IsFinite (q : PowerOfTwo) : Prop := q ≠ nan ∧ q ≠ infinity

end PowerOfTwo

namespace MeshRouter
open RouteTable
variable {Q : Type}

/-- No advertisement whose qualities are all admitted hangs a router. -/
def AdvertisementsEnd (Q : Type) [LT Q] [DecidableLT Q] [One Q] [Mul Q] [Zero Q]
    (admitted : Q → Prop) : Prop :=
  ∀ (limit : ℕ) (localId : UInt32) (calls : List (RouterCall Q)) (r : MeshRouter Q)
    (lsa : LinkStateAdvertisement Q), (new localId).run limit calls = some r →
    (∀ link ∈ lsa.neighbors, admitted link.quality) →
    ∃ result, Returns (fun limit => r.processAdvertisement limit lsa) result

/-- Where qualities cannot rise for ever, as with machine numbers, an advertisement ends if
it is rejected, or if with its links no walk to another node gets better by a further link
to another node. -/
theorem processAdvertisement_ends [Preorder Q] [WellFoundedGT Q] [DecidableLT Q] [One Q]
    [Mul Q] [Zero Q] (r : MeshRouter Q) (lsa : LinkStateAdvertisement Q)
    (h : r.rejects lsa = true ∨ (addLinks r.table lsa).Damped) :
    ∃ result, Returns (fun limit => r.processAdvertisement limit lsa) result :=
  exists_returns_processAdvertisement (h.imp id fun hdamped => hdamped.exists_returns_recompute)

/-- Node 2 advertises links of quality 1 to nodes 1 and 3. -/
def plainAdvertisement : LinkStateAdvertisement PowerOfTwo := ⟨2, [⟨1, 1⟩, ⟨3, 1⟩], 1, 0⟩

theorem plainAdvertisement_damped : (addLinks (new 1).table plainAdvertisement).Damped := by
  intro u _ q _ v w hlink _ _
  have hmem := mem_cell.mpr hlink
  have hempty : (new 1 : MeshRouter PowerOfTwo).table.cell u v = [] := by
    change ((RouteTable.new 1).linksOf u).filter _ = []
    rw [linksOf_new]
    rfl
  rw [cell_addLinks, hempty] at hmem
  cases hreports : plainAdvertisement.reports u v with
  | none =>
    rw [hreports] at hmem
    cases hmem
  | some q' =>
    rw [hreports] at hmem
    have hw : w = q' := (Prod.mk.inj (List.mem_singleton.mp hmem)).2
    have hone : q' = 1 := by
      simp only [plainAdvertisement, LinkStateAdvertisement.reports,
        LinkStateAdvertisement.listed] at hreports
      split_ifs at hreports <;> simp_all
    rw [hw, hone, PowerOfTwo.mul_one]

theorem processAdvertisement_ends_plain : ∃ result,
    Returns (fun limit => (new 1).processAdvertisement limit plainAdvertisement) result :=
  processAdvertisement_ends (new 1) plainAdvertisement (.inr plainAdvertisement_damped)

/-- Node 1 has a link of quality 1 to node 2. -/
def measuredRun : List (RouterCall PowerOfTwo) := [.updateNeighbor 2 1]

/-- Node 2 advertises a link of quality 2 to node 3. -/
def raisingAdvertisement : LinkStateAdvertisement PowerOfTwo := ⟨2, [⟨3, .power 1⟩], 1, 0⟩

/-- The search over the links of the advertisement ends with nodes 2 and 3 as predecessors
of each other. -/
theorem measuredRun_search : ∃ r s limit, (new 1).run 9 measuredRun = some r ∧
    r.rejects raisingAdvertisement = false ∧ r.table.localId = 1 ∧
    loop (fun s => some ((addLinks r.table raisingAdvertisement).relaxTurn s)) limit
      (addLinks r.table raisingAdvertisement).startSearch = some s ∧
    s.quality[(3 : UInt32)]?.isSome ∧ s.predecessor[(3 : UInt32)]? = some 2 ∧
    s.predecessor[(2 : UInt32)]? = some 3 := by
  have hrun : ((new 1).run 9 measuredRun).bind (fun r =>
      (loop (fun s => some ((addLinks r.table raisingAdvertisement).relaxTurn s)) 400
        (addLinks r.table raisingAdvertisement).startSearch).map fun s =>
        (r.rejects raisingAdvertisement, r.table.localId, s.quality[(3 : UInt32)]?.isSome,
          s.predecessor[(3 : UInt32)]?, s.predecessor[(2 : UInt32)]?)) =
      some (false, 1, true, some 2, some 3) := by decide +kernel
  obtain ⟨r, hr, hsearch⟩ := Option.bind_eq_some_iff.mp hrun
  obtain ⟨s, hs, heq⟩ := Option.map_eq_some_iff.mp hsearch
  simp only [Prod.mk.injEq] at heq
  obtain ⟨hrejects, hlocal, hfound, hthree, htwo⟩ := heq
  exact ⟨r, s, 400, hr, hrejects, hlocal, hs, hfound, hthree, htwo⟩

/-- Node 2's link of quality 2 to node 3 hangs node 1. -/
theorem not_advertisementsEnd : ¬ AdvertisementsEnd PowerOfTwo PowerOfTwo.IsFinite := by
  intro h
  obtain ⟨r, s, limit, hrun, hrejects, hlocal, hloop, hfound, hthree, htwo⟩ :=
    measuredRun_search
  obtain ⟨result, n, hn⟩ := h 9 1 measuredRun r raisingAdvertisement hrun
    (fun link hlink => by rw [List.mem_singleton.mp hlink]; exact ⟨nofun, nofun⟩)
  have hprocess : r.processAdvertisement n raisingAdvertisement = some result := hn n (le_refl n)
  unfold processAdvertisement at hprocess
  rw [hrejects, if_neg Bool.false_ne_true] at hprocess
  obtain ⟨table, htable, -⟩ := Option.bind_eq_some_iff.mp hprocess
  obtain ⟨s', hloop', -, hroutes, -, -⟩ := recompute_eq_some htable
  rw [← loop_unique hloop hloop', addLinks_localId, hlocal] at hroutes
  obtain ⟨q, hq⟩ := Option.isSome_iff_exists.mp hfound
  obtain ⟨e, he⟩ := hroutes.found 3 q hq (by decide)
  obtain ⟨k, htrace, -⟩ := (hroutes.entry 3 e he).trace
  exact htrace.not_of_cycle hthree htwo (by decide) (by decide) (.inl rfl)

end MeshRouter
end Cirradio.Network
