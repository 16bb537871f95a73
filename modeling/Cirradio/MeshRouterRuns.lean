import Cirradio.LinkAdjacency
import Cirradio.MeshRouter
import Cirradio.RouteOptimality

/-!
# Runs of a mesh router

A run is any sequence of calls to a new router. In every state that a run leaves, the
routes are those of a finished search over the links then in the table.
-/

namespace Cirradio.Network
open BestWalks OrderedMaps WhileLoops

inductive RouterCall (Q : Type) where
  | processAdvertisement (lsa : LinkStateAdvertisement Q)
  | updateNeighbor (neighborId : UInt32) (quality : Q)
  | removeNeighbor (neighborId : UInt32)
  deriving DecidableEq, Repr

namespace RouteTable
variable {Q : Type} [Preorder Q] [One Q] [Mul Q]

/-- A table without links has the routes of a search that found the local node only. -/
theorem routed_new (localId : UInt32) : (new localId : RouteTable Q).Routed := by
  refine ⟨(new localId).startSearch.quality, ∅, ?_, ?_, ?_⟩
  · apply (explores_start (new localId)).drop
    intro _ v w hlink
    change (v, w) ∈ (new localId : RouteTable Q).linksOf localId at hlink
    rw [linksOf_new] at hlink
    cases hlink
  · intro d e he
    change (∅ : Std.ExtTreeMap UInt32 (RouteEntry Q))[d]? = some e at he
    simp at he
  · intro d q hq hd
    change d ≠ localId at hd
    change ((∅ : Std.ExtTreeMap UInt32 Q).insert localId 1)[d]? = some q at hq
    rw [getElem?_insert_ite, if_neg hd] at hq
    simp at hq

end RouteTable

namespace MeshRouter
variable {Q : Type}

section Run
variable [LT Q] [DecidableLT Q] [One Q] [Mul Q] [Zero Q]

def call (limit : ℕ) (r : MeshRouter Q) : RouterCall Q → Option (MeshRouter Q)
  | .processAdvertisement lsa => (r.processAdvertisement limit lsa).map Prod.fst
  | .updateNeighbor neighborId quality => r.updateNeighbor limit neighborId quality
  | .removeNeighbor neighborId => r.removeNeighbor limit neighborId

def run (limit : ℕ) (r : MeshRouter Q) (calls : List (RouterCall Q)) : Option (MeshRouter Q) :=
  calls.foldlM (call limit) r

end Run

/-- What a call makes of the router before the routes are computed; `none` when the
advertisement is rejected. -/
def effect (r : MeshRouter Q) : RouterCall Q → Option (MeshRouter Q)
  | .processAdvertisement lsa =>
    if r.rejects lsa then none
    else some { r with
      table := addLinks r.table lsa
      lastSequence := r.lastSequence.insert lsa.nodeId lsa.sequence }
  | .updateNeighbor neighborId quality =>
    some { r with
      table := r.table.updateLink r.localId neighborId quality
      directNeighbors := r.directNeighbors.insert neighborId quality }
  | .removeNeighbor neighborId =>
    some { r with
      table := r.table.removeNode neighborId
      directNeighbors := r.directNeighbors.erase neighborId }

theorem effect_advertisement {r m : MeshRouter Q} {lsa : LinkStateAdvertisement Q}
    (h : r.effect (.processAdvertisement lsa) = some m) :
    r.rejects lsa = false ∧ m = { r with
      table := addLinks r.table lsa
      lastSequence := r.lastSequence.insert lsa.nodeId lsa.sequence } := by
  obtain ⟨hrejects, heq⟩ := Option.ite_none_left_eq_some.mp h
  exact ⟨Bool.eq_false_iff.mpr hrejects, (Option.some.inj heq).symm⟩

theorem addLinks_localId (t : RouteTable Q) (lsa : LinkStateAdvertisement Q) :
    (addLinks t lsa).localId = t.localId := by
  unfold addLinks
  induction lsa.neighbors generalizing t with
  | nil => rfl
  | cons link links ih => exact ih _

theorem effect_localId {r m : MeshRouter Q} {c : RouterCall Q} (h : r.effect c = some m) :
    m.localId = r.localId ∧ m.table.localId = r.table.localId := by
  cases c with
  | processAdvertisement lsa =>
    obtain ⟨-, rfl⟩ := effect_advertisement h
    exact ⟨rfl, addLinks_localId r.table lsa⟩
  | updateNeighbor neighborId quality =>
    cases h
    exact ⟨rfl, rfl⟩
  | removeNeighbor neighborId =>
    cases h
    exact ⟨rfl, rfl⟩

section Calls
variable [Preorder Q] [DecidableLT Q] [One Q] [Mul Q] [Zero Q]

/-- A call that returns either was rejected and changed nothing, or computed the routes
for the links it made. -/
theorem call_cases {limit : ℕ} {r r' : MeshRouter Q} {c : RouterCall Q}
    (h : r.call limit c = some r') :
    (r.effect c = none ∧ r' = r) ∨ ∃ m table, r.effect c = some m ∧
      m.table.recompute limit = some table ∧ r' = { m with table } := by
  cases c with
  | processAdvertisement lsa =>
    obtain ⟨⟨r₁, accepted⟩, hprocess, rfl⟩ := Option.map_eq_some_iff.mp h
    unfold processAdvertisement at hprocess
    split at hprocess
    · next hrejects =>
      cases hprocess
      exact .inl ⟨if_pos hrejects, rfl⟩
    · next hrejects =>
      obtain ⟨table, htable, heq⟩ := Option.bind_eq_some_iff.mp hprocess
      cases heq
      exact .inr ⟨_, table, if_neg hrejects, htable, rfl⟩
  | updateNeighbor neighborId quality =>
    obtain ⟨table, htable, heq⟩ := Option.bind_eq_some_iff.mp h
    cases heq
    exact .inr ⟨_, table, rfl, htable, rfl⟩
  | removeNeighbor neighborId =>
    obtain ⟨table, htable, heq⟩ := Option.bind_eq_some_iff.mp h
    cases heq
    exact .inr ⟨_, table, rfl, htable, rfl⟩

theorem call_localId {limit : ℕ} {r r' : MeshRouter Q} {c : RouterCall Q}
    (h : r.call limit c = some r') : r'.localId = r.localId := by
  rcases call_cases h with ⟨-, rfl⟩ | ⟨m, table, heffect, -, rfl⟩
  · rfl
  · exact (effect_localId heffect).1

theorem exists_returns_processAdvertisement {r : MeshRouter Q}
    {lsa : LinkStateAdvertisement Q}
    (h : r.rejects lsa = true ∨
      ∃ table, Returns (fun limit => (addLinks r.table lsa).recompute limit) table) :
    ∃ result, Returns (fun limit => r.processAdvertisement limit lsa) result := by
  unfold processAdvertisement
  by_cases hrejects : r.rejects lsa
  · simp only [hrejects, if_true]
    exact ⟨_, .pure _⟩
  · obtain ⟨table, htable⟩ := h.resolve_left hrejects
    simp only [hrejects, Bool.false_eq_true, if_false]
    exact ⟨_, htable.bind (.pure _)⟩

theorem exists_returns_call (r : MeshRouter Q) (c : RouterCall Q)
    (h : ∀ t : RouteTable Q, ∃ t', Returns (fun limit => t.recompute limit) t') :
    ∃ r', Returns (fun limit => r.call limit c) r' := by
  cases c with
  | processAdvertisement lsa =>
    obtain ⟨result, hresult⟩ := exists_returns_processAdvertisement
      (.inr (h (addLinks r.table lsa)))
    exact ⟨result.1, hresult.map Prod.fst⟩
  | updateNeighbor neighborId quality =>
    obtain ⟨t', ht'⟩ := h (r.table.updateLink r.localId neighborId quality)
    exact ⟨_, ht'.bind (.pure _)⟩
  | removeNeighbor neighborId =>
    obtain ⟨t', ht'⟩ := h (r.table.removeNode neighborId)
    exact ⟨_, ht'.bind (.pure _)⟩

/-- The table is that of the router, with the routes of a finished search. -/
structure Current (r : MeshRouter Q) : Prop where
  localId : r.table.localId = r.localId
  routed : r.table.Routed

omit [DecidableLT Q] [Zero Q] in
theorem current_new (localId : UInt32) : (new localId : MeshRouter Q).Current :=
  ⟨rfl, RouteTable.routed_new localId⟩

theorem Current.call {limit : ℕ} {r r' : MeshRouter Q} {c : RouterCall Q} (h : r.Current)
    (hcall : r.call limit c = some r') : r'.Current := by
  rcases call_cases hcall with ⟨-, rfl⟩ | ⟨m, table, heffect, hrecompute, rfl⟩
  · exact h
  · obtain ⟨hlocal, -, hrouted⟩ := RouteTable.routed_of_recompute hrecompute
    obtain ⟨hid, htable⟩ := effect_localId heffect
    exact ⟨hlocal.trans (htable.trans (h.localId.trans hid.symm)), hrouted⟩

theorem run_concat (limit : ℕ) (r : MeshRouter Q) (calls : List (RouterCall Q))
    (c : RouterCall Q) :
    r.run limit (calls ++ [c]) = (r.run limit calls).bind fun r' => r'.call limit c := by
  unfold run
  rw [List.foldlM_append]
  simp

/-- Induction along the runs that return. The invariant relates the calls made so far to
the state they leave. -/
theorem run_induction {limit : ℕ} {r : MeshRouter Q}
    (Inv : List (RouterCall Q) → MeshRouter Q → Prop) (start : Inv [] r)
    (next : ∀ calls r₁ c r₂, r.run limit calls = some r₁ → Inv calls r₁ →
      r₁.call limit c = some r₂ → Inv (calls ++ [c]) r₂)
    {calls : List (RouterCall Q)} {r' : MeshRouter Q} (h : r.run limit calls = some r') :
    Inv calls r' := by
  induction calls using List.reverseRecOn generalizing r' with
  | nil =>
    cases h
    exact start
  | append_singleton calls c ih =>
    rw [run_concat] at h
    obtain ⟨r₁, hr₁, hcall⟩ := Option.bind_eq_some_iff.mp h
    exact next calls r₁ c r' hr₁ (ih hr₁) hcall

theorem Current.run {limit : ℕ} {r r' : MeshRouter Q} {calls : List (RouterCall Q)}
    (h : r.Current) (hrun : r.run limit calls = some r') : r'.Current ∧ r'.localId = r.localId :=
  run_induction (fun _ r' => r'.Current ∧ r'.localId = r.localId) ⟨h, rfl⟩
    (fun _ _ _ _ _ h₁ hcall => ⟨h₁.1.call hcall, (call_localId hcall).trans h₁.2⟩) hrun

end Calls

section Contracting
variable [LinearOrder Q] [One Q] [Mul Q] [Zero Q] [MulRightMono Q]

theorem exists_returns_run (hcontract : ∀ q w : Q, q * w ≤ q) (r : MeshRouter Q)
    (calls : List (RouterCall Q)) : ∃ r', Returns (fun limit => r.run limit calls) r' := by
  obtain ⟨r', hreturns, -⟩ := exists_returns_foldlM (fun _ => True) calls
    (f := fun limit (r : MeshRouter Q) c => r.call limit c) (u := r)
    (fun c _ r₁ _ => by
      obtain ⟨r₂, hr₂⟩ := exists_returns_call r₁ c
        (RouteTable.exists_returns_recompute_of_contracting hcontract)
      exact ⟨r₂, hr₂, trivial⟩) trivial
  exact ⟨r', hreturns⟩

end Contracting

/-- Every run returns, and its routes are best and realised: with link qualities in their
documented range, the route to a node is there exactly when links lead to it, its quality
is the greatest of all walks, and its first hop and number of hops are those of a walk of
that quality. -/
theorem run_optimal (localId : UInt32) (calls : List (RouterCall UnitQuality)) :
    ∃ r, Returns (fun limit => (new localId).run limit calls) r ∧
      Optimal r.table.Link localId r.routeTo := by
  obtain ⟨r, hreturns⟩ := exists_returns_run UnitQuality.mul_le_self (new localId) calls
  obtain ⟨n, hn⟩ := hreturns
  obtain ⟨hcurrent, hid⟩ := (current_new localId).run (hn n (le_refl n))
  have hoptimal := hcurrent.routed.optimal UnitQuality.mul_le_self
  rw [hcurrent.localId, hid] at hoptimal
  exact ⟨r, ⟨n, hn⟩, hoptimal⟩

end MeshRouter
end Cirradio.Network
