import Mathlib.Algebra.Order.Monoid.Unbundled.Basic
import Mathlib.Order.WellFoundedSet

/-!
# Walks and their qualities

Links lead from a node to a node and have a quality. The quality of a walk is the product
of its links, taken in order; nothing is assumed of the product except where stated, so
it may round. Values at nodes that are attained by walks and that no link exceeds are the
greatest qualities of walks.
-/

namespace Cirradio.BestWalks

variable {V Q : Type}

/-- Links followed from a source. A step is the node it leads to and its quality. -/
inductive Walk (Link : V → V → Q → Prop) (source : V) : List (V × Q) → V → Prop where
  | nil : Walk Link source [] source
  | concat {steps : List (V × Q)} {u v : V} {w : Q} (walk : Walk Link source steps u)
      (link : Link u v w) : Walk Link source (steps ++ [(v, w)]) v

/-- Links lead to the node. -/
def Reaches (Link : V → V → Q → Prop) (source v : V) : Prop :=
  ∃ steps, Walk Link source steps v

theorem Walk.congr {Link Link' : V → V → Q → Prop} {source : V}
    (h : ∀ u v w, Link u v w → Link' u v w) {steps : List (V × Q)} {v : V}
    (hwalk : Walk Link source steps v) : Walk Link' source steps v := by
  induction hwalk with
  | nil => exact .nil
  | concat _ link ih => exact ih.concat (h _ _ _ link)

section Quality
variable [One Q] [Mul Q]

def quality (steps : List (V × Q)) : Q := steps.foldl (fun q step => q * step.2) 1

@[simp] theorem quality_nil : quality ([] : List (V × Q)) = 1 := rfl

theorem quality_concat (steps : List (V × Q)) (v : V) (w : Q) :
    quality (steps ++ [(v, w)]) = quality steps * w := by
  unfold quality
  rw [List.foldl_append]
  rfl

theorem quality_eq_foldl (steps : List (V × Q)) :
    quality steps = (steps.map Prod.snd).foldl (· * ·) 1 := by
  rw [quality, List.foldl_map]

/-- The qualities of the walks to a node. -/
def qualities (Link : V → V → Q → Prop) (source v : V) : Set Q :=
  {q | ∃ steps, Walk Link source steps v ∧ quality steps = q}

/-- Values at nodes, each the quality of a walk, that no link exceeds. -/
structure Settles [LE Q] (Link : V → V → Q → Prop) (source : V) (value : V → Option Q) :
    Prop where
  start : ∃ q, value source = some q ∧ 1 ≤ q
  closed : ∀ u v q w, value u = some q → Link u v w → ∃ q', value v = some q' ∧ q * w ≤ q'
  attained : ∀ v q, value v = some q → q ∈ qualities Link source v

/-- A node has a value exactly when links lead to it. -/
theorem Settles.isSome_iff [LE Q] {Link : V → V → Q → Prop} {source : V} {value : V → Option Q}
    (h : Settles Link source value) (v : V) :
    (value v).isSome ↔ Reaches Link source v := by
  constructor
  · intro hv
    obtain ⟨q, hq⟩ := Option.isSome_iff_exists.mp hv
    obtain ⟨steps, hwalk, -⟩ := h.attained v q hq
    exact ⟨steps, hwalk⟩
  · rintro ⟨steps, hwalk⟩
    induction hwalk with
    | nil =>
      obtain ⟨q, hq, -⟩ := h.start
      exact Option.isSome_iff_exists.mpr ⟨q, hq⟩
    | concat _ link ih =>
      obtain ⟨q, hq⟩ := Option.isSome_iff_exists.mp ih
      obtain ⟨q', hq', -⟩ := h.closed _ _ q _ hq link
      exact Option.isSome_iff_exists.mpr ⟨q', hq'⟩

variable [Preorder Q] [MulRightMono Q]

theorem Settles.quality_le {Link : V → V → Q → Prop} {source : V} {value : V → Option Q}
    (h : Settles Link source value) {steps : List (V × Q)} {v : V}
    (hwalk : Walk Link source steps v) : ∃ q, value v = some q ∧ quality steps ≤ q := by
  induction hwalk with
  | nil => exact h.start
  | concat _ link ih =>
    obtain ⟨q, hq, hle⟩ := ih
    obtain ⟨q', hq', hle'⟩ := h.closed _ _ q _ hq link
    refine ⟨q', hq', ?_⟩
    rw [quality_concat]
    exact (mul_le_mul_left hle _).trans hle'

theorem Settles.isGreatest {Link : V → V → Q → Prop} {source : V} {value : V → Option Q}
    (h : Settles Link source value) {v : V} {q : Q} (hv : value v = some q) :
    IsGreatest (qualities Link source v) q := by
  refine ⟨h.attained v q hv, ?_⟩
  rintro q' ⟨steps, hwalk, rfl⟩
  obtain ⟨q'', hq'', hle⟩ := h.quality_le hwalk
  rwa [Option.some.inj (hv.symm.trans hq'')]

end Quality

section Contracting
variable [Mul Q] [Preorder Q] [MulRightMono Q]

theorem foldl_mul_mono (ws : List Q) {a b : Q} (hab : a ≤ b) :
    ws.foldl (· * ·) a ≤ ws.foldl (· * ·) b := by
  induction ws generalizing a b with
  | nil => exact hab
  | cons w ws ih => exact ih (mul_le_mul_left hab w)

theorem foldl_mul_sublist (hcontract : ∀ q w : Q, q * w ≤ q) {ws ws' : List Q}
    (h : ws.Sublist ws') (q : Q) : ws'.foldl (· * ·) q ≤ ws.foldl (· * ·) q := by
  induction h generalizing q with
  | slnil => exact le_refl q
  | cons w _ ih => exact (ih (q * w)).trans (foldl_mul_mono _ (hcontract q w))
  | cons_cons w _ ih => exact ih (q * w)

theorem foldl_mul_le_self (hcontract : ∀ q w : Q, q * w ≤ q) (ws : List Q) (q : Q) :
    ws.foldl (· * ·) q ≤ q := foldl_mul_sublist hcontract (List.nil_sublist ws) q

variable [One Q]

/-- From finitely many link qualities, walk qualities cannot rise for ever. A longer
product is no better, and among infinitely many words over a finite alphabet one is a
subword of a later one. -/
theorem wellFoundedOn_quality (hcontract : ∀ q w : Q, q * w ≤ q) {W : Set Q} (hW : W.Finite) :
    {q : Q | ∃ steps : List (V × Q), (∀ step ∈ steps, step.2 ∈ W) ∧ quality steps = q}.WellFoundedOn
      (· > ·) := by
  have hwords := Set.PartiallyWellOrderedOn.partiallyWellOrderedOn_sublistForall₂ (· = ·)
    (hW.partiallyWellOrderedOn (r := (· = ·)))
  have himage : ((fun ws : List Q => ws.foldl (· * ·) 1) ''
      {ws : List Q | ∀ w ∈ ws, w ∈ W}).PartiallyWellOrderedOn (· ≥ ·) := by
    apply hwords.image_of_monotone_on
    intro ws _ ws' _ hsub
    obtain ⟨ws'', heq, hsub⟩ := List.sublistForall₂_iff.mp hsub
    rw [List.forall₂_eq_eq_eq] at heq
    rw [heq]
    exact foldl_mul_sublist hcontract hsub 1
  have hwf := himage.wellFoundedOn
  simp only [ge_iff_le, ← lt_iff_le_not_ge] at hwf
  apply hwf.subset
  rintro q ⟨steps, hsteps, rfl⟩
  refine ⟨steps.map Prod.snd, ?_, (quality_eq_foldl steps).symm⟩
  intro w hw
  obtain ⟨step, hstep, rfl⟩ := List.mem_map.mp hw
  exact hsteps step hstep

end Contracting

end Cirradio.BestWalks
