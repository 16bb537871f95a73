import Cirradio.CallRuns
import Mathlib.Data.Set.Function

/-!
# Single-use slots

A table holds at most one value for each key. Issuing a value overwrites the slot
of its key; redeeming a key empties the slot and answers with what it held. The
results say where a redeemed value comes from: from exactly one issue of that key,
with no other operation on the key in between, so that no issued value is redeemed
twice.
-/

namespace Cirradio.SingleUseSlots
open CallRuns

universe u v
variable {κ : Type u} {α : Type v}

/-- An operation on the table. `skip` is any operation that touches no slot. -/
inductive Op (κ : Type u) (α : Type v) where
  | issue (k : κ) (v : α)
  | redeem (k : κ)
  | skip
  deriving DecidableEq, Repr

/-- The key whose slot an operation writes. -/
def Op.key : Op κ α → Option κ
  | .issue k _ => some k
  | .redeem k => some k
  | .skip => none

/-- No operation strictly between two positions is on the key. -/
def Quiet (ops : List (Op κ α)) (k : κ) (i j : ℕ) : Prop :=
  ∀ m, i < m → m < j → ∀ op, ops[m]? = some op → op.key ≠ some k

theorem Quiet.concat {ops : List (Op κ α)} {k : κ} {i : ℕ} (h : Quiet ops k i ops.length)
    {op : Op κ α} (hop : op.key ≠ some k) :
    Quiet (ops ++ [op]) k i (ops ++ [op]).length := by
  intro m him hm op' hop'
  rcases Nat.lt_or_ge m ops.length with hlt | hge
  · rw [List.getElem?_append_left hlt] at hop'
    exact h m him hlt op' hop'
  · have hme : m = ops.length := by
      simp only [List.length_append, List.length_singleton] at hm
      omega
    subst hme
    rw [List.getElem?_concat_length] at hop'
    cases hop'
    exact hop

/-- An operation on the key ends the quiet stretch, so two redemptions that follow
the same operation quietly are the same one. -/
theorem redeem_unique {ops : List (Op κ α)} {i i' j : ℕ} {k : κ}
    (hi : ops[i]? = some (.redeem k)) (hi' : ops[i']? = some (.redeem k))
    (hj : j < i) (hj' : j < i') (hq : Quiet ops k j i) (hq' : Quiet ops k j i') : i = i' := by
  rcases Nat.lt_trichotomy i i' with hlt | heq | hgt
  · exact absurd rfl (hq' i hj hlt _ hi)
  · exact heq
  · exact absurd rfl (hq i' hj' hgt _ hi')

variable [DecidableEq κ]

/-- One operation; the reply is the value redeemed. -/
def step (t : κ → Option α) : Op κ α → (κ → Option α) × Option α
  | .issue k v => (Function.update t k (some v), none)
  | .redeem k => (Function.update t k none, t k)
  | .skip => (t, none)

/-- The table before any operation. -/
def empty : κ → Option α := fun _ => none

/-- The operation at a position redeems the value. -/
def Redeems (ops : List (Op κ α)) (i : ℕ) (k : κ) (v : α) : Prop :=
  ops[i]? = some (.redeem k) ∧ after step empty (ops.take i) k = some v

theorem step_of_key_ne (t : κ → Option α) {op : Op κ α} {k : κ} (h : op.key ≠ some k) :
    (step t op).1 k = t k := by
  cases op with
  | issue k' v =>
    have hk : k ≠ k' := fun he => h (congrArg some he.symm)
    simp [step, Function.update_of_ne hk]
  | redeem k' =>
    have hk : k ≠ k' := fun he => h (congrArg some he.symm)
    simp [step, Function.update_of_ne hk]
  | skip => rfl

theorem after_of_keys_ne (t : κ → Option α) (ops : List (Op κ α)) {k : κ}
    (h : ∀ op ∈ ops, op.key ≠ some k) : after step t ops k = t k := by
  induction ops generalizing t with
  | nil => rfl
  | cons op ops ih =>
    rw [after_cons, ih _ (fun op' h' => h op' (List.mem_cons_of_mem _ h')),
      step_of_key_ne t (h op List.mem_cons_self)]

/-- A slot is as it was, or as the last operation on its key left it. -/
theorem after_cases (t : κ → Option α) (ops : List (Op κ α)) (k : κ) :
    (∀ op ∈ ops, op.key ≠ some k) ∨
      (∃ v, .issue k v ∈ ops ∧ after step t ops k = some v) ∨
      (.redeem k ∈ ops ∧ after step t ops k = none) := by
  induction ops using List.reverseRecOn with
  | nil => simp
  | append_singleton ops op ih =>
    rw [after_concat]
    by_cases hop : op.key = some k
    · cases op with
      | issue k' v =>
        cases hop
        exact .inr (.inl ⟨v, by simp, by simp [step]⟩)
      | redeem k' =>
        cases hop
        exact .inr (.inr ⟨by simp, by simp [step]⟩)
      | skip => cases hop
    · rw [step_of_key_ne _ hop]
      rcases ih with h | ⟨v, hv, h⟩ | ⟨hr, h⟩
      · left
        intro op' h'
        rcases List.mem_append.mp h' with h' | h'
        · exact h op' h'
        · rwa [List.mem_singleton.mp h']
      · exact .inr (.inl ⟨v, List.mem_append_left _ hv, h⟩)
      · exact .inr (.inr ⟨List.mem_append_left _ hr, h⟩)

/-- What a slot holds was put there by an issue, and no operation on that key came
after it. -/
theorem held_of_issue (ops : List (Op κ α)) {k : κ} {v : α}
    (h : after step empty ops k = some v) :
    ∃ i, ops[i]? = some (.issue k v) ∧ Quiet ops k i ops.length := by
  revert k v
  -- one operation either writes the slot, and is then the issue sought, or leaves it
  refine run_induction step empty
    (fun ops t => ∀ {k v}, t k = some v →
      ∃ i, ops[i]? = some (.issue k v) ∧ Quiet ops k i ops.length) ?_ ?_ ops
  · intro k v h
    simp [empty] at h
  · intro ops op ih k v h
    by_cases hop : op.key = some k
    · cases op with
      | issue k' w =>
        cases hop
        have hw : w = v := by simpa [step] using h
        subst hw
        refine ⟨ops.length, by simp, ?_⟩
        intro m hlt hm
        simp only [List.length_append, List.length_singleton] at hm
        omega
      | redeem k' =>
        cases hop
        simp [step] at h
      | skip => cases hop
    · rw [step_of_key_ne _ hop] at h
      obtain ⟨i, hi, hq⟩ := ih h
      have hlt : i < ops.length := (List.getElem?_eq_some_iff.mp hi).1
      exact ⟨i, by rw [List.getElem?_append_left hlt, hi], hq.concat hop⟩

/-- A redeemed value was issued earlier for the same key, with no operation on the
key in between. -/
theorem Redeems.issued {ops : List (Op κ α)} {i : ℕ} {k : κ} {v : α}
    (h : Redeems ops i k v) :
    ∃ j, j < i ∧ ops[j]? = some (.issue k v) ∧ Quiet ops k j i := by
  obtain ⟨hop, hheld⟩ := h
  have hi : i < ops.length := (List.getElem?_eq_some_iff.mp hop).1
  obtain ⟨j, hj, hq⟩ := held_of_issue _ hheld
  have hlen : (ops.take i).length = i := List.length_take_of_le hi.le
  have hji : j < i := hlen ▸ (List.getElem?_eq_some_iff.mp hj).1
  refine ⟨j, hji, by rwa [List.getElem?_take_of_lt hji] at hj, ?_⟩
  intro m hjm hmi op' hop'
  refine hq m hjm (by omega) op' ?_
  rw [List.getElem?_take_of_lt hmi, hop']

/-- Injective agreement: each redemption has its own issue. -/
theorem injective_agreement (ops : List (Op κ α)) :
    ∃ m : ℕ → ℕ,
      (∀ i k v, Redeems ops i k v →
        m i < i ∧ ops[m i]? = some (.issue k v) ∧ Quiet ops k (m i) i) ∧
      Set.InjOn m {i | ∃ k v, Redeems ops i k v} := by
  classical
  have hex : ∀ i, ∃ j, ∀ k v, Redeems ops i k v →
      j < i ∧ ops[j]? = some (.issue k v) ∧ Quiet ops k j i := by
    intro i
    by_cases h : ∃ k v, Redeems ops i k v
    · obtain ⟨k, v, h⟩ := h
      obtain ⟨j, hj⟩ := h.issued
      refine ⟨j, fun k' v' h' => ?_⟩
      cases h.1.symm.trans h'.1
      cases h.2.symm.trans h'.2
      exact hj
    · exact ⟨0, fun k v h' => absurd ⟨k, v, h'⟩ h⟩
  choose m hm using hex
  refine ⟨m, hm, ?_⟩
  rintro i ⟨k, v, h⟩ i' ⟨k', v', h'⟩ heq
  obtain ⟨hlt, hissue, hq⟩ := hm i k v h
  obtain ⟨hlt', hissue', hq'⟩ := hm i' k' v' h'
  rw [← heq] at hlt' hissue' hq'
  cases hissue.symm.trans hissue'
  exact redeem_unique h.1 h'.1 hlt hlt' hq hq'

end Cirradio.SingleUseSlots
