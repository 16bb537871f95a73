import Mathlib.Data.Set.Basic
import Mathlib.Tactic.Common

/-!
# Bounded retries

Candidates are tried one after the other until one is not listed. After the last attempt
its candidate is taken anyway. A loop may look at another value than the candidate of its
attempt, such as the candidate of the attempt before.
-/

namespace Cirradio.Retries

universe u
variable {α : Type u}

/-- The candidate of the first attempt whose checked value is not listed, or of the last
attempt. -/
def Picked (listed : Set α) (checked candidate : ℕ → α) (last : ℕ) (x : α) : Prop :=
  ∃ a ≤ last, x = candidate a ∧ (∀ b < a, checked b ∈ listed) ∧ (checked a ∈ listed → a = last)

/-- The candidate of the attempt before, with an old value before the first. -/
def late (old : α) (candidate : ℕ → α) : ℕ → α
  | 0 => old
  | a + 1 => candidate a

variable {listed : Set α} {checked candidate : ℕ → α} {last : ℕ} {x y : α}

theorem Picked.unique (h : Picked listed checked candidate last x)
    (h' : Picked listed checked candidate last y) : x = y := by
  obtain ⟨a, ha, rfl, hbefore, hstop⟩ := h
  obtain ⟨b, hb, rfl, hbefore', hstop'⟩ := h'
  rcases Nat.lt_trichotomy a b with hlt | heq | hgt
  · have hend := hstop (hbefore' a hlt)
    omega
  · rw [heq]
  · have hend := hstop' (hbefore b hgt)
    omega

theorem picked_zero (h : checked 0 ∉ listed) :
    Picked listed checked candidate last (candidate 0) :=
  ⟨0, Nat.zero_le _, rfl, fun b hb => absurd hb (Nat.not_lt_zero b), fun h' => absurd h' h⟩

theorem picked_last (h : ∀ b < last, checked b ∈ listed) :
    Picked listed checked candidate last (candidate last) :=
  ⟨last, Nat.le_refl _, rfl, h, fun _ => rfl⟩

theorem Picked.all_listed (h : Picked listed candidate candidate last x) (hx : x ∈ listed) :
    ∀ a ≤ last, candidate a ∈ listed := by
  obtain ⟨a, -, rfl, hbefore, hstop⟩ := h
  intro b hb
  obtain rfl := hstop hx
  rcases Nat.lt_or_eq_of_le hb with hlt | rfl
  · exact hbefore b hlt
  · exact hx

/-- When checking late finds the same: the old value and the first candidate are not listed,
or the old value is listed and the candidate after the first one not listed is the same again;
the rest is candidates that are all listed. -/
def LateAgrees (listed : Set α) (old : α) (candidate : ℕ → α) (last : ℕ) : Prop :=
  (old ∉ listed → candidate 0 ∈ listed →
    (∀ a ≤ last, candidate a ∈ listed) ∧ candidate last = candidate 0) ∧
  (old ∈ listed → ∀ a < last, (∀ b < a, candidate b ∈ listed) → candidate a ∉ listed →
    candidate (a + 1) = candidate a)

variable {old : α}

theorem picked_late_of_notMem (hold : old ∉ listed)
    (h : Picked listed (late old candidate) candidate last x) : x = candidate 0 :=
  h.unique (picked_zero hold)

/-- With the old value listed, it takes the candidate after the first that is not listed. -/
theorem picked_late_of_mem (hold : old ∈ listed)
    (h : Picked listed (late old candidate) candidate last x) :
    (∀ b < last, candidate b ∈ listed) ∧ x = candidate last ∨
      ∃ a < last, (∀ b < a, candidate b ∈ listed) ∧ candidate a ∉ listed ∧
        x = candidate (a + 1) := by
  obtain ⟨k, hk, rfl, hbefore, hstop⟩ := h
  have hearlier : ∀ b, b + 1 < k → candidate b ∈ listed := fun b hb => hbefore (b + 1) hb
  cases k with
  | zero =>
    have hend := hstop hold
    refine .inl ⟨fun b hb => ?_, by rw [← hend]⟩
    omega
  | succ a =>
    by_cases hmem : candidate a ∈ listed
    · have hend := hstop hmem
      refine .inl ⟨fun b hb => ?_, by rw [hend]⟩
      rcases Nat.lt_or_eq_of_le (Nat.le_of_lt_succ (hend ▸ hb)) with hlt | rfl
      · exact hearlier b (by omega)
      · exact hmem
    · exact .inr ⟨a, hk, fun b hb => hearlier b (by omega), hmem, rfl⟩

/-- Checking late takes the candidate of the first attempt not listed exactly in these
cases. -/
theorem picked_iff_lateAgrees (h : Picked listed (late old candidate) candidate last x) :
    Picked listed candidate candidate last x ↔ LateAgrees listed old candidate last := by
  by_cases hold : old ∈ listed
  · rcases picked_late_of_mem hold h with ⟨hall, rfl⟩ | ⟨a, ha, hbefore, hfree, rfl⟩
    · refine iff_of_true (picked_last hall) ⟨fun hnot => absurd hold hnot, ?_⟩
      exact fun _ a ha _ hfree => absurd (hall a ha) hfree
    · have hpick : Picked listed candidate candidate last (candidate a) :=
        ⟨a, Nat.le_of_lt ha, rfl, hbefore, fun hmem => absurd hmem hfree⟩
      constructor
      · intro hpicked
        refine ⟨fun hnot => absurd hold hnot, fun _ b _ hbefore' hfree' => ?_⟩
        have hsame : b = a := by
          rcases Nat.lt_trichotomy b a with hlt | heq | hgt
          · exact absurd (hbefore b hlt) hfree'
          · exact heq
          · exact absurd (hbefore' a hgt) hfree
        rw [hsame]
        exact hpicked.unique hpick
      · intro hagrees
        rw [hagrees.2 hold a ha hbefore hfree]
        exact hpick
  · obtain rfl := picked_late_of_notMem hold h
    by_cases hfirst : candidate 0 ∈ listed
    · constructor
      · intro hpicked
        have hall := hpicked.all_listed hfirst
        refine ⟨fun _ _ => ⟨hall, ?_⟩, fun hmem => absurd hmem hold⟩
        exact (picked_last fun b hb => hall b (Nat.le_of_lt hb)).unique hpicked
      · intro hagrees
        obtain ⟨hall, hlast⟩ := hagrees.1 hold hfirst
        rw [← hlast]
        exact picked_last fun b hb => hall b (Nat.le_of_lt hb)
    · exact iff_of_true (picked_zero hfirst)
        ⟨fun _ hmem => absurd hmem hfirst, fun hmem => absurd hmem hold⟩

end Cirradio.Retries
