import Mathlib.Data.Fintype.EquivFin
import Mathlib.Data.Nat.ModEq

/-!
# Turns by a counter that wraps

A counter below `M` gives `n` parties their turns by its remainder. A window of `n` turns
gives one to each of them, unless the counter wraps inside it: then only if `n` divides `M`.
-/

namespace CounterWindows

/-- Whose turn it is `k` steps after the counter stood at `a`. -/
def turn (M n a k : ℕ) : ℕ := (a + k) % M % n

variable {M n a : ℕ}

/-- Nobody has two turns of `n`. -/
def Apart (M n a : ℕ) : Prop := Set.InjOn (turn M n a) (Set.Iio n)

theorem turn_eq (h : a + n ≤ M ∨ n ∣ M) {k : ℕ} (hk : k < n) : turn M n a k = (a + k) % n := by
  rcases h with hfits | hdvd
  · rw [turn, Nat.mod_eq_of_lt (by omega : a + k < M)]
  · exact Nat.mod_mod_of_dvd _ hdvd

theorem apart_of_fits_or_dvd (h : a + n ≤ M ∨ n ∣ M) : Apart M n a := by
  intro k hk l hl heq
  rw [turn_eq h hk, turn_eq h hl] at heq
  have hmod : k % n = l % n := Nat.ModEq.add_left_cancel' a heq
  rwa [Nat.mod_eq_of_lt hk, Nat.mod_eq_of_lt hl] at hmod

/-- Across the wrap two turns meet: one at the end of the count, `j` before the wrap, and
one after it. -/
theorem exists_turn_eq (ha : a < M) (hwraps : M < a + n) (hdvd : ¬ n ∣ M) :
    ∃ k l, k < l ∧ l < n ∧ turn M n a k = turn M n a l := by
  have hr : 0 < M % n := Nat.pos_of_ne_zero fun h => hdvd (Nat.dvd_of_mod_eq_zero h)
  have hrn : M % n < n := Nat.mod_lt _ (by omega)
  have hrM : M % n ≤ M := Nat.mod_le M n
  obtain ⟨j, hj, hjr, hjm, hmax⟩ :
      ∃ j, 0 < j ∧ j ≤ M % n ∧ j ≤ M - a ∧ (M - a) + (M % n - j) < n := by
    rcases le_total (M % n) (M - a) with h | h
    · exact ⟨M % n, hr, le_rfl, h, by omega⟩
    · exact ⟨M - a, by omega, h, le_rfl, by omega⟩
  refine ⟨M - a - j, M - a + (M % n - j), by omega, hmax, ?_⟩
  have hbefore : turn M n a (M - a - j) = M % n - j := by
    have hsum : a + (M - a - j) = M - j := by omega
    have hsplit : M - j = n * (M / n) + (M % n - j) := by
      have := Nat.div_add_mod M n
      omega
    rw [turn, hsum, Nat.mod_eq_of_lt (by omega : M - j < M), hsplit, Nat.mul_add_mod,
      Nat.mod_eq_of_lt (by omega)]
  have hafter : turn M n a (M - a + (M % n - j)) = M % n - j := by
    have hsum : a + (M - a + (M % n - j)) = M + (M % n - j) := by omega
    rw [turn, hsum, Nat.add_mod_left, Nat.mod_eq_of_lt (by omega : M % n - j < M),
      Nat.mod_eq_of_lt (by omega)]
  rw [hbefore, hafter]

theorem apart_iff (ha : a < M) : Apart M n a ↔ a + n ≤ M ∨ n ∣ M := by
  refine ⟨fun happart => ?_, apart_of_fits_or_dvd⟩
  by_contra hnot
  rw [not_or, not_le] at hnot
  obtain ⟨k, l, hkl, hl, heq⟩ := exists_turn_eq ha hnot.1 hnot.2
  exact hkl.ne (happart (hkl.trans hl) hl heq)

/-- Among `n` turns, nobody has two exactly when everybody has one. -/
theorem apart_iff_existsUnique (hn : 0 < n) :
    Apart M n a ↔ ∀ t < n, ∃! k, k < n ∧ turn M n a k = t := by
  let f : Fin n → Fin n := fun k => ⟨turn M n a k, Nat.mod_lt _ hn⟩
  have hapart : Apart M n a ↔ Function.Injective f := by
    constructor
    · intro h k l heq
      exact Fin.ext (h k.isLt l.isLt (Fin.val_eq_of_eq heq))
    · intro h k hk l hl heq
      have := @h ⟨k, hk⟩ ⟨l, hl⟩ (Fin.ext heq)
      exact Fin.val_eq_of_eq this
  rw [hapart]
  constructor
  · intro hinj t ht
    obtain ⟨k, hk⟩ := (Finite.injective_iff_surjective.mp hinj) ⟨t, ht⟩
    refine ⟨k, ⟨k.isLt, Fin.val_eq_of_eq hk⟩, ?_⟩
    rintro l ⟨hl, hlt⟩
    exact hapart.mpr hinj hl k.isLt (hlt.trans (Fin.val_eq_of_eq hk).symm)
  · intro h
    refine Finite.injective_iff_surjective.mpr fun t => ?_
    obtain ⟨k, ⟨hk, hkt⟩, -⟩ := h t t.isLt
    exact ⟨⟨k, hk⟩, Fin.ext hkt⟩

end CounterWindows
