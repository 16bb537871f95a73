import Cirradio.HopDelivery

/-!
# The cadence of the hops

From a rising edge of the GPS pulse on, the hop timer counts down a period again and again.
A hop tick comes at the end of every period, and the hop index counts the ticks up to 99.
-/

namespace Cirradio.Fpga
open CallRuns

namespace FhssEngine

/-- Cycles after a rising edge, with hops of a period. -/
structure Cadence (period n : ℕ) (s : FhssEngine) : Prop where
  hopTimer : s.hopTimer.toNat = period - 1 - n % period
  hopIndex : s.hopIndex.toNat = min 99 (n / period)
  hopTick : s.hopTick = true ↔ 0 < n ∧ period ∣ n

section Cycle
variable {period : BitVec 32} {s : FhssEngine} {x : FhssIn}

theorem toNat_sub_one (hpos : 0 < period) : (period - 1).toNat = period.toNat - 1 := by
  have hlt : 0 < period.toNat := hpos
  have hone : (1 : BitVec 32).toNat = 1 := rfl
  rw [BitVec.toNat_sub_of_le (by rw [BitVec.le_def, hone]; exact hlt), hone]

theorem cadence_of_rising (hpos : 0 < period) (hperiod : x.hopPeriod = period)
    (hedge : rising s x = true) : Cadence period.toNat 0 (next s x) := by
  have hlt : 0 < period.toNat := hpos
  have hnext := hopTimerNext_of_rising hedge
  refine ⟨?_, ?_, ?_⟩
  · change (hopTimerNext s x).1.toNat = _
    rw [hnext, hperiod, toNat_sub_one hpos, Nat.zero_mod, Nat.sub_zero]
  · change (hopTimerNext s x).2.1.toNat = _
    rw [hnext, Nat.zero_div]
    rfl
  · change (hopTimerNext s x).2.2 = true ↔ _
    simp [hnext]

theorem toNat_hopIndex_succ {n : ℕ} (hindex : s.hopIndex.toNat = min 99 n) :
    (if s.hopIndex < 99 then s.hopIndex + 1 else s.hopIndex).toNat = min 99 (n + 1) := by
  have hninety : (99 : BitVec 8).toNat = 99 := rfl
  have hone : (1 : BitVec 8).toNat = 1 := rfl
  split
  · next hlow =>
    rw [BitVec.lt_def, hninety] at hlow
    rw [BitVec.toNat_add, hone, Nat.mod_eq_of_lt (by omega)]
    omega
  · next hhigh =>
    rw [BitVec.lt_def, hninety] at hhigh
    omega

theorem Cadence.next {n : ℕ} (h : Cadence period.toNat n s) (hpos : 0 < period)
    (hperiod : x.hopPeriod = period) (hquiet : rising s x = false) :
    Cadence period.toNat (n + 1) (next s x) := by
  have hlt : 0 < period.toNat := hpos
  have hmod : n % period.toNat < period.toNat := Nat.mod_lt n hlt
  by_cases htimer : s.hopTimer = 0
  · -- the period ends
    have hnext := hopTimerNext_of_zero hquiet htimer
    have hlast : n % period.toNat = period.toNat - 1 := by
      have hzero : s.hopTimer.toNat = 0 := by rw [htimer]; rfl
      have hcount := h.hopTimer
      omega
    have hdvd : period.toNat ∣ n + 1 := by
      have hsum := Nat.div_add_mod n period.toNat
      refine ⟨n / period.toNat + 1, ?_⟩
      rw [Nat.mul_add, Nat.mul_one]
      omega
    refine ⟨?_, ?_, ?_⟩
    · change (hopTimerNext s x).1.toNat = _
      rw [hnext, hperiod, toNat_sub_one hpos, Nat.mod_eq_zero_of_dvd hdvd, Nat.sub_zero]
    · change (hopTimerNext s x).2.1.toNat = _
      rw [hnext, Nat.succ_div_of_dvd hdvd]
      exact toNat_hopIndex_succ h.hopIndex
    · change (hopTimerNext s x).2.2 = true ↔ _
      simp [hnext, hdvd]
  · have hnext := hopTimerNext_of_ne_zero hquiet htimer
    have hcount := h.hopTimer
    have hleft : 0 < s.hopTimer.toNat := by
      apply Nat.pos_of_ne_zero
      exact fun hzero => htimer (BitVec.eq_of_toNat_eq hzero)
    have hone : (1 : BitVec 32).toNat = 1 := rfl
    have hmodsucc : (n + 1) % period.toNat = n % period.toNat + 1 := by
      rw [Nat.add_mod, Nat.mod_eq_of_lt (a := 1) (by omega), Nat.mod_eq_of_lt (by omega)]
    have hdvd : ¬ period.toNat ∣ n + 1 := by
      rw [Nat.dvd_iff_mod_eq_zero, hmodsucc]
      omega
    refine ⟨?_, ?_, ?_⟩
    · change (hopTimerNext s x).1.toNat = _
      rw [hnext, BitVec.toNat_sub_of_le (by rw [BitVec.le_def, hone]; exact hleft), hone,
        hcount, hmodsucc]
      omega
    · change (hopTimerNext s x).2.1.toNat = _
      rw [hnext, Nat.succ_div_of_not_dvd hdvd]
      exact h.hopIndex
    · change (hopTimerNext s x).2.2 = true ↔ _
      simp [hnext, hdvd]

end Cycle

/-- The input at a position has a rising edge. -/
def RisesAt (s : FhssEngine) (xs : List FhssIn) (i : ℕ) : Prop :=
  ∃ x, xs[i]? = some x ∧ rising (runAt s xs i) x = true

/-- After a rising edge, and until the next, the hop index is the number of periods that
have passed, at most 99, and there is a hop tick at the end of every period. -/
theorem hop_cadence (powerUp : FhssEngine) {period : BitVec 32} (hpos : 0 < period)
    {xs : List FhssIn} (hperiod : ∀ x ∈ xs, x.hopPeriod = period) {i : ℕ}
    (hedge : RisesAt (reset powerUp) xs i) {n : ℕ} (hlen : i + 1 + n ≤ xs.length)
    (hquiet : ∀ j, i < j → j < i + 1 + n → ¬ RisesAt (reset powerUp) xs j) :
    (runAt (reset powerUp) xs (i + 1 + n)).hopIndex.toNat = min 99 (n / period.toNat) ∧
      ((runAt (reset powerUp) xs (i + 1 + n)).hopTick = true ↔ 0 < n ∧ period.toNat ∣ n) := by
  have hcadence : Cadence period.toNat n (runAt (reset powerUp) xs (i + 1 + n)) := by
    induction n with
    | zero =>
      obtain ⟨x, hx, hrises⟩ := hedge
      rw [Nat.add_zero, runAt_succ hx]
      exact cadence_of_rising hpos (hperiod x (List.mem_of_getElem? hx)) hrises
    | succ n ih =>
      have hin : i + 1 + n < xs.length := by omega
      obtain ⟨x, hx⟩ : ∃ x, xs[i + 1 + n]? = some x := ⟨_, List.getElem?_eq_getElem hin⟩
      have hlow : rising (runAt (reset powerUp) xs (i + 1 + n)) x = false := by
        apply Bool.eq_false_of_not_eq_true
        exact fun hrises => hquiet (i + 1 + n) (by omega) (by omega) ⟨x, hx, hrises⟩
      have hbefore := ih (by omega) fun j hj hj' => hquiet j hj (by omega)
      rw [← Nat.add_assoc, runAt_succ hx]
      exact hbefore.next hpos (hperiod x (List.mem_of_getElem? hx)) hlow
  exact ⟨hcadence.hopIndex, hcadence.hopTick⟩

/-- An edge, and six cycles with hops of three. -/
def twoHops : List FhssIn :=
  pulseIn 0 0 3 :: List.replicate 6 { askIn 0 0 with hopPeriod := 3 }

theorem hop_cadence_twoHops :
    (runAt (reset blank) twoHops 7).hopIndex.toNat = 2 ∧
      (runAt (reset blank) twoHops 7).hopTick = true := by
  have hquiet : ∀ j, 0 < j → j < 0 + 1 + 6 → ¬ RisesAt (reset blank) twoHops j := by
    rintro j hj - ⟨x, hx, hrises⟩
    obtain ⟨k, rfl⟩ : ∃ k, j = k + 1 := ⟨j - 1, by omega⟩
    rw [twoHops, List.getElem?_cons_succ] at hx
    rw [rising_of_low _ (by rw [List.eq_of_mem_replicate (List.mem_of_getElem? hx)]; rfl)]
      at hrises
    cases hrises
  have hperiod : ∀ x ∈ twoHops, x.hopPeriod = 3 := by simp [twoHops, pulseIn]
  obtain ⟨hindex, htick⟩ := hop_cadence blank (by decide) hperiod ⟨pulseIn 0 0 3, rfl, rfl⟩
    (by simp [twoHops]) hquiet
  exact ⟨hindex, htick.mpr ⟨by decide, by decide⟩⟩

end FhssEngine
end Cirradio.Fpga
