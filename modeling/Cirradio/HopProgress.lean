import Cirradio.HopBlacklist

/-!
# Hops that are delivered

With a core that answers in time no hop is lost. Each attempt ends with a check, and the
tenth check delivers.
-/

namespace Cirradio.Fpga
open CallRuns ByteWords Fhss Retries

namespace FhssEngine

/-- The core makes the engine wait for less than a number of cycles, until it is ready and
until it has the result. -/
structure AnswersWithin (limit : ℕ) (s : FhssEngine) (xs : List FhssIn) : Prop where
  ready : ∀ k, k + limit ≤ xs.length → (runAt s xs k).state = .initKey →
    ∃ j x, k ≤ j ∧ j < k + limit ∧ xs[j]? = some x ∧ x.aesReady = true
  result : ∀ k, k + limit ≤ xs.length → (runAt s xs k).state = .waitResult →
    ∃ j x, k ≤ j ∧ j < k + limit ∧ xs[j]? = some x ∧ x.aesResultValid = true

section Run
variable {E : AesBlock → AesBlock} {job : HopJob} {s : FhssEngine} {xs : List FhssIn}
  {limit : ℕ}

theorem Trying.step_initKey (hrun : HopRun E job s xs) {k a : ℕ} {x : FhssIn}
    (h : Trying E job s xs k a) (hx : xs[k]? = some x) (hk : k + 1 < xs.length)
    (hstate : (runAt s xs k).state = .initKey) :
    Trying E job s xs (k + 1) a ∧
      (runAt s xs (k + 1)).state = if x.aesReady then .waitResult else .initKey := by
  refine ⟨h.next_initKey hrun hx hk hstate, ?_⟩
  rw [runAt_succ hx]
  cases hready : x.aesReady <;> simp [fsmNext, hstate, hready]

theorem Trying.step_waitResult (hrun : HopRun E job s xs) {k a : ℕ} {x : FhssIn}
    (h : Trying E job s xs k a) (hx : xs[k]? = some x)
    (hstate : (runAt s xs k).state = .waitResult) :
    Trying E job s xs (k + 1) a ∧
      (runAt s xs (k + 1)).state = if x.aesResultValid then .checkBlacklist else .waitResult := by
  refine ⟨?_, ?_⟩
  · rcases h.phase with hinit | ⟨-, m, hm, hpulse, hlast, hblock⟩ | ⟨hcheck, -⟩
    · rw [hinit] at hstate
      cases hstate
    · exact h.next_waitResult hrun hx hstate hm hpulse hlast hblock
    · rw [hcheck] at hstate
      cases hstate
  · rw [runAt_succ hx]
    cases hvalid : x.aesResultValid <;> simp [fsmNext, hstate, hvalid]

/-- A state that waits for an answer is left by the cycle after one. -/
theorem Trying.exists_left (answers : FhssIn → Bool) {q q' : FhssState} {k a n : ℕ}
    {y : FhssIn}
    (hstep : ∀ j x, j ≤ n → xs[j]? = some x → Trying E job s xs j a →
      (runAt s xs j).state = q → Trying E job s xs (j + 1) a ∧
        (runAt s xs (j + 1)).state = if answers x then q' else q)
    (h : Trying E job s xs k a) (hstate : (runAt s xs k).state = q) (hle : k ≤ n)
    (hy : xs[n]? = some y) (hanswer : answers y = true) :
    ∃ j ≤ n + 1, Trying E job s xs j a ∧ (runAt s xs j).state = q' := by
  obtain ⟨d, hd⟩ := Nat.exists_eq_add_of_le hle
  induction d generalizing k with
  | zero =>
    obtain rfl : n = k := hd
    obtain ⟨hnext, hleft⟩ := hstep n y (Nat.le_refl n) hy h hstate
    rw [if_pos hanswer] at hleft
    exact ⟨n + 1, Nat.le_refl _, hnext, hleft⟩
  | succ d ih =>
    have hn : n < xs.length := (List.getElem?_eq_some_iff.mp hy).1
    have hx : xs[k]? = some xs[k] := List.getElem?_eq_getElem (by omega)
    obtain ⟨hnext, hgoes⟩ := hstep k _ hle hx h hstate
    cases hnow : answers xs[k] with
    | true =>
      rw [hnow, if_pos rfl] at hgoes
      exact ⟨k + 1, by omega, hnext, hgoes⟩
    | false =>
      rw [hnow, if_neg Bool.false_ne_true] at hgoes
      exact ih hnext hgoes (by omega) (by omega)

/-- The core is ready, and is started. -/
theorem Trying.exists_started (hrun : HopRun E job s xs) (hanswers : AnswersWithin limit s xs)
    {k a : ℕ} (h : Trying E job s xs k a) (hk : k + limit < xs.length)
    (hstate : (runAt s xs k).state = .initKey) :
    ∃ j ≤ k + limit, Trying E job s xs j a ∧ (runAt s xs j).state = .waitResult := by
  obtain ⟨n, y, hle, hlt, hy, hready⟩ := hanswers.ready k (by omega) hstate
  obtain ⟨j, hj, hstarted⟩ := Trying.exists_left FhssIn.aesReady
    (fun j x hjn hx h => h.step_initKey hrun hx (by omega)) h hstate hle hy hready
  exact ⟨j, by omega, hstarted⟩

/-- The core answers, and the candidate is checked. -/
theorem Trying.exists_answered (hrun : HopRun E job s xs) (hanswers : AnswersWithin limit s xs)
    {k a : ℕ} (h : Trying E job s xs k a) (hk : k + limit ≤ xs.length)
    (hstate : (runAt s xs k).state = .waitResult) :
    ∃ j ≤ k + limit, Trying E job s xs j a ∧ (runAt s xs j).state = .checkBlacklist := by
  obtain ⟨n, y, hle, hlt, hy, hvalid⟩ := hanswers.result k hk hstate
  obtain ⟨j, hj, hanswered⟩ := Trying.exists_left FhssIn.aesResultValid
    (fun j x _ hx h => h.step_waitResult hrun hx) h hstate hle hy hvalid
  exact ⟨j, by omega, hanswered⟩

theorem Trying.exists_checked (hrun : HopRun E job s xs) (hanswers : AnswersWithin limit s xs)
    {k a : ℕ} (h : Trying E job s xs k a) (hk : k + 2 * limit < xs.length) :
    ∃ j ≤ k + 2 * limit, Trying E job s xs j a ∧
      (runAt s xs j).state = .checkBlacklist ∧
      (runAt s xs j).cipherLo = attemptWord E job.slot job.frame s.hopIndex a := by
  have hchecked : ∃ j ≤ k + 2 * limit, Trying E job s xs j a ∧
      (runAt s xs j).state = .checkBlacklist := by
    rcases h.phase with hstate | ⟨hstate, -⟩ | ⟨hstate, -⟩
    · obtain ⟨i, hi, hstarted, hwait⟩ := h.exists_started hrun hanswers (by omega) hstate
      obtain ⟨j, hj, hfound⟩ := hstarted.exists_answered hrun hanswers (by omega) hwait
      exact ⟨j, by omega, hfound⟩
    · obtain ⟨j, hj, hfound⟩ := h.exists_answered hrun hanswers (by omega) hstate
      exact ⟨j, by omega, hfound⟩
    · exact ⟨k, by omega, h, hstate⟩
  obtain ⟨j, hj, htrying, hstate⟩ := hchecked
  refine ⟨j, hj, htrying, hstate, ?_⟩
  rcases htrying.phase with hinit | ⟨hwait, -⟩ | ⟨-, hword⟩
  · rw [hinit] at hstate
    cases hstate
  · rw [hwait] at hstate
    cases hstate
  · exact hword

/-- As long as nothing is delivered, there is one attempt after the other. -/
theorem HopRun.exists_trying (hrun : HopRun E job s xs) (hanswers : AnswersWithin limit s xs)
    (hbusy : ∀ k, 0 < k → k ≤ xs.length → (runAt s xs k).freqValid = false) (a : ℕ)
    (hlen : 1 + a * (2 * limit + 1) < xs.length) :
    ∃ k ≤ 1 + a * (2 * limit + 1), Trying E job s xs k a := by
  induction a with
  | zero => exact ⟨1, Nat.le_add_right 1 _, hrun.first⟩
  | succ a ih =>
    have hsucc : (a + 1) * (2 * limit + 1) = a * (2 * limit + 1) + (2 * limit + 1) :=
      Nat.succ_mul a _
    obtain ⟨k, hk, h⟩ := ih (by omega)
    obtain ⟨j, hj, htrying, hstate, hword⟩ := h.exists_checked hrun hanswers (by omega)
    have hx : xs[j]? = some xs[j] := List.getElem?_eq_getElem (by omega)
    rcases htrying.check hrun hx hstate hword with ⟨hvalid, -⟩ | ⟨-, hnext⟩
    · rw [hbusy (j + 1) (Nat.succ_pos j) (by omega)] at hvalid
      cases hvalid
    · exact ⟨j + 1, by omega, hnext (by omega)⟩

/-- A hop that lasts long enough is delivered. -/
theorem HopRun.exists_delivered (hrun : HopRun E job s xs)
    (hanswers : AnswersWithin limit s xs) (hlen : 20 * limit + 11 < xs.length) :
    ∃ k, 0 < k ∧ k ≤ xs.length ∧ Delivered s (xs.take k) := by
  have hvalid : ∃ k, 0 < k ∧ k ≤ xs.length ∧ (runAt s xs k).freqValid = true := by
    by_contra hnone
    have hbusy : ∀ k, 0 < k → k ≤ xs.length → (runAt s xs k).freqValid = false := by
      intro k hpos hk
      apply Bool.eq_false_of_not_eq_true
      exact fun h => hnone ⟨k, hpos, hk, h⟩
    -- an eleventh attempt is not made
    obtain ⟨k, -, h⟩ := hrun.exists_trying hanswers hbusy 10 (by omega)
    exact absurd h.attempt_le (by decide)
  classical
  obtain ⟨hpos, hk, hfirst⟩ := Nat.find_spec hvalid
  refine ⟨Nat.find hvalid, hpos, hk, ?_, ?_, hfirst⟩
  · rw [List.length_take]
    omega
  · intro j hj hlt
    rw [List.length_take] at hlt
    have hbefore := Nat.find_min hvalid (show j < Nat.find hvalid by omega)
    rw [runAt_take (by omega)]
    apply Bool.eq_false_of_not_eq_true
    exact fun h => hbefore ⟨hj, by omega, h⟩

end Run

theorem rests_of_rests {s : FhssEngine} (x : FhssIn) (htick : s.hopTick = false)
    (h : s.state = .done ∨ s.state = .idle) :
    (next s x).state = .done ∨ (next s x).state = .idle := by
  rcases h with hstate | hstate
  · simp [fsmNext, hstate]
  · simp [fsmNext, hstate, htick]

theorem jamHop_rests (freq : BitVec 32) {k : ℕ} (hk : k ≤ 28) :
    (runAt (after step (reset blank) jamSetup) (jamHop freq) (4 + k)).state = .done ∨
      (runAt (after step (reset blank) jamSetup) (jamHop freq) (4 + k)).state = .idle := by
  have hlen : (jamHop freq).length = 32 := rfl
  induction k with
  | zero =>
    obtain ⟨hstate, hfree⟩ := jamRun_check freq
    change (fsmNext (runAt _ (jamRun freq) 3) (jamIn freq)).state = .done ∨ _
    rw [fsmNext_of_pass hstate (.inl hfree)]
    exact .inl rfl
  | succ k ih =>
    have hx : (jamHop freq)[4 + k]? = some (jamHop freq)[4 + k] :=
      List.getElem?_eq_getElem (by omega)
    rw [← Nat.add_assoc, runAt_succ hx]
    exact rests_of_rests _ ((jamHop_hopRun freq).noTick (4 + k) (by omega) (by omega))
      (ih (by omega))

theorem jamHop_waits (freq : BitVec 32) {k : ℕ} (hk : k ≤ 32) :
    ((runAt (after step (reset blank) jamSetup) (jamHop freq) k).state = .initKey → k = 1) ∧
      ((runAt (after step (reset blank) jamSetup) (jamHop freq) k).state = .waitResult →
        k = 2) := by
  match k with
  | 0 => exact ⟨fun h => (by cases h), fun h => (by cases h)⟩
  | 1 => exact ⟨fun _ => rfl, fun h => (by cases h)⟩
  | 2 => exact ⟨fun h => (by cases h), fun _ => rfl⟩
  | 3 => exact ⟨fun h => (by cases h), fun h => (by cases h)⟩
  | k + 4 =>
    have hrests := jamHop_rests freq (k := k) (by omega)
    rw [Nat.add_comm 4 k] at hrests
    constructor
    · intro hstate
      rcases hrests with hrest | hrest
      · cases hrest.symm.trans hstate
      · cases hrest.symm.trans hstate
    · intro hstate
      rcases hrests with hrest | hrest
      · cases hrest.symm.trans hstate
      · cases hrest.symm.trans hstate

theorem jamHop_answers (freq : BitVec 32) :
    AnswersWithin 1 (after step (reset blank) jamSetup) (jamHop freq) := by
  have hlen : (jamHop freq).length = 32 := rfl
  constructor
  · intro k hk hstate
    obtain rfl := (jamHop_waits freq (by omega)).1 hstate
    exact ⟨1, _, Nat.le_refl 1, Nat.lt_succ_self 1, rfl, rfl⟩
  · intro k hk hstate
    obtain rfl := (jamHop_waits freq (by omega)).2 hstate
    exact ⟨2, _, Nat.le_refl 2, Nat.lt_succ_self 2, rfl, rfl⟩

end FhssEngine
end Cirradio.Fpga
