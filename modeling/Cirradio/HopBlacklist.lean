import Cirradio.HopDelivery
import Cirradio.Retries
import Mathlib.Tactic.IntervalCases

/-!
# The blacklist of the hop engine

The check of a candidate looks at the register of the candidate, and so at the candidate of
the check before. From a hop tick to the delivery the engine checks one attempt late.
-/

namespace Cirradio.Fpga
open CallRuns ByteWords Fhss Retries

namespace FhssEngine

theorem zero_notMem_jammed (blacklist : Vector (BitVec 32) 20) (blacklistSize : BitVec 6) :
    0 ∉ jammed blacklist blacklistSize := by
  rintro ⟨i, -, hnonzero, hzero⟩
  exact hnonzero hzero

/-- What the engine takes from the encryption of the block of an attempt. -/
def attemptWord (E : AesBlock → AesBlock) (slot : BitVec 5) (frame : BitVec 32)
    (hop : BitVec 8) (attempt : ℕ) : BitVec 64 :=
  (bytesWord (E (wordBytes (blockOf slot frame hop (BitVec.ofNat 8 attempt))))).setWidth 64

/-- The candidate of an attempt, in kHz. -/
def attemptFreq (E : AesBlock → AesBlock) (slot : BitVec 5) (frame : BitVec 32)
    (hop : BitVec 8) (attempt : ℕ) : BitVec 32 :=
  225000 + (attemptWord E slot frame hop attempt % 11480).setWidth 32 * 25

/-- The blacklist and the request of a hop. -/
structure HopJob where
  blacklist : Vector (BitVec 32) 20
  blacklistSize : BitVec 6
  slot : BitVec 5
  frame : BitVec 32
  deriving DecidableEq, Repr

/-- A run that takes a request at a hop tick, with one blacklist, no further hop tick and no
edge of the GPS pulse, in which a valid result of the core is the encryption of the block of
the last start pulse. -/
structure HopRun (E : AesBlock → AesBlock) (job : HopJob) (s : FhssEngine)
    (xs : List FhssIn) : Prop where
  idle : s.state = .idle
  tick : s.hopTick = true
  asks : ∃ x, xs[0]? = some x ∧ x.slotReq = job.slot ∧ x.frameReq = job.frame
  blacklist : ∀ x ∈ xs, x.blacklist = job.blacklist ∧ x.blacklistSize = job.blacklistSize
  noTick : ∀ k, 0 < k → k < xs.length → (runAt s xs k).hopTick = false
  noEdge : ∀ k x, xs[k]? = some x → k + 1 < xs.length → rising (runAt s xs k) x = false
  aes : ∀ k x, xs[k]? = some x → x.aesResultValid = true →
    ∀ m ≤ k, (runAt s xs m).aesNext = true →
      (∀ l, m < l → l ≤ k → (runAt s xs l).aesNext = false) →
        x.aesResult = bytesWord (E (wordBytes (runAt s xs m).aesBlock))

/-- The run ends with the delivery. -/
structure Delivered (s : FhssEngine) (xs : List FhssIn) : Prop where
  pos : 0 < xs.length
  busy : ∀ k, 0 < k → k < xs.length → (runAt s xs k).freqValid = false
  valid : (after step s xs).freqValid = true

section Run
variable {E : AesBlock → AesBlock} {job : HopJob} {s : FhssEngine} {xs : List FhssIn}

/-- The candidates of a hop. -/
def HopJob.candidate (E : AesBlock → AesBlock) (job : HopJob) (s : FhssEngine) : ℕ → BitVec 32 :=
  attemptFreq E job.slot job.frame s.hopIndex

/-- Where the state machine stands at an attempt. -/
structure Trying (E : AesBlock → AesBlock) (job : HopJob) (s : FhssEngine)
    (xs : List FhssIn) (k a : ℕ) : Prop where
  slotHeld : (runAt s xs k).slot = job.slot
  frameHeld : (runAt s xs k).frame = job.frame
  attempt : (runAt s xs k).attempt = BitVec.ofNat 8 a
  attempt_le : a ≤ 9
  candidateHeld : (runAt s xs k).candidateFreq = late s.candidateFreq (job.candidate E s) a
  listed : ∀ b < a, late s.candidateFreq (job.candidate E s) b ∈
    jammed job.blacklist job.blacklistSize
  phase : ((runAt s xs k).state = .initKey) ∨
    ((runAt s xs k).state = .waitResult ∧
      ∃ m ≤ k, (runAt s xs m).aesNext = true ∧
        (∀ l, m < l → l ≤ k → (runAt s xs l).aesNext = false) ∧
        (runAt s xs m).aesBlock =
          blockOf job.slot job.frame s.hopIndex (BitVec.ofNat 8 a)) ∨
    ((runAt s xs k).state = .checkBlacklist ∧
      (runAt s xs k).cipherLo = attemptWord E job.slot job.frame s.hopIndex a)

theorem HopRun.hopIndex (h : HopRun E job s xs) {k : ℕ} (hk : k < xs.length) :
    (runAt s xs k).hopIndex = s.hopIndex := by
  induction k with
  | zero => rfl
  | succ k ih =>
    obtain ⟨x, hx⟩ : ∃ x, xs[k]? = some x := ⟨_, List.getElem?_eq_getElem (Nat.lt_of_succ_lt hk)⟩
    have htick := h.noTick (k + 1) (Nat.succ_pos k) hk
    rw [runAt_succ hx] at htick ⊢
    rw [next_hopIndex_of_quiet (h.noEdge k x hx hk) htick]
    exact ih (Nat.lt_of_succ_lt hk)

theorem runAt_take {k j : ℕ} (hj : j ≤ k) : runAt s (xs.take k) j = runAt s xs j := by
  rw [runAt, List.take_take, Nat.min_eq_left hj, runAt]

theorem HopRun.take (hrun : HopRun E job s xs) {k : ℕ} (hpos : 0 < k) :
    HopRun E job s (xs.take k) := by
  have hget : ∀ {j x}, (xs.take k)[j]? = some x → j < k ∧ xs[j]? = some x := by
    intro j x hx
    have hj : j < (xs.take k).length := (List.getElem?_eq_some_iff.mp hx).1
    rw [List.length_take] at hj
    rw [List.getElem?_take_of_lt (by omega)] at hx
    exact ⟨by omega, hx⟩
  refine ⟨hrun.idle, hrun.tick, ?_, fun x hx => hrun.blacklist x (List.mem_of_mem_take hx),
    ?_, ?_, ?_⟩
  · obtain ⟨x, hx, hask⟩ := hrun.asks
    exact ⟨x, by rwa [List.getElem?_take_of_lt hpos], hask⟩
  · intro j hj hlt
    rw [List.length_take] at hlt
    rw [runAt_take (by omega)]
    exact hrun.noTick j hj (by omega)
  · intro j x hx hlt
    obtain ⟨hj, hx⟩ := hget hx
    rw [List.length_take] at hlt
    rw [runAt_take (by omega)]
    exact hrun.noEdge j x hx (by omega)
  · intro j x hx hvalid m hm hpulse hlast
    obtain ⟨hj, hx⟩ := hget hx
    rw [runAt_take (by omega)] at hpulse ⊢
    refine hrun.aes j x hx hvalid m hm hpulse fun l hl hl' => ?_
    have hearlier := hlast l hl hl'
    rwa [runAt_take (by omega)] at hearlier

theorem HopRun.first (h : HopRun E job s xs) : Trying E job s xs 1 0 := by
  obtain ⟨x, hx, hslot, hframe⟩ := h.asks
  have hnext : runAt s xs 1 = next s x := runAt_succ hx
  refine ⟨?_, ?_, ?_, Nat.zero_le 9, ?_, fun b hb => absurd hb (Nat.not_lt_zero b), .inl ?_⟩ <;>
    rw [hnext] <;> simp [fsmNext, h.idle, h.tick, hslot, hframe, late]

theorem Trying.wait {k a : ℕ} {x : FhssIn} (h : Trying E job s xs k a) (hx : xs[k]? = some x)
    (hstate : (runAt s xs k).state = .initKey ∨ (runAt s xs k).state = .waitResult)
    (hphase : ((runAt s xs (k + 1)).state = .initKey) ∨
      ((runAt s xs (k + 1)).state = .waitResult ∧
        ∃ m ≤ k + 1, (runAt s xs m).aesNext = true ∧
          (∀ l, m < l → l ≤ k + 1 → (runAt s xs l).aesNext = false) ∧
          (runAt s xs m).aesBlock =
            blockOf job.slot job.frame s.hopIndex (BitVec.ofNat 8 a)) ∨
      ((runAt s xs (k + 1)).state = .checkBlacklist ∧
        (runAt s xs (k + 1)).cipherLo = attemptWord E job.slot job.frame s.hopIndex a)) :
    Trying E job s xs (k + 1) a := by
  have hheld : (runAt s xs (k + 1)).slot = (runAt s xs k).slot ∧
      (runAt s xs (k + 1)).frame = (runAt s xs k).frame ∧
      (runAt s xs (k + 1)).attempt = (runAt s xs k).attempt ∧
      (runAt s xs (k + 1)).candidateFreq = (runAt s xs k).candidateFreq := by
    rw [runAt_succ hx]
    rcases hstate with hstate | hstate
    · by_cases hready : x.aesReady = true <;> simp [fsmNext, hstate, hready]
    · by_cases hvalid : x.aesResultValid = true <;> simp [fsmNext, hstate, hvalid]
  obtain ⟨hslot, hframe, hattempt, hcandidate⟩ := hheld
  exact ⟨hslot.trans h.slotHeld, hframe.trans h.frameHeld, hattempt.trans h.attempt,
    h.attempt_le, hcandidate.trans h.candidateHeld, h.listed, hphase⟩

theorem block_of_held (h : HopRun E job s xs) {k a : ℕ} (hk : k < xs.length)
    (hslot : (runAt s xs k).slot = job.slot) (hframe : (runAt s xs k).frame = job.frame)
    (hattempt : (runAt s xs k).attempt = BitVec.ofNat 8 a) :
    (runAt s xs k).aesBlock = blockOf job.slot job.frame s.hopIndex (BitVec.ofNat 8 a) := by
  rw [aesBlock, hslot, hframe, hattempt, h.hopIndex hk]

/-- The core is started when it is ready. -/
theorem Trying.next_initKey (hrun : HopRun E job s xs) {k a : ℕ} {x : FhssIn}
    (h : Trying E job s xs k a) (hx : xs[k]? = some x) (hk : k + 1 < xs.length)
    (hstate : (runAt s xs k).state = .initKey) : Trying E job s xs (k + 1) a := by
  by_cases hready : x.aesReady = true
  · have hpulse : (runAt s xs (k + 1)).aesNext = true := by
      rw [runAt_succ hx]
      simp [fsmNext, hstate, hready]
    have hwait : (runAt s xs (k + 1)).state = .waitResult := by
      rw [runAt_succ hx]
      simp [fsmNext, hstate, hready]
    have hheld : (runAt s xs (k + 1)).slot = (runAt s xs k).slot ∧
        (runAt s xs (k + 1)).frame = (runAt s xs k).frame ∧
        (runAt s xs (k + 1)).attempt = (runAt s xs k).attempt := by
      rw [runAt_succ hx]
      simp [fsmNext, hstate, hready]
    obtain ⟨hslot, hframe, hattempt⟩ := hheld
    refine h.wait hx (.inl hstate) (.inr (.inl ⟨hwait, k + 1, Nat.le_refl _, hpulse, ?_,
      block_of_held hrun hk (hslot.trans h.slotHeld) (hframe.trans h.frameHeld)
        (hattempt.trans h.attempt)⟩))
    intro l hl hl'
    omega
  · refine h.wait hx (.inl hstate) (.inl ?_)
    rw [runAt_succ hx]
    simp [fsmNext, hstate, hready]

/-- The core answers the last block sent to it. -/
theorem Trying.next_waitResult (hrun : HopRun E job s xs) {k a : ℕ} {x : FhssIn}
    (h : Trying E job s xs k a) (hx : xs[k]? = some x)
    (hstate : (runAt s xs k).state = .waitResult) {m : ℕ} (hm : m ≤ k)
    (hpulse : (runAt s xs m).aesNext = true)
    (hlast : ∀ l, m < l → l ≤ k → (runAt s xs l).aesNext = false)
    (hblock : (runAt s xs m).aesBlock =
      blockOf job.slot job.frame s.hopIndex (BitVec.ofNat 8 a)) :
    Trying E job s xs (k + 1) a := by
  by_cases hvalid : x.aesResultValid = true
  · have hresult := hrun.aes k x hx hvalid m hm hpulse hlast
    refine h.wait hx (.inr hstate) (.inr (.inr ⟨?_, ?_⟩)) <;> rw [runAt_succ hx]
    · simp [fsmNext, hstate, hvalid]
    · simp [fsmNext, hstate, hvalid, hresult, hblock, attemptWord]
  · have hlow : (runAt s xs (k + 1)).aesNext = false := by
      rw [runAt_succ hx]
      simp [fsmNext, hstate, hvalid]
    refine h.wait hx (.inr hstate) (.inr (.inl ⟨?_, m, Nat.le_succ_of_le hm, hpulse, ?_,
      hblock⟩))
    · rw [runAt_succ hx]
      simp [fsmNext, hstate, hvalid]
    · intro l hl hl'
      rcases Nat.lt_or_eq_of_le hl' with hlt | rfl
      · exact hlast l hl (Nat.le_of_lt_succ hlt)
      · exact hlow

/-- The check lets the candidate of an attempt pass if the candidate of the attempt before is
not listed, or the attempt is the tenth. -/
theorem Trying.check (hrun : HopRun E job s xs) {k a : ℕ} {x : FhssIn}
    (h : Trying E job s xs k a) (hx : xs[k]? = some x)
    (hstate : (runAt s xs k).state = .checkBlacklist)
    (hword : (runAt s xs k).cipherLo = attemptWord E job.slot job.frame s.hopIndex a) :
    ((runAt s xs (k + 1)).freqValid = true ∧
      (runAt s xs (k + 1)).freqKhz = job.candidate E s a ∧
      (late s.candidateFreq (job.candidate E s) a ∈ jammed job.blacklist job.blacklistSize →
        a = 9)) ∨
    ((runAt s xs (k + 1)).freqValid = false ∧
      (k + 1 < xs.length → Trying E job s xs (k + 1) (a + 1))) := by
  obtain ⟨hlist, hsize⟩ := hrun.blacklist x (List.mem_of_getElem? hx)
  have hblacklisted := blacklisted_iff (runAt s xs k) x
  rw [hlist, hsize, h.candidateHeld] at hblacklisted
  have ha := h.attempt_le
  have hlastAttempt : (9 : BitVec 8) ≤ (runAt s xs k).attempt ↔ a = 9 := by
    rw [h.attempt, BitVec.le_def, BitVec.toNat_ofNat, Nat.mod_eq_of_lt (by omega)]
    have hnine : (9 : BitVec 8).toNat = 9 := rfl
    omega
  have hnext : runAt s xs (k + 1) = next (runAt s xs k) x := runAt_succ hx
  by_cases hpass : blacklisted (runAt s xs k) x = false ∨ a = 9
  · have hfsm := fsmNext_of_pass hstate (hpass.imp_right hlastAttempt.mpr)
    left
    rw [hnext, next_freqValid, next_freqKhz, hfsm]
    refine ⟨rfl, ?_, fun hmem => ?_⟩
    · rw [hword]
      rfl
    · rcases hpass with hfree | hnine
      · rw [hblacklisted.mpr hmem] at hfree
        cases hfree
      · exact hnine
  · obtain ⟨hlisted, hmore⟩ := not_or.mp hpass
    rw [Bool.not_eq_false] at hlisted
    have hfsm := fsmNext_of_retry hstate hlisted fun hle => hmore (hlastAttempt.mp hle)
    have hpulse : (runAt s xs (k + 1)).aesNext = true := by rw [hnext, next_aesNext, hfsm]
    have hslot : (runAt s xs (k + 1)).slot = job.slot := by
      rw [hnext, next_slot, hfsm]
      exact h.slotHeld
    have hframe : (runAt s xs (k + 1)).frame = job.frame := by
      rw [hnext, next_frame, hfsm]
      exact h.frameHeld
    have hattempt : (runAt s xs (k + 1)).attempt = BitVec.ofNat 8 (a + 1) := by
      rw [hnext, next_attempt, hfsm, h.attempt]
      exact (BitVec.ofNat_add a 1).symm
    refine .inr ⟨by rw [hnext, next_freqValid, hfsm], fun hk => ⟨hslot, hframe, hattempt,
      by omega, ?_, ?_, .inr (.inl ⟨by rw [hnext, next_state, hfsm], k + 1, Nat.le_refl _, hpulse,
        fun l hl hl' => absurd hl (by omega), block_of_held hrun hk hslot hframe hattempt⟩)⟩⟩
    · rw [hnext, next_candidateFreq, hfsm, hword]
      rfl
    · intro b hb
      rcases Nat.lt_or_eq_of_le (Nat.le_of_lt_succ hb) with hlt | rfl
      · exact h.listed b hlt
      · exact hblacklisted.mp hlisted

/-- Between the request and the delivery the engine stands at some attempt. -/
theorem HopRun.trying (hrun : HopRun E job s xs)
    (hbusy : ∀ k, 0 < k → k < xs.length → (runAt s xs k).freqValid = false) {k : ℕ}
    (hk : k < xs.length) (hpos : 0 < k) : ∃ a, Trying E job s xs k a := by
  induction k with
  | zero => exact absurd hpos (Nat.lt_irrefl 0)
  | succ k ih =>
    rcases Nat.eq_zero_or_pos k with rfl | hk'
    · exact ⟨0, hrun.first⟩
    obtain ⟨a, h⟩ := ih (Nat.lt_of_succ_lt hk) hk'
    have hx : xs[k]? = some xs[k] := List.getElem?_eq_getElem (Nat.lt_of_succ_lt hk)
    rcases h.phase with hstate | ⟨hstate, m, hm, hpulse, hlast, hblock⟩ | ⟨hstate, hword⟩
    · exact ⟨a, h.next_initKey hrun hx hk hstate⟩
    · exact ⟨a, h.next_waitResult hrun hx hstate hm hpulse hlast hblock⟩
    · rcases h.check hrun hx hstate hword with ⟨hvalid, -⟩ | ⟨-, hnext⟩
      · rw [hbusy (k + 1) (Nat.succ_pos k) hk] at hvalid
        cases hvalid
      · exact ⟨a + 1, hnext hk⟩

theorem Trying.delivers (hrun : HopRun E job s xs) {k a : ℕ} {x : FhssIn}
    (h : Trying E job s xs k a) (hx : xs[k]? = some x)
    (hvalid : (runAt s xs (k + 1)).freqValid = true) :
    (runAt s xs (k + 1)).freqKhz = job.candidate E s a ∧
      (late s.candidateFreq (job.candidate E s) a ∈ jammed job.blacklist job.blacklistSize →
        a = 9) := by
  rcases h.phase with hstate | ⟨hstate, -⟩ | ⟨hstate, hword⟩
  · rw [runAt_succ hx] at hvalid
    by_cases hready : x.aesReady = true <;> simp [fsmNext, hstate, hready] at hvalid
  · rw [runAt_succ hx] at hvalid
    by_cases hresult : x.aesResultValid = true <;> simp [fsmNext, hstate, hresult] at hvalid
  · rcases h.check hrun hx hstate hword with ⟨-, hdelivered⟩ | ⟨hlow, -⟩
    · exact hdelivered
    · rw [hlow] at hvalid
      cases hvalid

/-- The engine hops to the candidate that a late check picks. -/
theorem HopRun.picked_late (hrun : HopRun E job s xs) (hdone : Delivered s xs) :
    Picked (jammed job.blacklist job.blacklistSize)
      (late s.candidateFreq (job.candidate E s)) (job.candidate E s) 9
      (after step s xs).freqKhz := by
  have hend : runAt s xs xs.length = after step s xs := by rw [runAt, List.take_length]
  obtain ⟨k, hk⟩ : ∃ k, xs.length = k + 1 :=
    ⟨xs.length - 1, (Nat.succ_pred_eq_of_pos hdone.pos).symm⟩
  have hin : k < xs.length := by omega
  have hx : xs[k]? = some xs[k] := List.getElem?_eq_getElem hin
  have hvalid := hdone.valid
  rw [← hend, hk] at hvalid ⊢
  rcases Nat.eq_zero_or_pos k with rfl | hpos
  · -- the cycle that takes the request does not deliver
    rw [runAt_succ hx] at hvalid
    have hidle : (runAt s xs 0).state = .idle := hrun.idle
    have htick : (runAt s xs 0).hopTick = true := hrun.tick
    simp [fsmNext, hidle, htick] at hvalid
  · obtain ⟨a, h⟩ := hrun.trying hdone.busy hin hpos
    obtain ⟨hfreq, hstop⟩ := h.delivers hrun hx hvalid
    exact ⟨a, h.attempt_le, hfreq, h.listed, hstop⟩

end Run

/-- The engine hops to the first candidate that is not listed exactly if checking one attempt
late makes no difference. -/
theorem freeCandidate_iff (E : AesBlock → AesBlock) (powerUp : FhssEngine)
    (setup xs : List FhssIn) (job : HopJob)
    (hrun : HopRun E job (after step (reset powerUp) setup) xs)
    (hdone : Delivered (after step (reset powerUp) setup) xs) :
    Picked (jammed job.blacklist job.blacklistSize)
        (job.candidate E (after step (reset powerUp) setup))
        (job.candidate E (after step (reset powerUp) setup)) 9
        (after step (after step (reset powerUp) setup) xs).freqKhz ↔
      LateAgrees (jammed job.blacklist job.blacklistSize)
        (after step (reset powerUp) setup).candidateFreq
        (job.candidate E (after step (reset powerUp) setup)) 9 :=
  picked_iff_lateAgrees (hrun.picked_late hdone)

/-- An input with one frequency listed, and hops of a thousand cycles. -/
def jamIn (freq : BitVec 32) : FhssIn :=
  { askIn 0 0 with
    blacklist := (Vector.replicate 20 0).set 0 freq
    hopPeriod := 1000
    blacklistSize := 20 }

def jamJob (freq : BitVec 32) : HopJob :=
  ⟨(jamIn freq).blacklist, (jamIn freq).blacklistSize, 0, 0⟩

/-- The first hop after a GPS pulse. -/
def jamSetup : List FhssIn := [pulseIn 0 0 1, jamIn 0]

/-- One attempt, with a core that returns the block. -/
def jamRun (freq : BitVec 32) : List FhssIn :=
  [jamIn freq, { jamIn freq with aesReady := true },
    { jamIn freq with aesResult := blockOf 0 0 1 0, aesResultValid := true }, jamIn freq]

theorem bytesWord_firstBlock : bytesWord (wordBytes (blockOf 0 0 1 0)) = blockOf 0 0 1 0 := by
  decide +kernel

/-- Until it has run out, the hop timer counts down without a tick. -/
theorem hopTimer_countdown {s : FhssEngine} {xs : List FhssIn} (hlow : ∀ x ∈ xs, x.pps = false)
    {k : ℕ} (hlen : k ≤ xs.length) (hk : k ≤ s.hopTimer.toNat) :
    (runAt s xs k).hopTimer.toNat + k = s.hopTimer.toNat ∧
      (0 < k → (runAt s xs k).hopTick = false) := by
  induction k with
  | zero => exact ⟨rfl, fun h => absurd h (Nat.lt_irrefl 0)⟩
  | succ k ih =>
    obtain ⟨hcount, -⟩ := ih (by omega) (by omega)
    have hx : xs[k]? = some xs[k] := List.getElem?_eq_getElem hlen
    have hpos : 1 ≤ (runAt s xs k).hopTimer.toNat := by omega
    have hne : (runAt s xs k).hopTimer ≠ 0 := by
      intro hzero
      rw [hzero] at hpos
      exact absurd hpos (by decide)
    have hnext := hopTimerNext_of_ne_zero
      (rising_of_low (runAt s xs k) (hlow _ (List.mem_of_getElem? hx))) hne
    have hless : ((runAt s xs k).hopTimer - 1).toNat = (runAt s xs k).hopTimer.toNat - 1 :=
      BitVec.toNat_sub_of_le hpos
    rw [runAt_succ hx]
    constructor
    · change (hopTimerNext _ _).1.toNat + _ = _
      rw [hnext, hless]
      omega
    · intro _
      change (hopTimerNext _ _).2.2 = false
      rw [hnext]

/-- The run of a hop, to some cycles after the delivery. -/
def jamHop (freq : BitVec 32) : List FhssIn := jamRun freq ++ List.replicate 28 (jamIn freq)

theorem jamHop_pps {freq : BitVec 32} {x : FhssIn} (hx : x ∈ jamHop freq) : x.pps = false := by
  simp only [jamHop, jamRun, List.mem_append, List.mem_cons, List.not_mem_nil, or_false,
    List.mem_replicate] at hx
  rcases hx with (rfl | rfl | rfl | rfl) | ⟨-, rfl⟩ <;> rfl

theorem eq_two_of_jamHop {freq : BitVec 32} {k : ℕ} {x : FhssIn} (hx : (jamHop freq)[k]? = some x)
    (hvalid : x.aesResultValid = true) : k = 2 := by
  match k, hx with
  | 0, hx => cases hx; cases hvalid
  | 1, hx => cases hx; cases hvalid
  | 2, _ => rfl
  | 3, hx => cases hx; cases hvalid
  | k + 4, hx =>
    rw [jamHop, List.getElem?_append_right (Nat.le_add_left 4 k)] at hx
    rw [List.eq_of_mem_replicate (List.mem_of_getElem? hx)] at hvalid
    cases hvalid

theorem jamHop_hopRun (freq : BitVec 32) :
    HopRun id (jamJob freq) (after step (reset blank) jamSetup) (jamHop freq) := by
  have htimer : (after step (reset blank) jamSetup).hopTimer = 999 := by decide
  refine ⟨rfl, rfl, ⟨_, rfl, rfl, rfl⟩, ?_, ?_, ?_, ?_⟩
  · simp [jamHop, jamRun, jamJob]
  · intro k hpos hk
    have hlen : (jamHop freq).length = 32 := rfl
    refine (hopTimer_countdown (fun x hx => jamHop_pps hx) (Nat.le_of_lt hk) ?_).2 hpos
    rw [htimer]
    exact Nat.le_trans (Nat.le_of_lt (hlen ▸ hk)) (by decide)
  · intro k x hx hk
    exact rising_of_low _ (jamHop_pps (List.mem_of_getElem? hx))
  · intro k x hx hvalid m hm hpulse hlast
    obtain rfl := eq_two_of_jamHop hx hvalid
    obtain rfl : m = 2 := by
      interval_cases m
      · cases hpulse
      · cases hpulse
      · rfl
    cases hx
    exact bytesWord_firstBlock.symm

theorem jamRun_hopRun (freq : BitVec 32) :
    HopRun id (jamJob freq) (after step (reset blank) jamSetup) (jamRun freq) :=
  (jamHop_hopRun freq).take (Nat.succ_pos 3)

theorem jamRun_check (freq : BitVec 32) :
    (runAt (after step (reset blank) jamSetup) (jamRun freq) 3).state = .checkBlacklist ∧
      blacklisted (runAt (after step (reset blank) jamSetup) (jamRun freq) 3) (jamIn freq) =
        false := by
  refine ⟨rfl, ?_⟩
  have hcandidate : (runAt (after step (reset blank) jamSetup) (jamRun freq) 3).candidateFreq = 0 :=
    rfl
  apply Bool.eq_false_of_not_eq_true
  rw [blacklisted_iff, hcandidate]
  exact zero_notMem_jammed _ _

theorem jamRun_delivered (freq : BitVec 32) :
    Delivered (after step (reset blank) jamSetup) (jamRun freq) := by
  refine ⟨Nat.succ_pos 3, ?_, ?_⟩
  · intro k hpos hk
    change k < 4 at hk
    interval_cases k <;> rfl
  · obtain ⟨hstate, hfree⟩ := jamRun_check freq
    change (fsmNext (runAt _ (jamRun freq) 3) (jamIn freq)).freqValid = true
    rw [fsmNext_of_pass hstate (.inl hfree)]

theorem jamJob_candidate (freq : BitVec 32) :
    (jamJob freq).candidate id (after step (reset blank) jamSetup) 0 = 469400 ∧
      (jamJob freq).candidate id (after step (reset blank) jamSetup) 1 = 469425 := by
  have hhop : (after step (reset blank) jamSetup).hopIndex = 1 := by decide
  rw [HopJob.candidate, hhop]
  change attemptFreq id 0 0 1 0 = _ ∧ attemptFreq id 0 0 1 1 = _
  constructor
  · decide +kernel
  · decide +kernel

theorem mem_jammed_jamJob (freq freq' : BitVec 32) :
    freq' ∈ jammed (jamJob freq).blacklist (jamJob freq).blacklistSize ↔
      freq ≠ 0 ∧ freq' = freq := by
  have hentry : ∀ i : Fin 20, (jamJob freq).blacklist.get i = if i.val = 0 then freq else 0 := by
    intro i
    change (jamJob freq).blacklist[i] = _
    simp [jamJob, jamIn, Vector.getElem_set, eq_comm]
  constructor
  · rintro ⟨i, -, hnonzero, rfl⟩
    rw [hentry] at hnonzero ⊢
    split at hnonzero
    · next hzero => exact ⟨hnonzero, if_pos hzero⟩
    · exact absurd rfl hnonzero
  · rintro ⟨hnonzero, rfl⟩
    exact ⟨0, Nat.succ_pos 19, hnonzero, rfl⟩

/-- A list that does not have the first candidate. -/
theorem freeCandidate_iff_jamRun :
    Picked (jammed (jamJob 1).blacklist (jamJob 1).blacklistSize)
      ((jamJob 1).candidate id (after step (reset blank) jamSetup))
      ((jamJob 1).candidate id (after step (reset blank) jamSetup)) 9
      (after step (after step (reset blank) jamSetup) (jamRun 1)).freqKhz := by
  refine (freeCandidate_iff id blank jamSetup (jamRun 1) (jamJob 1) (jamRun_hopRun 1)
    (jamRun_delivered 1)).mpr ⟨fun _ hmem => ?_, fun hold => ?_⟩
  · rw [mem_jammed_jamJob, (jamJob_candidate 1).1] at hmem
    exact absurd hmem.2 (by decide)
  · exact absurd hold (zero_notMem_jammed _ _)

/-- The first check of all looks at the register that no check has set: a listed first
candidate passes, and the second was free. -/
theorem not_freeCandidate :
    ¬ ∀ (E : AesBlock → AesBlock) (powerUp : FhssEngine) (setup xs : List FhssIn) (job : HopJob),
      HopRun E job (after step (reset powerUp) setup) xs →
      Delivered (after step (reset powerUp) setup) xs →
        Picked (jammed job.blacklist job.blacklistSize)
          (job.candidate E (after step (reset powerUp) setup))
          (job.candidate E (after step (reset powerUp) setup)) 9
          (after step (after step (reset powerUp) setup) xs).freqKhz := by
  intro h
  have hpicked := h id blank jamSetup (jamRun 469400) (jamJob 469400) (jamRun_hopRun 469400)
    (jamRun_delivered 469400)
  have hfreq : (after step (after step (reset blank) jamSetup) (jamRun 469400)).freqKhz =
      469400 := by
    rw [picked_late_of_notMem (zero_notMem_jammed _ _)
      ((jamRun_hopRun 469400).picked_late (jamRun_delivered 469400))]
    exact (jamJob_candidate 469400).1
  rw [hfreq] at hpicked
  have hall := hpicked.all_listed ((mem_jammed_jamJob _ _).mpr ⟨by decide, rfl⟩)
  have hsecond := (mem_jammed_jamJob _ _).mp (hall 1 (by decide))
  rw [(jamJob_candidate 469400).2] at hsecond
  exact absurd hsecond.2 (by decide)

end FhssEngine
end Cirradio.Fpga
