import Cirradio.FhssEngine
import Cirradio.HopSequencer

/-!
# A request to the hop engine

From a hop tick to the delivery of a frequency, the engine holds the slot and frame of
the request, has the core encrypt their block once and delivers the channel of the last
eight bytes of the result.
-/

namespace Cirradio.Fpga
open CallRuns ByteWords Fhss

namespace FhssEngine

/-- The engine after the first inputs of a run. -/
abbrev runAt (s : FhssEngine) (xs : List FhssIn) (k : ℕ) : FhssEngine :=
  after step s (xs.take k)

/-- A valid result is the encryption of the block of the last start pulse. -/
def AesAnswers (E : AesBlock → AesBlock) (s : FhssEngine) (xs : List FhssIn) : Prop :=
  ∀ k x, xs[k]? = some x → x.aesResultValid = true →
    ∃ m ≤ k, (runAt s xs m).aesNext = true ∧
      (∀ l, m < l → l ≤ k → (runAt s xs l).aesNext = false) ∧
      x.aesResult = bytesWord (E (wordBytes (runAt s xs m).aesBlock))

/-- A run that takes a request at a hop tick, with no blacklist, and has the AES core
encrypt at the given hop index. -/
structure Request (E : AesBlock → AesBlock) (slot : BitVec 5) (frame : BitVec 32)
    (hop : BitVec 8) (s : FhssEngine) (xs : List FhssIn) : Prop where
  idle : s.state = .idle
  tick : s.hopTick = true
  asks : ∃ x, xs[0]? = some x ∧ x.slotReq = slot ∧ x.frameReq = frame
  hopIndex : ∀ k, 0 < k → k ≤ xs.length → (runAt s xs k).aesNext = true →
    (runAt s xs k).hopIndex = hop
  noBlacklist : ∀ x ∈ xs, NoBlacklist x
  aes : AesAnswers E s xs

/-- The engine, brought from reset to the request, delivers the frequency. -/
def Delivers (E : AesBlock → AesBlock) (slot : BitVec 5) (frame : BitVec 32)
    (hop : BitVec 8) (freq : BitVec 32) : Prop :=
  ∃ powerUp setup xs, Request E slot frame hop (after step (reset powerUp) setup) xs ∧
    (∀ k, 0 < k → k < xs.length →
      (runAt (after step (reset powerUp) setup) xs k).freqValid = false) ∧
    0 < xs.length ∧
    (after step (after step (reset powerUp) setup) xs).freqValid = true ∧
    freq = (after step (after step (reset powerUp) setup) xs).freqKhz

/-- The value the engine takes from an encrypted block. -/
def engineWord (E : AesBlock → AesBlock) (slot : BitVec 5) (frame : BitVec 32)
    (hop : BitVec 8) : ℕ :=
  bigEndian ((E (wordBytes (blockOf slot frame hop 0))).toList.drop 8)

theorem blacklisted_of_none (s : FhssEngine) {x : FhssIn} (h : NoBlacklist x) :
    blacklisted s x = false := by
  apply List.any_eq_false.mpr
  intro i hi hbad
  simp only [Bool.and_eq_true, decide_eq_true_eq, bne_iff_ne] at hbad
  exact hbad.1.2 (h i hbad.1.1)

theorem candidate_toNat (w : BitVec 64) :
    (225000 + (w % 11480).setWidth 32 * 25 : BitVec 32).toNat =
      225000 + 25 * (w.toNat % 11480) := by
  have hlt : w.toNat % 11480 < 11480 := Nat.mod_lt _ (by decide)
  have hw : (w % 11480).toNat = w.toNat % 11480 := by
    rw [BitVec.toNat_umod]
    rfl
  have hset : ((w % 11480).setWidth 32).toNat = w.toNat % 11480 := by
    rw [BitVec.toNat_setWidth, hw]
    exact Nat.mod_eq_of_lt (by omega)
  rw [BitVec.toNat_add, BitVec.toNat_mul, hset]
  have h₁ : (225000 : BitVec 32).toNat = 225000 := rfl
  have h₂ : (25 : BitVec 32).toNat = 25 := rfl
  rw [h₁, h₂]
  omega

section Run
variable {E : AesBlock → AesBlock} {slot : BitVec 5} {frame : BitVec 32} {hop : BitVec 8}
  {s : FhssEngine} {xs : List FhssIn}

/-- Where the state machine stands between the request and the delivery. -/
structure Working (E : AesBlock → AesBlock) (slot : BitVec 5) (frame : BitVec 32)
    (hop : BitVec 8) (s : FhssEngine) (xs : List FhssIn) (k : ℕ) : Prop where
  slotHeld : (runAt s xs k).slot = slot
  frameHeld : (runAt s xs k).frame = frame
  firstAttempt : (runAt s xs k).attempt = 0
  undelivered : (runAt s xs k).freqValid = false
  phase : (runAt s xs k).state = .initKey ∨
    ((runAt s xs k).state = .waitResult ∧
      ∃ m ≤ k, (runAt s xs m).aesNext = true ∧
        (∀ l, m < l → l ≤ k → (runAt s xs l).aesNext = false) ∧
        (runAt s xs m).aesBlock = blockOf slot frame hop 0) ∨
    ((runAt s xs k).state = .checkBlacklist ∧
      (runAt s xs k).cipherLo.toNat = engineWord E slot frame hop)

theorem runAt_succ {k : ℕ} {x : FhssIn} (hx : xs[k]? = some x) :
    runAt s xs (k + 1) = next (runAt s xs k) x := by
  rw [runAt, after_take_succ _ _ hx]
  rfl

theorem Request.first (h : Request E slot frame hop s xs) :
    Working E slot frame hop s xs 1 := by
  obtain ⟨x, hx, hslot, hframe⟩ := h.asks
  have hnext : runAt s xs 1 = next s x := runAt_succ hx
  refine ⟨?_, ?_, ?_, ?_, .inl ?_⟩ <;> rw [hnext] <;>
    simp [fsmNext, h.idle, h.tick, hslot, hframe]

theorem Working.held {k : ℕ} {x : FhssIn} (h : Working E slot frame hop s xs k)
    (hx : xs[k]? = some x)
    (hstate : (runAt s xs k).state = .initKey ∨ (runAt s xs k).state = .waitResult) :
    (runAt s xs (k + 1)).slot = slot ∧ (runAt s xs (k + 1)).frame = frame ∧
      (runAt s xs (k + 1)).attempt = 0 ∧ (runAt s xs (k + 1)).freqValid = false := by
  rw [runAt_succ hx, next_slot, next_frame, next_attempt, next_freqValid]
  rcases hstate with hstate | hstate
  · by_cases hready : x.aesReady = true <;>
      simp [fsmNext, hstate, hready, h.slotHeld, h.frameHeld, h.firstAttempt]
  · by_cases hvalid : x.aesResultValid = true <;>
      simp [fsmNext, hstate, hvalid, h.slotHeld, h.frameHeld, h.firstAttempt]

theorem last_high_unique {p : ℕ → Bool} {m m' k : ℕ} (hm : m ≤ k) (hm' : m' ≤ k)
    (hp : p m = true) (hp' : p m' = true) (hlast : ∀ l, m < l → l ≤ k → p l = false)
    (hlast' : ∀ l, m' < l → l ≤ k → p l = false) : m' = m := by
  rcases Nat.lt_trichotomy m' m with hlt | heq | hgt
  · have hlow := hlast' m hlt hm
    rw [hp] at hlow
    cases hlow
  · exact heq
  · have hlow := hlast m' hgt hm'
    rw [hp'] at hlow
    cases hlow

/-- The key is set up: when the core is ready, the block of the request is sent to it. -/
theorem Working.next_initKey (hreq : Request E slot frame hop s xs) {k : ℕ} {x : FhssIn}
    (h : Working E slot frame hop s xs k) (hx : xs[k]? = some x) (hk : k < xs.length)
    (hstate : (runAt s xs k).state = .initKey) : Working E slot frame hop s xs (k + 1) := by
  have hnext := runAt_succ (s := s) hx
  obtain ⟨hslot, hframe, hattempt, hundelivered⟩ := h.held hx (.inl hstate)
  by_cases hready : x.aesReady = true
  · have hpulse : (runAt s xs (k + 1)).aesNext = true := by
      rw [hnext]
      simp [fsmNext, hstate, hready]
    have hwait : (runAt s xs (k + 1)).state = .waitResult := by
      rw [hnext]
      simp [fsmNext, hstate, hready]
    have hblock : (runAt s xs (k + 1)).aesBlock = blockOf slot frame hop 0 := by
      rw [aesBlock, hslot, hframe, hattempt, hreq.hopIndex (k + 1) (Nat.succ_pos k) hk hpulse]
    refine ⟨hslot, hframe, hattempt, hundelivered,
      .inr (.inl ⟨hwait, k + 1, Nat.le_refl _, hpulse, ?_, hblock⟩)⟩
    intro l hl hl'
    omega
  · refine ⟨hslot, hframe, hattempt, hundelivered, .inl ?_⟩
    rw [hnext]
    simp [fsmNext, hstate, hready]

/-- The core is at work: its answer is that to the last block sent, the one of this
request. -/
theorem Working.next_waitResult (hreq : Request E slot frame hop s xs) {k : ℕ} {x : FhssIn}
    (h : Working E slot frame hop s xs k) (hx : xs[k]? = some x)
    (hstate : (runAt s xs k).state = .waitResult) {m : ℕ} (hm : m ≤ k)
    (hpulse : (runAt s xs m).aesNext = true)
    (hlast : ∀ l, m < l → l ≤ k → (runAt s xs l).aesNext = false)
    (hblock : (runAt s xs m).aesBlock = blockOf slot frame hop 0) :
    Working E slot frame hop s xs (k + 1) := by
  have hnext := runAt_succ (s := s) hx
  obtain ⟨hslot, hframe, hattempt, hundelivered⟩ := h.held hx (.inr hstate)
  by_cases hvalid : x.aesResultValid = true
  · have hcheck : (runAt s xs (k + 1)).state = .checkBlacklist := by
      rw [hnext]
      simp [fsmNext, hstate, hvalid]
    have hcipher : (runAt s xs (k + 1)).cipherLo = x.aesResult.setWidth 64 := by
      rw [hnext]
      simp [fsmNext, hstate, hvalid]
    obtain ⟨m', hm', hpulse', hlast', hresult⟩ := hreq.aes k x hx hvalid
    obtain rfl : m' = m := last_high_unique (p := fun l => (runAt s xs l).aesNext)
      hm hm' hpulse hpulse' hlast hlast'
    refine ⟨hslot, hframe, hattempt, hundelivered, .inr (.inr ⟨hcheck, ?_⟩)⟩
    rw [hcipher, hresult, hblock, bytesWord_low]
    rfl
  · have hwait : (runAt s xs (k + 1)).state = .waitResult := by
      rw [hnext]
      simp [fsmNext, hstate, hvalid]
    have hlow : (runAt s xs (k + 1)).aesNext = false := by
      rw [hnext]
      simp [fsmNext, hstate, hvalid]
    refine ⟨hslot, hframe, hattempt, hundelivered,
      .inr (.inl ⟨hwait, m, Nat.le_succ_of_le hm, hpulse, ?_, hblock⟩)⟩
    intro l hl hl'
    rcases Nat.lt_or_eq_of_le hl' with hlt | rfl
    · exact hlast l hl (Nat.le_of_lt_succ hlt)
    · exact hlow

theorem delivers_of_checkBlacklist (hreq : Request E slot frame hop s xs) {k : ℕ}
    {x : FhssIn} (hx : xs[k]? = some x) (hstate : (runAt s xs k).state = .checkBlacklist)
    (hword : (runAt s xs k).cipherLo.toNat = engineWord E slot frame hop) :
    (runAt s xs (k + 1)).freqValid = true ∧
      (runAt s xs (k + 1)).freqKhz.toNat =
        225000 + 25 * (engineWord E slot frame hop % 11480) := by
  have hfree := blacklisted_of_none (runAt s xs k)
    (hreq.noBlacklist x (List.mem_of_getElem? hx))
  have hfsm := fsmNext_of_pass hstate (.inl hfree)
  rw [runAt_succ hx, next_freqValid, next_freqKhz, hfsm]
  refine ⟨rfl, ?_⟩
  dsimp only
  rw [candidate_toNat, hword]

theorem Working.next (hreq : Request E slot frame hop s xs) {k : ℕ} (hk : k < xs.length)
    (h : Working E slot frame hop s xs k) :
    Working E slot frame hop s xs (k + 1) ∨
      ((runAt s xs (k + 1)).freqValid = true ∧
        (runAt s xs (k + 1)).freqKhz.toNat =
          225000 + 25 * (engineWord E slot frame hop % 11480)) := by
  obtain ⟨x, hx⟩ : ∃ x, xs[k]? = some x := ⟨_, List.getElem?_eq_getElem hk⟩
  rcases h.phase with hstate | ⟨hstate, m, hm, hpulse, hlast, hblock⟩ | ⟨hstate, hword⟩
  · exact .inl (h.next_initKey hreq hx hk hstate)
  · exact .inl (h.next_waitResult hreq hx hstate hm hpulse hlast hblock)
  · exact .inr (delivers_of_checkBlacklist hreq hx hstate hword)

/-- What the engine delivers is the channel of its word. -/
theorem Request.freqKhz (h : Request E slot frame hop s xs)
    (hbusy : ∀ k, 0 < k → k < xs.length → (runAt s xs k).freqValid = false)
    (hpos : 0 < xs.length) (hvalid : (after step s xs).freqValid = true) :
    (after step s xs).freqKhz.toNat = 225000 + 25 * (engineWord E slot frame hop % 11480) := by
  have hworking : ∀ k, 0 < k → k < xs.length → Working E slot frame hop s xs k := by
    intro k
    induction k with
    | zero => intro h0; exact absurd h0 (Nat.lt_irrefl 0)
    | succ k ih =>
      intro _ hk
      rcases Nat.eq_zero_or_pos k with rfl | hk0
      · exact h.first
      · rcases Working.next h (by omega) (ih hk0 (by omega)) with hnext | ⟨hdone, -⟩
        · exact hnext
        · rw [hbusy (k + 1) (by omega) hk] at hdone
          cases hdone
  obtain ⟨n, hn⟩ : ∃ n, xs.length = n + 1 := ⟨xs.length - 1, by omega⟩
  have hend : runAt s xs (n + 1) = after step s xs := by rw [runAt, ← hn, List.take_length]
  have hnot : ¬ Working E slot frame hop s xs (n + 1) := by
    intro hw
    have hfalse := hw.undelivered
    rw [hend, hvalid] at hfalse
    cases hfalse
  rcases Nat.eq_zero_or_pos n with rfl | hn0
  · exact absurd h.first hnot
  · rcases Working.next h (by omega) (hworking n hn0 (by omega)) with hw | ⟨-, hfreq⟩
    · exact absurd hw hnot
    · rwa [hend] at hfreq

end Run

end FhssEngine
end Cirradio.Fpga
