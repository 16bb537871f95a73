import Cirradio.CallRuns

/-!
# The hop engine

One clock cycle of `fhss_engine`: the watchdog of the GPS pulse, the hop timer and the
state machine that has the AES core encrypt a block and turns the result into a
frequency. The core itself is outside; its outputs are inputs here. Registers without a
reset value keep what they hold.
-/

namespace Cirradio.Fpga

inductive FhssState where
  | idle
  | initKey
  | waitReady
  | encrypt
  | waitResult
  | checkBlacklist
  | done
  deriving DecidableEq, Repr

structure FhssIn where
  blacklist : Vector (BitVec 32) 20
  hopPeriod : BitVec 32
  blacklistSize : BitVec 6
  pps : Bool
  slotReq : BitVec 5
  frameReq : BitVec 32
  aesReady : Bool
  aesResult : BitVec 128
  aesResultValid : Bool
  deriving DecidableEq, Repr

structure FhssEngine where
  ppsWatchdog : BitVec 31
  hopLock : Bool
  gpsHoldover : Bool
  hopTimer : BitVec 32
  hopIndex : BitVec 8
  hopTick : Bool
  ppsPrev : Bool
  state : FhssState
  aesInit : Bool
  aesNext : Bool
  attempt : BitVec 8
  slot : BitVec 5
  frame : BitVec 32
  cipherLo : BitVec 64
  channelIdx : BitVec 32
  candidateFreq : BitVec 32
  freqKhz : BitVec 32
  freqValid : Bool
  deriving DecidableEq, Repr

namespace FhssEngine

def gpsHoldoverCycles : ℕ := 1500000000

def reset (s : FhssEngine) : FhssEngine :=
  { s with
    ppsWatchdog := 0
    hopLock := false
    gpsHoldover := true
    hopTimer := 1000000
    hopIndex := 0
    hopTick := false
    ppsPrev := false
    state := .idle
    aesInit := false
    aesNext := false
    attempt := 0
    freqKhz := 0
    freqValid := false }

/-- The candidate of the register is an active entry of the blacklist. -/
def blacklisted (s : FhssEngine) (x : FhssIn) : Bool :=
  (List.finRange 20).any fun i =>
    decide (i.val < x.blacklistSize.toNat) && x.blacklist[i] != 0 &&
      x.blacklist[i] == s.candidateFreq

/-- The active entries of a blacklist. -/
def jammed (blacklist : Vector (BitVec 32) 20) (blacklistSize : BitVec 6) :
    Set (BitVec 32) :=
  {freq | ∃ i : Fin 20, i.val < blacklistSize.toNat ∧ blacklist.get i ≠ 0 ∧ blacklist.get i = freq}

theorem blacklisted_iff (s : FhssEngine) (x : FhssIn) :
    blacklisted s x = true ↔ s.candidateFreq ∈ jammed x.blacklist x.blacklistSize := by
  unfold blacklisted
  rw [List.any_eq_true]
  constructor
  · rintro ⟨i, -, hentry⟩
    simp only [Bool.and_eq_true, decide_eq_true_eq, bne_iff_ne, beq_iff_eq] at hentry
    exact ⟨i, hentry.1.1, hentry.1.2, hentry.2⟩
  · rintro ⟨i, hi, hnonzero, hfreq⟩
    refine ⟨i, List.mem_finRange i, ?_⟩
    simp only [Bool.and_eq_true, decide_eq_true_eq, bne_iff_ne, beq_iff_eq]
    exact ⟨⟨hi, hnonzero⟩, hfreq⟩

/-- No active entry of the blacklist names a frequency. -/
def NoBlacklist (x : FhssIn) : Prop :=
  ∀ i : Fin 20, i.val < x.blacklistSize.toNat → x.blacklist[i] = 0

/-- Slot, frame with its high byte first, hop index and attempt: 125 bits in the low end
of the block. -/
def blockOf (slot : BitVec 5) (frame : BitVec 32) (hopIndex attempt : BitVec 8) :
    BitVec 128 :=
  (slot ++ 0#24 ++ frame ++ hopIndex ++ 0#48 ++ attempt : BitVec 125).setWidth 128

def aesBlock (s : FhssEngine) : BitVec 128 := blockOf s.slot s.frame s.hopIndex s.attempt

/-- Watchdog, lock and holdover. -/
def watchdogNext (s : FhssEngine) (x : FhssIn) : BitVec 31 × Bool × Bool :=
  if x.pps then (0, true, false)
  else if s.ppsWatchdog < BitVec.ofNat 31 gpsHoldoverCycles then
    (s.ppsWatchdog + 1, s.hopLock, s.gpsHoldover)
  else (s.ppsWatchdog, s.hopLock, true)

/-- Hop timer, hop index and tick. A rising edge of the GPS pulse restarts the count. -/
def hopTimerNext (s : FhssEngine) (x : FhssIn) : BitVec 32 × BitVec 8 × Bool :=
  if x.pps && !s.ppsPrev then (x.hopPeriod - 1, 0, false)
  else if s.hopTimer = 0 then
    (x.hopPeriod - 1, if s.hopIndex < 99 then s.hopIndex + 1 else s.hopIndex, true)
  else (s.hopTimer - 1, s.hopIndex, false)

/-- The state machine. `blacklisted` is computed beside this block, so the comparison is
with the candidate of the check before. -/
def fsmNext (s : FhssEngine) (x : FhssIn) : FhssEngine :=
  let s' := { s with aesInit := false, aesNext := false, freqValid := false }
  match s.state with
  | .idle =>
    if s.hopTick then
      { s' with
        slot := x.slotReq, frame := x.frameReq, attempt := 0, aesInit := true
        state := .initKey }
    else s'
  | .initKey =>
    if x.aesReady then { s' with aesNext := true, state := .waitResult } else s'
  | .waitResult =>
    if x.aesResultValid then
      { s' with cipherLo := x.aesResult.setWidth 64, state := .checkBlacklist }
    else s'
  | .checkBlacklist =>
    let channelIdx := (s.cipherLo % 11480).setWidth 32
    let candidateFreq := 225000 + channelIdx * 25
    let s' := { s' with channelIdx, candidateFreq }
    if !blacklisted s x || 9 ≤ s.attempt then
      { s' with freqKhz := candidateFreq, freqValid := true, state := .done }
    else { s' with attempt := s.attempt + 1, aesNext := true, state := .waitResult }
  | .done => { s' with state := .idle }
  | .waitReady | .encrypt => { s' with state := .idle }

/-- The registers after the clock edge. -/
def next (s : FhssEngine) (x : FhssIn) : FhssEngine :=
  { fsmNext s x with
    ppsWatchdog := (watchdogNext s x).1
    hopLock := (watchdogNext s x).2.1
    gpsHoldover := (watchdogNext s x).2.2
    hopTimer := (hopTimerNext s x).1
    hopIndex := (hopTimerNext s x).2.1
    hopTick := (hopTimerNext s x).2.2
    ppsPrev := x.pps }

structure Out where
  freqKhz : BitVec 32
  freqValid : Bool
  hopLock : Bool
  gpsHoldover : Bool
  deriving DecidableEq, Repr

/-- One cycle: the outputs before the clock edge, and the registers after it. -/
def step (s : FhssEngine) (x : FhssIn) : FhssEngine × Out :=
  (next s x, ⟨s.freqKhz, s.freqValid, s.hopLock, s.gpsHoldover⟩)

@[simp] theorem step_fst (s : FhssEngine) (x : FhssIn) : (step s x).1 = next s x := rfl

@[simp] theorem next_state (s : FhssEngine) (x : FhssIn) :
    (next s x).state = (fsmNext s x).state := rfl

@[simp] theorem next_aesNext (s : FhssEngine) (x : FhssIn) :
    (next s x).aesNext = (fsmNext s x).aesNext := rfl

@[simp] theorem next_attempt (s : FhssEngine) (x : FhssIn) :
    (next s x).attempt = (fsmNext s x).attempt := rfl

@[simp] theorem next_slot (s : FhssEngine) (x : FhssIn) :
    (next s x).slot = (fsmNext s x).slot := rfl

@[simp] theorem next_frame (s : FhssEngine) (x : FhssIn) :
    (next s x).frame = (fsmNext s x).frame := rfl

@[simp] theorem next_cipherLo (s : FhssEngine) (x : FhssIn) :
    (next s x).cipherLo = (fsmNext s x).cipherLo := rfl

@[simp] theorem next_candidateFreq (s : FhssEngine) (x : FhssIn) :
    (next s x).candidateFreq = (fsmNext s x).candidateFreq := rfl

@[simp] theorem next_freqKhz (s : FhssEngine) (x : FhssIn) :
    (next s x).freqKhz = (fsmNext s x).freqKhz := rfl

@[simp] theorem next_freqValid (s : FhssEngine) (x : FhssIn) :
    (next s x).freqValid = (fsmNext s x).freqValid := rfl

theorem fsmNext_of_pass {s : FhssEngine} {x : FhssIn} (hstate : s.state = .checkBlacklist)
    (hpass : blacklisted s x = false ∨ 9 ≤ s.attempt) :
    fsmNext s x = { s with
      aesInit := false
      aesNext := false
      channelIdx := (s.cipherLo % 11480).setWidth 32
      candidateFreq := 225000 + (s.cipherLo % 11480).setWidth 32 * 25
      freqKhz := 225000 + (s.cipherLo % 11480).setWidth 32 * 25
      freqValid := true
      state := .done } := by
  have hcond : (!blacklisted s x || decide (9 ≤ s.attempt)) = true := by
    rwa [Bool.or_eq_true, Bool.not_eq_true', decide_eq_true_iff]
  simp only [fsmNext, hstate, hcond, if_true]

theorem fsmNext_of_retry {s : FhssEngine} {x : FhssIn} (hstate : s.state = .checkBlacklist)
    (hlisted : blacklisted s x = true) (hmore : ¬9 ≤ s.attempt) :
    fsmNext s x = { s with
      aesInit := false
      aesNext := true
      freqValid := false
      channelIdx := (s.cipherLo % 11480).setWidth 32
      candidateFreq := 225000 + (s.cipherLo % 11480).setWidth 32 * 25
      attempt := s.attempt + 1
      state := .waitResult } := by
  have hcond : (!blacklisted s x || decide (9 ≤ s.attempt)) = false := by
    rw [hlisted, decide_eq_false hmore]
    rfl
  simp only [fsmNext, hstate, hcond, Bool.false_eq_true, if_false]

/-- The input has a rising edge of the GPS pulse. -/
def rising (s : FhssEngine) (x : FhssIn) : Bool := x.pps && !s.ppsPrev

theorem rising_of_low (s : FhssEngine) {x : FhssIn} (h : x.pps = false) :
    rising s x = false := by simp [rising, h]

theorem hopTimerNext_of_rising {s : FhssEngine} {x : FhssIn} (h : rising s x = true) :
    hopTimerNext s x = (x.hopPeriod - 1, 0, false) := if_pos h

theorem hopTimerNext_of_zero {s : FhssEngine} {x : FhssIn} (h : rising s x = false)
    (htimer : s.hopTimer = 0) :
    hopTimerNext s x =
      (x.hopPeriod - 1, if s.hopIndex < 99 then s.hopIndex + 1 else s.hopIndex, true) := by
  unfold rising at h
  simp [hopTimerNext, h, htimer]

theorem hopTimerNext_of_ne_zero {s : FhssEngine} {x : FhssIn} (h : rising s x = false)
    (htimer : s.hopTimer ≠ 0) :
    hopTimerNext s x = (s.hopTimer - 1, s.hopIndex, false) := by
  unfold rising at h
  unfold hopTimerNext
  rw [h, if_neg Bool.false_ne_true, if_neg htimer]

theorem next_hopIndex_of_quiet {s : FhssEngine} {x : FhssIn} (h : rising s x = false)
    (htick : (next s x).hopTick = false) : (next s x).hopIndex = s.hopIndex := by
  change (hopTimerNext s x).2.2 = false at htick
  change (hopTimerNext s x).2.1 = _
  by_cases htimer : s.hopTimer = 0
  · rw [hopTimerNext_of_zero h htimer] at htick
    cases htick
  · rw [hopTimerNext_of_ne_zero h htimer]

end FhssEngine
end Cirradio.Fpga
