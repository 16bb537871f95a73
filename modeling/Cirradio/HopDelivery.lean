import Cirradio.HopRequest

/-!
# A run of the hop engine that delivers

From reset, a GPS pulse and one hop bring the engine to a tick. It takes the request in
the cycle of another pulse, so that the hop index counts from zero while the core is not
ready.
-/

namespace Cirradio.Fpga
open CallRuns ByteWords Fhss

namespace FhssEngine

/-- An input that asks for a slot and frame, with a hop at every cycle. -/
def askIn (slot : BitVec 5) (frame : BitVec 32) : FhssIn where
  blacklist := Vector.replicate 20 0
  hopPeriod := 1
  blacklistSize := 0
  pps := false
  slotReq := slot
  frameReq := frame
  aesReady := false
  aesResult := 0
  aesResultValid := false

/-- The engine holds the request and waits for the core. -/
structure Waiting (slot : BitVec 5) (frame : BitVec 32) (s : FhssEngine) : Prop where
  state : s.state = .initKey
  slotHeld : s.slot = slot
  frameHeld : s.frame = frame
  firstAttempt : s.attempt = 0
  noPulse : s.aesNext = false
  undelivered : s.freqValid = false

variable {slot : BitVec 5} {frame : BitVec 32} {s : FhssEngine}

theorem Waiting.next {x : FhssIn} (h : Waiting slot frame s) (hready : x.aesReady = false) :
    Waiting slot frame (next s x) := by
  constructor <;>
    simp [fsmNext, h.state, hready, h.slotHeld, h.frameHeld, h.firstAttempt]

theorem hopIndex_succ {n : ℕ} (hindex : s.hopIndex = BitVec.ofNat 8 n) (hn : n < 99) :
    (if s.hopIndex < 99 then s.hopIndex + 1 else s.hopIndex) = BitVec.ofNat 8 (n + 1) := by
  have hlt : s.hopIndex < 99 := by
    rw [hindex, BitVec.lt_def, BitVec.toNat_ofNat, Nat.mod_eq_of_lt (by omega)]
    exact hn
  rw [if_pos hlt, hindex, BitVec.ofNat_add]
  rfl

/-- While the engine waits, the hop index goes up by one at every cycle. -/
theorem Waiting.replicate (h : Waiting slot frame s) (htimer : s.hopTimer = 0)
    (hindex : s.hopIndex = 0) (n : ℕ) (hn : n ≤ 99) :
    Waiting slot frame (after step s (List.replicate n (askIn slot frame))) ∧
      (after step s (List.replicate n (askIn slot frame))).hopTimer = 0 ∧
      (after step s (List.replicate n (askIn slot frame))).hopIndex = BitVec.ofNat 8 n := by
  induction n with
  | zero => exact ⟨h, htimer, hindex⟩
  | succ n ih =>
    obtain ⟨hwait, htimer', hindex'⟩ := ih (by omega)
    rw [List.replicate_succ', after_concat, step_fst]
    generalize after step s (List.replicate n (askIn slot frame)) = t at hwait htimer' hindex'
    have hnext := hopTimerNext_of_zero (rising_of_low t (x := askIn slot frame) rfl) htimer'
    refine ⟨hwait.next rfl, ?_, ?_⟩
    · change (hopTimerNext t (askIn slot frame)).1 = 0
      rw [hnext]
      simp [askIn]
    · change (hopTimerNext t (askIn slot frame)).2.1 = _
      rw [hnext]
      exact hopIndex_succ hindex' (by omega)

theorem askIn_noBlacklist (slot : BitVec 5) (frame : BitVec 32) :
    NoBlacklist (askIn slot frame) := by
  intro i hi
  exact absurd hi (Nat.not_lt_zero _)

section Build
variable {E : AesBlock → AesBlock} {hop : BitVec 8} {xs : List FhssIn}

theorem runAt_append {k : ℕ} (hk : k ≤ xs.length) (x : FhssIn) :
    runAt s (xs ++ [x]) k = runAt s xs k := by
  rw [runAt, List.take_append_of_le_length hk]

theorem runAt_length (s : FhssEngine) (xs : List FhssIn) :
    runAt s xs xs.length = after step s xs := by rw [runAt, List.take_length]

theorem runAt_concat (s : FhssEngine) (xs : List FhssIn) (x : FhssIn) :
    runAt s (xs ++ [x]) (xs.length + 1) = next (after step s xs) x := by
  rw [runAt_succ List.getElem?_concat_length, runAt_append (Nat.le_refl _), runAt_length]

/-- A run with a request goes on with an input that keeps to the rules: it blacklists
nothing, it answers the start pulse of just now if any, and the core is started at the
right hop index. -/
theorem Request.concat (h : Request E slot frame hop s xs) {x : FhssIn}
    (hfree : NoBlacklist x)
    (hanswer : x.aesResultValid = true → (after step s xs).aesNext = true ∧
      x.aesResult = bytesWord (E (wordBytes (after step s xs).aesBlock)))
    (hindex : (next (after step s xs) x).aesNext = true →
      (next (after step s xs) x).hopIndex = hop) :
    Request E slot frame hop s (xs ++ [x]) := by
  refine ⟨h.idle, h.tick, ?_, ?_, ?_, ?_⟩
  · obtain ⟨y, hy, hask⟩ := h.asks
    refine ⟨y, ?_, hask⟩
    rw [List.getElem?_append_left (List.getElem?_eq_some_iff.mp hy).1, hy]
  · intro k hk hle hpulse
    rw [List.length_append, List.length_singleton] at hle
    rcases Nat.lt_or_eq_of_le hle with hlt | rfl
    · rw [runAt_append (by omega)] at hpulse ⊢
      exact h.hopIndex k hk (by omega) hpulse
    · rw [runAt_concat] at hpulse ⊢
      exact hindex hpulse
  · intro y hy
    rcases List.mem_append.mp hy with hy | hy
    · exact h.noBlacklist y hy
    · rw [List.mem_singleton.mp hy]
      exact hfree
  · intro k y hy hvalid
    have hk : k < (xs ++ [x]).length := (List.getElem?_eq_some_iff.mp hy).1
    rw [List.length_append, List.length_singleton] at hk
    rcases Nat.lt_or_eq_of_le (Nat.le_of_lt_succ hk) with hlt | rfl
    · rw [List.getElem?_append_left hlt] at hy
      obtain ⟨m, hm, hpulse, hlast, hresult⟩ := h.aes k y hy hvalid
      refine ⟨m, hm, ?_, fun l hl hl' => ?_, ?_⟩
      · rwa [runAt_append (by omega)]
      · rw [runAt_append (by omega)]
        exact hlast l hl hl'
      · rwa [runAt_append (by omega)]
    · rw [List.getElem?_concat_length] at hy
      cases hy
      obtain ⟨hpulse, hresult⟩ := hanswer hvalid
      refine ⟨xs.length, Nat.le_refl _, ?_, fun l hl hl' => by omega, ?_⟩
      · rwa [runAt_append (Nat.le_refl _), runAt_length]
      · rwa [runAt_append (Nat.le_refl _), runAt_length]

/-- A run with a request and no delivery yet. -/
structure Pending (E : AesBlock → AesBlock) (slot : BitVec 5) (frame : BitVec 32)
    (hop : BitVec 8) (s : FhssEngine) (xs : List FhssIn) : Prop where
  request : Request E slot frame hop s xs
  undelivered : ∀ k, 0 < k → k ≤ xs.length → (runAt s xs k).freqValid = false

theorem Pending.concat (h : Pending E slot frame hop s xs) {x : FhssIn}
    (hrequest : Request E slot frame hop s (xs ++ [x]))
    (hnot : (next (after step s xs) x).freqValid = false) :
    Pending E slot frame hop s (xs ++ [x]) := by
  refine ⟨hrequest, fun k hk hle => ?_⟩
  rw [List.length_append, List.length_singleton] at hle
  rcases Nat.lt_or_eq_of_le hle with hlt | rfl
  · rw [runAt_append (by omega)]
    exact h.undelivered k hk (by omega)
  · rwa [runAt_concat]

theorem Pending.wait (h : Pending E slot frame hop s xs)
    (hwait : Waiting slot frame (after step s xs)) :
    Pending E slot frame hop s (xs ++ [askIn slot frame]) := by
  have hnext : Waiting slot frame (next (after step s xs) (askIn slot frame)) :=
    hwait.next rfl
  refine h.concat (h.request.concat (askIn_noBlacklist slot frame) ?_ ?_) hnext.undelivered
  · intro hvalid
    cases hvalid
  · intro hpulse
    rw [hnext.noPulse] at hpulse
    cases hpulse

theorem Pending.replicate (h : Pending E slot frame hop s xs)
    (hwait : Waiting slot frame (after step s xs)) (htimer : (after step s xs).hopTimer = 0)
    (hindex : (after step s xs).hopIndex = 0) (n : ℕ) (hn : n ≤ 99) :
    Pending E slot frame hop s (xs ++ List.replicate n (askIn slot frame)) := by
  induction n with
  | zero => rwa [List.replicate_zero, List.append_nil]
  | succ n ih =>
    have hafter := (hwait.replicate htimer hindex n (by omega)).1
    rw [List.replicate_succ', ← List.append_assoc]
    refine (ih (by omega)).wait ?_
    rwa [after_append]

/-- The core is ready. -/
def readyIn (slot : BitVec 5) (frame : BitVec 32) : FhssIn :=
  { askIn slot frame with aesReady := true }

/-- The core has the result. -/
def resultIn (slot : BitVec 5) (frame : BitVec 32) (result : BitVec 128) : FhssIn :=
  { askIn slot frame with aesResult := result, aesResultValid := true }

/-- A waiting engine delivers three cycles after the core is ready. -/
theorem Pending.deliver {powerUp : FhssEngine} {setup : List FhssIn}
    (h : Pending E slot frame hop (after step (reset powerUp) setup) xs)
    (hwait : Waiting slot frame (after step (after step (reset powerUp) setup) xs))
    (hindex : (next (after step (after step (reset powerUp) setup) xs)
      (readyIn slot frame)).hopIndex = hop) :
    ∃ freq, Delivers E slot frame hop freq := by
  generalize hs : after step (reset powerUp) setup = s at h hwait hindex
  -- the core starts
  have hready : Pending E slot frame hop s (xs ++ [readyIn slot frame]) := by
    refine h.concat (h.request.concat (askIn_noBlacklist slot frame) ?_ fun _ => hindex) ?_
    · intro hvalid
      cases hvalid
    · simp [fsmNext, hwait.state, readyIn]
  have hstarted : after step s (xs ++ [readyIn slot frame]) =
      next (after step s xs) (readyIn slot frame) := by rw [after_concat, step_fst]
  generalize xs ++ [readyIn slot frame] = xs₁ at hready hstarted
  have hpulse : (after step s xs₁).aesNext = true := by
    rw [hstarted]
    simp [fsmNext, hwait.state, readyIn]
  have hwaiting : (after step s xs₁).state = .waitResult := by
    rw [hstarted]
    simp [fsmNext, hwait.state, readyIn]
  -- the core answers
  obtain ⟨result, hresult⟩ : ∃ result,
      result = bytesWord (E (wordBytes (after step s xs₁).aesBlock)) := ⟨_, rfl⟩
  have hanswered : Pending E slot frame hop s (xs₁ ++ [resultIn slot frame result]) := by
    refine hready.concat (hready.request.concat (askIn_noBlacklist slot frame) ?_ ?_) ?_
    · exact fun _ => ⟨hpulse, hresult⟩
    · intro hagain
      simp [fsmNext, hwaiting, resultIn] at hagain
    · simp [fsmNext, hwaiting, resultIn]
  have hchecking : (after step s (xs₁ ++ [resultIn slot frame result])).state =
      .checkBlacklist := by
    rw [after_concat, step_fst]
    simp [fsmNext, hwaiting, resultIn]
  generalize xs₁ ++ [resultIn slot frame result] = xs₂ at hanswered hchecking
  -- the check passes
  have hfree := blacklisted_of_none (after step s xs₂) (askIn_noBlacklist slot frame)
  have hfsm := fsmNext_of_pass hchecking (.inl hfree)
  have hrequest : Request E slot frame hop s (xs₂ ++ [askIn slot frame]) := by
    refine hanswered.request.concat (askIn_noBlacklist slot frame) ?_ ?_
    · intro hvalid
      cases hvalid
    · intro hagain
      rw [next_aesNext, hfsm] at hagain
      cases hagain
  subst hs
  refine ⟨_, powerUp, setup, xs₂ ++ [askIn slot frame], hrequest, ?_, by simp, ?_, rfl⟩
  · intro k hk hlt
    rw [List.length_append, List.length_singleton] at hlt
    rw [runAt_append (by omega)]
    exact hanswered.undelivered k hk (by omega)
  · rw [after_concat, step_fst, next_freqValid, hfsm]

end Build

section FromReset
variable {E : AesBlock → AesBlock} {slot : BitVec 5} {frame : BitVec 32} {hop : BitVec 8}

/-- An input with the GPS pulse, for a hop period in cycles. -/
def pulseIn (slot : BitVec 5) (frame : BitVec 32) (hopPeriod : BitVec 32) : FhssIn :=
  { askIn slot frame with hopPeriod := hopPeriod, pps := true }

/-- Registers to come up with. -/
def blank : FhssEngine where
  ppsWatchdog := 0
  hopLock := false
  gpsHoldover := false
  hopTimer := 0
  hopIndex := 0
  hopTick := false
  ppsPrev := false
  state := .idle
  aesInit := false
  aesNext := false
  attempt := 0
  slot := 0
  frame := 0
  cipherLo := 0
  channelIdx := 0
  candidateFreq := 0
  freqKhz := 0
  freqValid := false

/-- A pulse and one hop later the engine is idle at a hop tick. -/
def tickSetup (slot : BitVec 5) (frame : BitVec 32) : List FhssIn :=
  [pulseIn slot frame 1, askIn slot frame]

theorem tickSetup_after (slot : BitVec 5) (frame : BitVec 32) :
    (after step (reset blank) (tickSetup slot frame)).state = .idle ∧
      (after step (reset blank) (tickSetup slot frame)).hopTick = true ∧
      (after step (reset blank) (tickSetup slot frame)).ppsPrev = false := by
  refine ⟨?_, ?_, ?_⟩ <;>
    simp [tickSetup, pulseIn, askIn, reset, blank, next, fsmNext, hopTimerNext, after_cons]

variable {s : FhssEngine}

theorem pulse_hop (slot : BitVec 5) (frame : BitVec 32) (hprev : s.ppsPrev = false)
    (hopPeriod : BitVec 32) :
    (next s (pulseIn slot frame hopPeriod)).hopTimer = hopPeriod - 1 ∧
      (next s (pulseIn slot frame hopPeriod)).hopIndex = 0 := by
  have hnext : hopTimerNext s (pulseIn slot frame hopPeriod) = (hopPeriod - 1, 0, false) := by
    simp [hopTimerNext, hprev, pulseIn]
  constructor
  · change (hopTimerNext s _).1 = _
    rw [hnext]
  · change (hopTimerNext s _).2.1 = _
    rw [hnext]

theorem pulse_waiting (slot : BitVec 5) (frame : BitVec 32) (hidle : s.state = .idle)
    (htick : s.hopTick = true) (hopPeriod : BitVec 32) :
    Waiting slot frame (next s (pulseIn slot frame hopPeriod)) := by
  constructor <;> simp [fsmNext, hidle, htick, pulseIn, askIn]

theorem pulse_pending (hidle : s.state = .idle) (htick : s.hopTick = true)
    (hopPeriod : BitVec 32) : Pending E slot frame hop s [pulseIn slot frame hopPeriod] := by
  have hwait := pulse_waiting slot frame hidle htick hopPeriod
  have hone : ∀ k, 0 < k → k ≤ [pulseIn slot frame hopPeriod].length →
      runAt s [pulseIn slot frame hopPeriod] k = next s (pulseIn slot frame hopPeriod) := by
    intro k hk hle
    rw [List.length_singleton] at hle
    obtain rfl : k = 1 := by omega
    rfl
  refine ⟨⟨hidle, htick, ⟨_, rfl, rfl, rfl⟩, ?_, ?_, ?_⟩, ?_⟩
  · intro k hk hle hpulse
    rw [hone k hk hle, hwait.noPulse] at hpulse
    cases hpulse
  · intro x hx
    rw [List.mem_singleton.mp hx]
    exact askIn_noBlacklist slot frame
  · intro k x hx hvalid
    rw [List.mem_singleton.mp (List.mem_of_getElem? hx)] at hvalid
    cases hvalid
  · intro k hk hle
    rw [hone k hk hle]
    exact hwait.undelivered

/-- Every slot, frame and hop index has a run from reset that delivers. -/
theorem exists_delivers (E : AesBlock → AesBlock) (slot : BitVec 5) (frame : BitVec 32)
    (hop : BitVec 8) (hhop : hop < 100) : ∃ freq, Delivers E slot frame hop freq := by
  obtain ⟨hidle, htick, hprev⟩ := tickSetup_after slot frame
  have hlt : hop.toNat < 100 := hhop
  rcases Nat.eq_zero_or_pos hop.toNat with hzero | hpos
  · -- with a longer hop the core starts before the index moves
    have hhop0 : hop = 0 := BitVec.eq_of_toNat_eq hzero
    obtain ⟨htimer, hindex⟩ := pulse_hop slot frame hprev 2
    refine (pulse_pending hidle htick 2).deliver (pulse_waiting slot frame hidle htick 2) ?_
    change (hopTimerNext (next _ (pulseIn slot frame 2)) (readyIn slot frame)).2.1 = hop
    rw [hopTimerNext_of_ne_zero (rising_of_low _ rfl) (by rw [htimer]; decide), hindex, hhop0]
  · obtain ⟨n, hn⟩ : ∃ n, hop.toNat = n + 1 := ⟨hop.toNat - 1, by omega⟩
    obtain ⟨htimer, hindex⟩ := pulse_hop slot frame hprev 1
    have hwait := pulse_waiting slot frame hidle htick 1
    obtain ⟨hwait', htimer', hindex'⟩ := hwait.replicate htimer hindex n (by omega)
    refine ((pulse_pending hidle htick 1).replicate hwait htimer hindex n (by omega)).deliver
      (by rwa [after_append]) ?_
    change (hopTimerNext _ (readyIn slot frame)).2.1 = hop
    rw [after_append, after_cons, step_fst, after_nil,
      hopTimerNext_of_zero (rising_of_low _ (x := readyIn slot frame) rfl) htimer']
    change (if _ then _ else _) = hop
    rw [hopIndex_succ hindex' (by omega), ← hn, BitVec.ofNat_toNat, BitVec.setWidth_eq]

end FromReset

end FhssEngine
end Cirradio.Fpga
