import Cirradio.FhssEngine

/-!
# Loss of the GPS pulse

The status word reports that the hop sequencer is locked to GPS and that the pulse is lost. The
watchdog counts the cycles since the last pulse up to a limit and raises the second flag there,
but nothing clears the first one, so the two are raised together once a pulse has come and then
stays away.
-/

namespace Cirradio.Fpga
open CallRuns

namespace FhssEngine

/-- A pulse has come. -/
def Pulsed (xs : List FhssIn) : Prop := ∃ x ∈ xs, x.pps = true

/-- How many cycles the pulse has been low at the end of a run. -/
def quietFor (xs : List FhssIn) : ℕ := xs.foldl (fun n x => if x.pps then 0 else n + 1) 0

theorem quietFor_concat (xs : List FhssIn) (x : FhssIn) :
    quietFor (xs ++ [x]) = if x.pps then 0 else quietFor xs + 1 := by
  unfold quietFor
  rw [List.foldl_append]
  rfl

theorem pulsed_concat (xs : List FhssIn) (x : FhssIn) :
    Pulsed (xs ++ [x]) ↔ Pulsed xs ∨ x.pps = true := by
  simp [Pulsed, or_and_right, exists_or]

theorem quietFor_append {low : List FhssIn} (hlow : ∀ x ∈ low, x.pps = false)
    (xs : List FhssIn) : quietFor (xs ++ low) = quietFor xs + low.length := by
  induction low using List.reverseRecOn with
  | nil => simp
  | append_singleton low x ih =>
    have hx : x.pps = false := hlow x (by simp)
    rw [← List.append_assoc, quietFor_concat, hx,
      ih fun y hy => hlow y (List.mem_append_left [x] hy), List.length_append]
    rfl

/-- The low cycles at the end of a run follow its last pulse. -/
theorem exists_last_pulse {xs : List FhssIn} (h : Pulsed xs) :
    ∃ before pulse low, xs = before ++ pulse :: low ∧ pulse.pps = true ∧
      (∀ x ∈ low, x.pps = false) ∧ low.length = quietFor xs := by
  induction xs using List.reverseRecOn with
  | nil =>
    obtain ⟨x, hx, -⟩ := h
    cases hx
  | append_singleton xs x ih =>
    rw [quietFor_concat]
    cases hpps : x.pps with
    | true =>
      refine ⟨xs, x, [], rfl, hpps, fun y hy => ?_, rfl⟩
      cases hy
    | false =>
      have hxs : Pulsed xs := ((pulsed_concat xs x).mp h).resolve_right (by simp [hpps])
      obtain ⟨before, pulse, low, hsplit, hpulse, hlow, hlength⟩ := ih hxs
      refine ⟨before, pulse, low ++ [x], ?_, hpulse, fun y hy => ?_, ?_⟩
      · rw [hsplit, List.append_assoc, List.cons_append]
      · rcases List.mem_append.mp hy with hy | hy
        · exact hlow y hy
        · rw [List.mem_singleton.mp hy]
          exact hpps
      · rw [List.length_append, hlength]
        rfl

theorem watchdogNext_pulse {x : FhssIn} (h : x.pps = true) (s : FhssEngine) :
    watchdogNext s x = (0, true, false) := by
  unfold watchdogNext
  rw [if_pos h]

theorem watchdogNext_low {x : FhssIn} (h : x.pps = false) (s : FhssEngine) :
    watchdogNext s x =
      if s.ppsWatchdog < BitVec.ofNat 31 gpsHoldoverCycles then
        (s.ppsWatchdog + 1, s.hopLock, s.gpsHoldover)
      else (s.ppsWatchdog, s.hopLock, true) := by
  unfold watchdogNext
  rw [h]
  rfl

theorem ppsWatchdog_lt_iff (w : BitVec 31) :
    w < BitVec.ofNat 31 gpsHoldoverCycles ↔ w.toNat < gpsHoldoverCycles := by
  rw [BitVec.lt_def]
  rfl

theorem toNat_ppsWatchdog_add {w : BitVec 31} (h : w.toNat < gpsHoldoverCycles) :
    (w + 1).toNat = w.toNat + 1 := by
  have hlimit : gpsHoldoverCycles + 1 < 2 ^ 31 := by decide
  rw [BitVec.toNat_add]
  exact Nat.mod_eq_of_lt (by change w.toNat + 1 < 2 ^ 31; omega)

/-- The flags and the count tell what the pulse has done so far. -/
structure Watches (xs : List FhssIn) (s : FhssEngine) : Prop where
  ppsWatchdog : s.ppsWatchdog.toNat = min (quietFor xs) gpsHoldoverCycles
  hopLock : s.hopLock = true ↔ Pulsed xs
  gpsHoldover : s.gpsHoldover = true ↔ (Pulsed xs → gpsHoldoverCycles < quietFor xs)

theorem watches_reset (s : FhssEngine) : Watches [] (reset s) where
  ppsWatchdog := rfl
  hopLock := by simp [reset, Pulsed]
  gpsHoldover := by simp [reset, Pulsed]

theorem Watches.next_pulse {xs : List FhssIn} {s : FhssEngine} {x : FhssIn}
    (hx : x.pps = true) : Watches (xs ++ [x]) (next s x) := by
  have hquiet : quietFor (xs ++ [x]) = 0 := by rw [quietFor_concat, if_pos hx]
  have hpulsed : Pulsed (xs ++ [x]) := (pulsed_concat xs x).mpr (.inr hx)
  constructor
  · rw [hquiet]
    simp [next, watchdogNext_pulse hx]
  · simp [next, watchdogNext_pulse hx, hpulsed]
  · rw [hquiet]
    simp [next, watchdogNext_pulse hx, hpulsed]

theorem Watches.next_low {xs : List FhssIn} {s : FhssEngine} (h : Watches xs s) {x : FhssIn}
    (hx : x.pps = false) : Watches (xs ++ [x]) (next s x) := by
  have hquiet : quietFor (xs ++ [x]) = quietFor xs + 1 := by rw [quietFor_concat, hx]; rfl
  have hpulsed : Pulsed (xs ++ [x]) ↔ Pulsed xs := by
    rw [pulsed_concat, hx]
    exact or_iff_left Bool.false_ne_true
  have hcount := h.ppsWatchdog
  by_cases hlimit : s.ppsWatchdog.toNat < gpsHoldoverCycles
  · have hnext : watchdogNext s x = (s.ppsWatchdog + 1, s.hopLock, s.gpsHoldover) := by
      rw [watchdogNext_low hx, if_pos ((ppsWatchdog_lt_iff _).mpr hlimit)]
    constructor
    · rw [hquiet]
      simp only [next, hnext]
      rw [toNat_ppsWatchdog_add hlimit]
      omega
    · simp only [next, hnext]
      rw [h.hopLock, hpulsed]
    · simp only [next, hnext]
      rw [h.gpsHoldover, hpulsed, hquiet]
      -- below the limit neither side holds after a pulse
      exact imp_congr_right fun _ => by omega
  · have hnext : watchdogNext s x = (s.ppsWatchdog, s.hopLock, true) := by
      rw [watchdogNext_low hx, if_neg (fun h => hlimit ((ppsWatchdog_lt_iff _).mp h))]
    constructor
    · rw [hquiet]
      simp only [next, hnext]
      omega
    · simp only [next, hnext]
      rw [h.hopLock, hpulsed]
    · simp only [next, hnext, hquiet, true_iff]
      intro _
      omega

theorem Watches.next {xs : List FhssIn} {s : FhssEngine} (h : Watches xs s) (x : FhssIn) :
    Watches (xs ++ [x]) (next s x) := by
  cases hx : x.pps with
  | true => exact next_pulse hx
  | false => exact h.next_low hx

theorem watches_run (s : FhssEngine) (xs : List FhssIn) :
    Watches xs (after step (reset s) xs) :=
  run_induction step (reset s) Watches (watches_reset s) (fun _ x h => h.next x) xs

/-- The status never says both that the sequencer is locked and that the pulse is lost. -/
def NeverContradicts (s : FhssEngine) (xs : List FhssIn) : Prop :=
  EveryState step (reset s) (fun s => ¬ (s.hopLock = true ∧ s.gpsHoldover = true)) xs

/-- Holdover is reported once the pulse has been low for more than a cycle over the limit. -/
def ReportsLoss (s : FhssEngine) (xs : List FhssIn) : Prop :=
  ∀ before low later, xs = before ++ low ++ later → (∀ x ∈ low, x.pps = false) →
    gpsHoldoverCycles + 1 < low.length →
    (after step (reset s) (before ++ low)).gpsHoldover = true

/-- Without a pulse the watchdog does not go back. -/
def NeverWraps (s : FhssEngine) (xs : List FhssIn) : Prop :=
  EveryCall step (reset s) (fun s x =>
    x.pps = false → s.ppsWatchdog.toNat ≤ (next s x).ppsWatchdog.toNat) xs

/-- A pulse is followed by more low cycles than the limit. -/
def LosesPulse (xs : List FhssIn) : Prop :=
  ∃ before pulse low later, xs = before ++ pulse :: (low ++ later) ∧ pulse.pps = true ∧
    (∀ x ∈ low, x.pps = false) ∧ low.length = gpsHoldoverCycles + 1

theorem reportsLoss (s : FhssEngine) (xs : List FhssIn) : ReportsLoss s xs := by
  intro before low later _ hlow hlong
  apply (watches_run s (before ++ low)).gpsHoldover.mpr
  intro _
  rw [quietFor_append hlow]
  omega

theorem neverWraps (s : FhssEngine) (xs : List FhssIn) : NeverWraps s xs := by
  intro i x _ hx
  have hbefore := watches_run s (xs.take i)
  have hafter := hbefore.next x
  rw [hbefore.ppsWatchdog, hafter.ppsWatchdog, quietFor_concat, hx]
  simp only [Bool.false_eq_true, if_false]
  omega

theorem losesPulse_of_quietFor {xs : List FhssIn} (hpulsed : Pulsed xs)
    (hquiet : gpsHoldoverCycles < quietFor xs) : LosesPulse xs := by
  obtain ⟨before, pulse, low, hsplit, hpulse, hlow, hlength⟩ := exists_last_pulse hpulsed
  refine ⟨before, pulse, low.take (gpsHoldoverCycles + 1), low.drop (gpsHoldoverCycles + 1), ?_,
    hpulse, fun x hx => hlow x (List.mem_of_mem_take hx), ?_⟩
  · rw [List.take_append_drop]
    exact hsplit
  · rw [List.length_take]
    omega

theorem LosesPulse.of_take {xs : List FhssIn} {n : ℕ} (h : LosesPulse (xs.take n)) :
    LosesPulse xs := by
  obtain ⟨before, pulse, low, later, hsplit, hpulse, hlow, hlength⟩ := h
  refine ⟨before, pulse, low, later ++ xs.drop n, ?_, hpulse, hlow, hlength⟩
  calc xs = xs.take n ++ xs.drop n := (List.take_append_drop n xs).symm
    _ = before ++ pulse :: (low ++ later) ++ xs.drop n := by rw [hsplit]
    _ = before ++ pulse :: (low ++ (later ++ xs.drop n)) := by simp

/-- The flags contradict each other exactly in the runs in which a pulse is lost. -/
theorem neverContradicts_iff (s : FhssEngine) (xs : List FhssIn) :
    NeverContradicts s xs ↔ ¬ LosesPulse xs := by
  constructor
  · rintro hnever ⟨before, pulse, low, later, hsplit, hpulse, hlow, hlength⟩
    have htaken : xs.take (before ++ pulse :: low).length = before ++ pulse :: low := by
      rw [hsplit, ← List.cons_append, ← List.append_assoc]
      exact List.take_left
    have hstate := hnever (before ++ pulse :: low).length
    rw [htaken] at hstate
    have hwatch := watches_run s (before ++ pulse :: low)
    have hpulsed : Pulsed (before ++ pulse :: low) := ⟨pulse, by simp, hpulse⟩
    apply hstate
    refine ⟨hwatch.hopLock.mpr hpulsed, hwatch.gpsHoldover.mpr fun _ => ?_⟩
    rw [List.append_cons, quietFor_append hlow]
    omega
  · intro hkept i hboth
    have hwatch := watches_run s (xs.take i)
    have hpulsed := hwatch.hopLock.mp hboth.1
    exact hkept (losesPulse_of_quietFor hpulsed (hwatch.gpsHoldover.mp hboth.2 hpulsed)).of_take

/-- What the status says of the pulse in every state of a run. -/
def StatusFlags (s : FhssEngine) (xs : List FhssIn) : Prop :=
  NeverContradicts s xs ∧ ReportsLoss s xs ∧ NeverWraps s xs

theorem statusFlags_iff (s : FhssEngine) (xs : List FhssIn) :
    StatusFlags s xs ↔ ¬ LosesPulse xs := by
  unfold StatusFlags
  rw [neverContradicts_iff]
  exact and_iff_left ⟨reportsLoss s xs, neverWraps s xs⟩

/-- The flags agree exactly in the runs in which no pulse is lost. In every run holdover is
reported in time and the watchdog does not wrap. -/
theorem gps_status_flags (s : FhssEngine) (xs : List FhssIn) :
    (StatusFlags s xs ↔ ¬ LosesPulse xs) ∧ ReportsLoss s xs ∧ NeverWraps s xs :=
  ⟨statusFlags_iff s xs, reportsLoss s xs, neverWraps s xs⟩

/-- Registers before the reset, and a cycle with a given pulse. -/
def idleEngine : FhssEngine :=
  reset ⟨0, false, false, 0, 0, false, false, .idle, false, false, 0, 0, 0, 0, 0, 0, 0, false⟩

def ppsIn (pps : Bool) : FhssIn :=
  ⟨Vector.replicate 20 0, 1000000, 0, pps, 0, 0, false, 0, false⟩

/-- One pulse, and none after it. -/
theorem gps_status_flags_lost :
    ¬ StatusFlags idleEngine
      (ppsIn true :: List.replicate (gpsHoldoverCycles + 1) (ppsIn false)) := by
  intro hflags
  apply (statusFlags_iff _ _).mp hflags
  refine ⟨[], ppsIn true, List.replicate (gpsHoldoverCycles + 1) (ppsIn false), [], ?_, rfl,
    fun x hx => ?_, List.length_replicate⟩
  · rw [List.append_nil, List.nil_append]
  · rw [List.eq_of_mem_replicate hx]
    rfl

end FhssEngine

end Cirradio.Fpga
