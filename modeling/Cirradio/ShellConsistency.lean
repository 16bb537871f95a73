import Cirradio.CliShell
import Cirradio.RegisterLaw

/-!
# Shell, configuration and registers

Each line of the shell fails and changes nothing, or has one of a few effects. The settings of the
TRANSEC configuration and the registers that hold copies of them are only ever written together,
so the copies agree over every session.
-/

namespace Cirradio.Transec

/-- The manager refuses a level and changes nothing, or writes it, after the unlock where that is
due. -/
theorem EmconManager.setLevel_cases {τ : Type} (R : IAxiRegs τ) (level : Int) (unlock : Bool)
    (m : EmconManager τ) :
    setLevel R level unlock m = (m, false) ∨
      ∃ raised : Bool, setLevel R level unlock m =
        (applyLevel R level (if raised then { m with regs := R.writeEmconUnlock m.regs } else m),
          true) := by
  unfold setLevel
  split
  · exact .inl rfl
  · simp only
    split
    · exact .inl rfl
    · exact .inr ⟨_, rfl⟩

end Cirradio.Transec

namespace Cirradio.Mgmt
open Security Transec CallRuns

namespace CliShell
variable {τ P : Type}

/-- The registers after the manager has written a level. -/
def emconWritten (R : TransecRegs τ) (level : Int) (raised : Bool) (regs : τ) : τ :=
  (EmconManager.applyLevel R.toIAxiRegs level
    ⟨if raised then R.writeEmconUnlock regs else regs, level⟩).regs

/-- What a successful line does. -/
inductive Effect (R : TransecRegs τ) (s : CliShell τ P) : CliShell τ P → Prop
  | own (freqHz : UInt64) (powerDbm : Int) (netJoined keysActive : Bool) :
    Effect R s { s with freqHz, powerDbm, netJoined, keysActive }
  | emcon (level : Int) (raised : Bool) :
    Effect R s { s with emconMgr := some level, regs := emconWritten R level raised s.regs }
  | interleaver {cfg : TransecConfig P} (hcfg : s.transecCfg = some cfg) (depth : Int) :
    Effect R s { s with
      transecCfg := some (cfg.setInterleaverDepth depth)
      regs :=
        if s.axiRegs then
          R.setInterleaverDepth s.regs (UInt32.ofInt (cfg.setInterleaverDepth depth).interleaverDepth)
        else s.regs }
  | hopRate {cfg : TransecConfig P} (hcfg : s.transecCfg = some cfg) (rate : Int) :
    Effect R s { s with
      transecCfg := some (cfg.setHopRate rate)
      regs :=
        if s.axiRegs && decide (0 < (cfg.setHopRate rate).hopRate) then
          R.setHopRate s.regs (UInt32.ofInt (100000000 / (cfg.setHopRate rate).hopRate))
        else s.regs }
  | margin {cfg : TransecConfig P} (hcfg : s.transecCfg = some cfg) (m : P) :
    Effect R s { s with transecCfg := some (cfg.setLinkMarginDb m) }

/-- A line fails and changes nothing, or succeeds with an effect. -/
def Outcome (R : TransecRegs τ) (s : CliShell τ P) (r : CliShell τ P × CommandResult) : Prop :=
  r.2.success = false ∧ r.1 = s ∨ r.2.success = true ∧ Effect R s r.1

variable {R : TransecRegs τ} {s : CliShell τ P}

theorem Outcome.failed (output : String) : Outcome R s (s, ⟨false, output⟩) := .inl ⟨rfl, rfl⟩

theorem Outcome.reported (output : String) : Outcome R s (s, ⟨true, output⟩) :=
  .inr ⟨rfl, .own s.freqHz s.powerDbm s.netJoined s.keysActive⟩

theorem Outcome.done {s' : CliShell τ P} (h : Effect R s s') (output : String) :
    Outcome R s (s', ⟨true, output⟩) := .inr ⟨rfl, h⟩

theorem handleSet_outcome (args : List String) : Outcome R s (s.handleSet args) := by
  unfold handleSet
  split
  · exact .failed _
  · split
    · split
      · exact .failed _
      · split
        · exact .failed _
        · split
          · exact .failed _
          · exact .done (.own _ s.powerDbm s.netJoined s.keysActive) _
    · split
      · split
        · exact .failed _
        · split
          · exact .failed _
          · split
            · exact .failed _
            · exact .done (.own s.freqHz _ s.netJoined s.keysActive) _
      · exact .failed _

theorem handleNet_outcome (args : List String) : Outcome R s (s.handleNet args) := by
  unfold handleNet
  split
  · exact .failed _
  · split
    · exact .done (.own s.freqHz s.powerDbm true s.keysActive) _
    · split
      · exact .done (.own s.freqHz s.powerDbm false s.keysActive) _
      · split
        · exact .reported _
        · exact .failed _

theorem handleCrypto_outcome (args : List String) :
    Outcome R s ({ s with keysActive := (Transec.CliShell.handleCrypto args s.keysActive).1 },
      (Transec.CliShell.handleCrypto args s.keysActive).2) := by
  unfold Transec.CliShell.handleCrypto
  split
  · exact .failed _
  · split
    · exact .done (.own s.freqHz s.powerDbm s.netJoined false) _
    · split
      · exact .done (.own s.freqHz s.powerDbm s.netJoined true) _
      · exact .failed _

theorem handleEmcon_outcome (args : List String) : Outcome R s (s.handleEmcon R args) := by
  unfold handleEmcon
  split
  · exact .failed _
  · next level hlevel =>
    have hsame : ({ s with emconMgr := some level, regs := s.regs } : CliShell τ P) = s := by
      rw [← hlevel]
    unfold Transec.CliShell.handleEmcon
    rcases args with _ | ⟨arg, args⟩
    · exact .inl ⟨rfl, hsame⟩
    · simp only
      split
      · exact .inl ⟨rfl, hsame⟩
      · next named _ =>
        split
        · exact .inl ⟨rfl, hsame⟩
        · rcases EmconManager.setLevel_cases R.toIAxiRegs named
            (decide (EmconManager.currentLevel (τ := τ) ⟨s.regs, level⟩ < named))
            ⟨s.regs, level⟩ with hset | ⟨raised, hset⟩
          · rw [hset]
            exact .inl ⟨rfl, hsame⟩
          · rw [hset]
            cases raised with
            | true => exact .done (.emcon named true) _
            | false => exact .done (.emcon named false) _

variable (T : PowerText P)

theorem handleTransec_outcome (args : List String) : Outcome R s (s.handleTransec T R args) := by
  unfold handleTransec
  split
  · exact .reported _
  · split
    · exact .reported _
    · split
      · split
        · exact .failed _
        · next cfg hcfg =>
          unfold handleTransecSet
          split
          · split
            · exact .failed _
            · exact .done (.interleaver hcfg _) _
          · split
            · split
              · exact .failed _
              · exact .done (.hopRate hcfg _) _
            · split
              · split
                · exact .failed _
                · exact .done (.margin hcfg _) _
              · exact .failed _
      · exact .failed _

theorem execute_outcome (input : String) : Outcome R s (s.execute T R input) := by
  unfold execute
  split
  · exact .failed _
  · unfold commands
    split
    · next hnone =>
      exact .failed _
    · next result hsome =>
      split at hsome
      · cases hsome
        exact .reported _
      · cases hsome
        exact handleSet_outcome _
      · cases hsome
        exact handleNet_outcome _
      · cases hsome
        exact handleCrypto_outcome _
      · cases hsome
        exact handleEmcon_outcome _
      · cases hsome
        exact handleTransec_outcome T _
      · cases hsome

/-- Registers for the interleaver depth and the hop period: each holds what was last written to
it, and the writes of the EMCON manager leave both. -/
structure HoldsSettings (R : TransecRegs τ) (depth hopPeriod : τ → UInt32) : Prop where
  depth_setInterleaverDepth : ∀ regs d, depth (R.setInterleaverDepth regs d) = d
  depth_setHopRate : ∀ regs cycles, depth (R.setHopRate regs cycles) = depth regs
  depth_emcon : ∀ level raised regs, depth (emconWritten R level raised regs) = depth regs
  hopPeriod_setHopRate : ∀ regs cycles, hopPeriod (R.setHopRate regs cycles) = cycles
  hopPeriod_setInterleaverDepth : ∀ regs d,
    hopPeriod (R.setInterleaverDepth regs d) = hopPeriod regs
  hopPeriod_emcon : ∀ level raised regs,
    hopPeriod (emconWritten R level raised regs) = hopPeriod regs

/-- The settings are in range and in the registers. -/
structure Copied (depth hopPeriod : UInt32) (cfg : TransecConfig P) : Prop where
  depth_range : 1 ≤ cfg.interleaverDepth ∧ cfg.interleaverDepth ≤ 32
  depth_eq : (depth.toNat : Int) = cfg.interleaverDepth
  rate_range : 1 ≤ cfg.hopRate ∧ cfg.hopRate ≤ 1000
  period_eq : (hopPeriod.toNat : Int) = 100000000 / cfg.hopRate

/-- Everything is attached, and the copies agree. -/
def InSync (depth hopPeriod : τ → UInt32) (s : CliShell τ P) : Prop :=
  s.axiRegs = true ∧ s.emconMgr.isSome = true ∧
    ∃ cfg, s.transecCfg = some cfg ∧ Copied (depth s.regs) (hopPeriod s.regs) cfg

theorem toNat_ofInt {x : Int} (hlow : 0 ≤ x) (hhigh : x < 2 ^ 32) :
    ((UInt32.ofInt x).toNat : Int) = x := by
  have hmod : x % 2 ^ 32 = x := Int.emod_eq_of_lt hlow hhigh
  have hnat : x.toNat < UInt32.size := by
    change x.toNat < 4294967296
    omega
  rw [UInt32.ofInt, hmod, UInt32.toNat_ofNat_of_lt' hnat, Int.toNat_of_nonneg hlow]

theorem Copied.setInterleaverDepth {depth hopPeriod : UInt32} {cfg : TransecConfig P}
    (h : Copied depth hopPeriod cfg) (d : Int) :
    Copied (UInt32.ofInt (cfg.setInterleaverDepth d).interleaverDepth) hopPeriod
      (cfg.setInterleaverDepth d) := by
  have hrange : 1 ≤ (cfg.setInterleaverDepth d).interleaverDepth ∧
      (cfg.setInterleaverDepth d).interleaverDepth ≤ 32 := clamp_range (by omega) d
  exact ⟨hrange, toNat_ofInt (by omega) (by omega), h.rate_range, h.period_eq⟩

theorem Copied.setHopRate {depth hopPeriod : UInt32} {cfg : TransecConfig P}
    (h : Copied depth hopPeriod cfg) (r : Int) :
    Copied depth (UInt32.ofInt (100000000 / (cfg.setHopRate r).hopRate)) (cfg.setHopRate r) := by
  have hrange : 1 ≤ (cfg.setHopRate r).hopRate ∧ (cfg.setHopRate r).hopRate ≤ 1000 :=
    clamp_range (by omega) r
  have hlow : 0 ≤ 100000000 / (cfg.setHopRate r).hopRate :=
    Int.ediv_nonneg (by omega) (by omega)
  have hhigh : 100000000 / (cfg.setHopRate r).hopRate ≤ 100000000 :=
    Int.ediv_le_self _ (by omega)
  exact ⟨h.depth_range, h.depth_eq, hrange, toNat_ofInt hlow (by omega)⟩

theorem InSync.effect {depth hopPeriod : τ → UInt32} (hregs : HoldsSettings R depth hopPeriod)
    (h : InSync depth hopPeriod s) {s' : CliShell τ P} (heffect : Effect R s s') :
    InSync depth hopPeriod s' := by
  obtain ⟨haxi, hemcon, cfg, hcfg, hcopied⟩ := h
  cases heffect with
  | own freqHz powerDbm netJoined keysActive => exact ⟨haxi, hemcon, cfg, hcfg, hcopied⟩
  | emcon level raised =>
    refine ⟨haxi, rfl, cfg, hcfg, ?_⟩
    simp only
    rw [hregs.depth_emcon, hregs.hopPeriod_emcon]
    exact hcopied
  | interleaver hcfg' d =>
    rw [hcfg] at hcfg'
    cases hcfg'
    refine ⟨haxi, hemcon, _, rfl, ?_⟩
    simp only [haxi, if_true]
    rw [hregs.depth_setInterleaverDepth, hregs.hopPeriod_setInterleaverDepth]
    exact hcopied.setInterleaverDepth d
  | hopRate hcfg' rate =>
    rw [hcfg] at hcfg'
    cases hcfg'
    have hpos : decide (0 < (cfg.setHopRate rate).hopRate) = true :=
      decide_eq_true (Int.lt_of_lt_of_le Int.one_pos (clamp_range (by omega) rate).1)
    refine ⟨haxi, hemcon, _, rfl, ?_⟩
    simp only [haxi, hpos, Bool.and_self, if_true]
    rw [hregs.depth_setHopRate, hregs.hopPeriod_setHopRate]
    exact hcopied.setHopRate rate
  | margin hcfg' m =>
    rw [hcfg] at hcfg'
    cases hcfg'
    exact ⟨haxi, hemcon, _, rfl, hcopied.depth_range, hcopied.depth_eq, hcopied.rate_range,
      hcopied.period_eq⟩

theorem InSync.execute {depth hopPeriod : τ → UInt32} (hregs : HoldsSettings R depth hopPeriod)
    (h : InSync depth hopPeriod s) (input : String) :
    InSync depth hopPeriod (s.execute T R input).1 := by
  rcases execute_outcome T input with ⟨-, hsame⟩ | ⟨-, heffect⟩
  · rw [hsame]
    exact h
  · exact h.effect hregs heffect

theorem execute_failed {input : String} (h : (s.execute T R input).2.success = false) :
    (s.execute T R input).1 = s := by
  rcases execute_outcome T input with ⟨-, hsame⟩ | ⟨hdone, -⟩
  · exact hsame
  · rw [h] at hdone
    cases hdone

/-- The shell at its defaults with everything attached. The manager writes its level first. -/
def attached (R : TransecRegs τ) [Add P] [IntCast P] (regs : τ) : CliShell τ P :=
  let m := EmconManager.new R.toIAxiRegs regs
  { (new m.regs : CliShell τ P) with
    emconMgr := some m.level
    transecCfg := some .new
    axiRegs := true }

theorem inSync_attached [Add P] [IntCast P] {depth hopPeriod : τ → UInt32}
    (hregs : HoldsSettings R depth hopPeriod) {regs : τ} (hdepth : depth regs = 10)
    (hperiod : hopPeriod regs = 1000000) :
    InSync depth hopPeriod (attached R regs : CliShell τ P) := by
  refine ⟨rfl, rfl, .new, rfl, ?_⟩
  change Copied (depth (emconWritten R 2 false regs)) (hopPeriod (emconWritten R 2 false regs)) _
  rw [hregs.depth_emcon, hregs.hopPeriod_emcon, hdepth, hperiod]
  have hdefaults : ((1 : Int) ≤ 10 ∧ (10 : Int) ≤ 32) ∧ (1 : Int) ≤ 100 ∧ (100 : Int) ≤ 1000 := by
    decide
  exact ⟨hdefaults.1, rfl, hdefaults.2, rfl⟩

end CliShell

def ctrlFhekZeroize : BitVec 32 := 0x00000001

def ctrlClockHalt : BitVec 32 := 0x00000002

open Fpga in
/-- What the driver writes for each call. -/
def driverRegs : TransecRegs RegFile where
  zeroizeFhek f :=
    (AxiRegs.applied f (AxiDriver.writesAt regFhek0 (List.replicate 8 0))).write regControl
      ctrlFhekZeroize
  haltFpgaClocks f := f.write regControl ctrlClockHalt
  setEmconCtrl f value := f.write regEmconCtrl value.toBitVec
  writeEmconUnlock f := f.write regEmconUnlock 0xA5C33C5A
  setTxPower f dBmX100 := f.write regTxPower (BitVec.ofInt 32 dBmX100)
  setInterleaverDepth f depth := f.write regInterleaverDepth depth.toBitVec
  setHopRate f cyclesPerHop := f.write regHopRate cyclesPerHop.toBitVec

namespace CliShell
open Fpga
variable {P : Type} [Add P] [IntCast P]

def depthRegister (f : RegFile) : UInt32 := .ofBitVec (PsReg.interleaverDepth.get f)

def hopPeriodRegister (f : RegFile) : UInt32 := .ofBitVec (PsReg.hopRate.get f)

theorem driverRegs_holdsSettings : HoldsSettings driverRegs depthRegister hopPeriodRegister where
  depth_setInterleaverDepth _ _ := rfl
  depth_setHopRate _ _ := rfl
  depth_emcon _ raised _ := by cases raised <;> rfl
  hopPeriod_setHopRate _ _ := rfl
  hopPeriod_setInterleaverDepth _ _ := rfl
  hopPeriod_emcon _ raised _ := by cases raised <;> rfl

/-- Over every session the registers hold the settings, which are in range, and a line that fails
changes nothing. -/
theorem shell_in_sync (T : PowerText P) (inputs : List String) :
    EveryState (execute T driverRegs) (attached driverRegs .reset)
      (InSync depthRegister hopPeriodRegister) inputs ∧
    EveryCall (execute T driverRegs) (attached driverRegs .reset)
      (fun s input => (s.execute T driverRegs input).2.success = false →
        (s.execute T driverRegs input).1 = s) inputs := by
  constructor
  · intro i
    exact invariant_after (execute T driverRegs) _ (InSync depthRegister hopPeriodRegister)
      (inSync_attached driverRegs_holdsSettings rfl rfl)
      (fun _ input h => h.execute T driverRegs_holdsSettings input) (inputs.take i)
  · intro i input _
    exact execute_failed T

end CliShell
end Cirradio.Mgmt
