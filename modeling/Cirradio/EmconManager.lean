import Cirradio.KeyManager
import Mathlib.Algebra.Group.Int.Defs
import Mathlib.Data.List.SplitBy

/-!
# Emission control

The EMCON level of a node is set through its manager, with an unlock to raise it, by a
line of the management shell, and to silence by a zeroize. The manager writes the level to
the registers of the FPGA; the level itself is all that the node can ask for.
-/

namespace Cirradio.Transec
open Security

/-- The registers of the FPGA that the manager and the zeroize write. -/
structure IAxiRegs (τ : Type) where
  zeroizeFhek : τ → τ
  haltFpgaClocks : τ → τ
  setEmconCtrl : τ → UInt32 → τ
  writeEmconUnlock : τ → τ
  /-- In hundredths of a dBm. -/
  setTxPower : τ → Int → τ

/-- No registers. -/
def nullAxiRegs : IAxiRegs Unit where
  zeroizeFhek _ := ()
  haltFpgaClocks _ := ()
  setEmconCtrl _ _ := ()
  writeEmconUnlock _ := ()
  setTxPower _ _ := ()

structure EmconManager (τ : Type) where
  regs : τ
  level : Int

namespace EmconManager
variable {τ : Type} (R : IAxiRegs τ)

def kNormalPowerDbmX100 : Int := 3700

/-- The restricted levels are written with the lock bit. -/
def applyLevel (level : Int) (m : EmconManager τ) : EmconManager τ :=
  let ctrl := UInt32.ofInt level ||| (if level < 2 then 0x4 else 0x0)
  let regs := R.setEmconCtrl m.regs ctrl
  let power :=
    if level = 0 then 0
    else if level = 1 then kNormalPowerDbmX100 - 2000
    else kNormalPowerDbmX100
  ⟨R.setTxPower regs power, level⟩

def new (regs : τ) : EmconManager τ := applyLevel R 2 ⟨regs, 2⟩

def setLevel (level : Int) (unlock : Bool) (m : EmconManager τ) : EmconManager τ × Bool :=
  if level < 0 ∨ 2 < level then (m, false)
  else
    let isDowngrade := decide (m.level < level)
    if isDowngrade && !unlock then (m, false)
    else
      let m := if isDowngrade && unlock then { m with regs := R.writeEmconUnlock m.regs } else m
      (applyLevel R level m, true)

def forceEmcon0 (m : EmconManager τ) : EmconManager τ :=
  ⟨R.setTxPower (R.setEmconCtrl m.regs 0x4) 0, 0⟩

def currentLevel (m : EmconManager τ) : Int := m.level

theorem setLevel_of_accepted {level : Int} {unlock : Bool} {m : EmconManager τ}
    (hrange : 0 ≤ level ∧ level ≤ 2) (hraise : level ≤ m.currentLevel ∨ unlock = true) :
    (setLevel R level unlock m).2 = true ∧
      (setLevel R level unlock m).1.currentLevel = level := by
  have hin : ¬ (level < 0 ∨ 2 < level) := by omega
  unfold setLevel
  rw [if_neg hin]
  by_cases hdown : m.level < level
  · have hunlock : unlock = true := hraise.resolve_left fun hle => by
      unfold currentLevel at hle
      omega
    rw [hunlock]
    simp [hdown, applyLevel, currentLevel]
  · simp [hdown, applyLevel, currentLevel]

theorem setLevel_of_rejected {level : Int} {unlock : Bool} {m : EmconManager τ}
    (h : ¬ (0 ≤ level ∧ level ≤ 2) ∨ m.currentLevel < level ∧ unlock = false) :
    setLevel R level unlock m = (m, false) := by
  unfold setLevel
  rcases h with hrange | ⟨hdown, hunlock⟩
  · rw [if_pos (by omega)]
  · have hdown' : m.level < level := hdown
    rw [hunlock]
    simp [hdown']

end EmconManager

structure CommandResult where
  success : Bool
  output : String
  deriving DecidableEq, Repr

namespace CliShell

def isSpace (c : Char) : Bool :=
  c == ' ' || (9 ≤ c.toNat && c.toNat ≤ 13)

def tokenize (input : String) : List String :=
  ((input.toList.splitOnP isSpace).filter fun token => !token.isEmpty).map String.ofList

/-- The number at the front of a token, if there is one that an `int` can hold. -/
def stoi (token : String) : Option Int :=
  let (negative, rest) :=
    match token.toList.dropWhile isSpace with
    | '-' :: rest => (true, rest)
    | '+' :: rest => (false, rest)
    | rest => (false, rest)
  let digits := rest.takeWhile Char.isDigit
  if digits.isEmpty then none
  else
    let size : ℕ := digits.foldl (fun value c => 10 * value + (c.toNat - '0'.toNat)) 0
    let value : Int := if negative then -size else size
    if value < -2 ^ 31 ∨ 2 ^ 31 ≤ value then none else some value

def handleCrypto (args : List String) (keysActive : Bool) : Bool × CommandResult :=
  match args with
  | [] => (keysActive, ⟨false, "crypto requires a subcommand: zeroize, rekey"⟩)
  | arg :: _ =>
    if arg = "zeroize" then (false, ⟨true, "all keys zeroized"⟩)
    else if arg = "rekey" then (true, ⟨true, "rekey initiated"⟩)
    else (keysActive, ⟨false, "unknown crypto subcommand: " ++ arg⟩)

section Emcon
variable {τ : Type} (R : IAxiRegs τ)

def handleEmcon (args : List String) (m : EmconManager τ) : EmconManager τ × CommandResult :=
  match args with
  | [] => (m, ⟨false, "usage: emcon <0|1|2>"⟩)
  | arg :: _ =>
    match stoi arg with
    | none => (m, ⟨false, "invalid level: " ++ arg⟩)
    | some level =>
      if level < 0 ∨ 2 < level then (m, ⟨false, "level must be 0, 1, or 2"⟩)
      else
        let needsUnlock := decide (m.currentLevel < level)
        match m.setLevel R level needsUnlock with
        | (m, false) => (m, ⟨false, "EMCON downgrade rejected (locked)"⟩)
        | (m, true) => (m, ⟨true, "EMCON set to " ++ toString level⟩)

/-- The commands other than that of the manager. -/
def otherCommands : List String := ["status", "set", "net", "crypto", "transec"]

/-- A line of the shell. The other commands leave the manager as it is, and what they
answer is left open. -/
def execute (input : String) (m : EmconManager τ) : EmconManager τ × Option CommandResult :=
  match tokenize input with
  | [] => (m, some ⟨false, "empty command"⟩)
  | command :: args =>
    if command = "emcon" then
      let (m, result) := handleEmcon R args m
      (m, some result)
    else if command ∈ otherCommands then (m, none)
    else (m, some ⟨false, "unknown command: " ++ command⟩)

/-- The shell sets every level, since it unlocks where that is needed. -/
theorem handleEmcon_of_stoi {arg : String} {level : Int} (harg : stoi arg = some level)
    (hrange : 0 ≤ level ∧ level ≤ 2) (args : List String) (m : EmconManager τ) :
    (handleEmcon R (arg :: args) m).1.currentLevel = level ∧
      (handleEmcon R (arg :: args) m).2 = ⟨true, "EMCON set to " ++ toString level⟩ := by
  have hout : ¬ (level < 0 ∨ 2 < level) := by omega
  have hraise : level ≤ m.currentLevel ∨ decide (m.currentLevel < level) = true := by
    rw [decide_eq_true_eq]
    omega
  obtain ⟨hset, hlevel⟩ := EmconManager.setLevel_of_accepted R hrange hraise
  rcases hresult : m.setLevel R level (decide (m.currentLevel < level)) with ⟨m', accepted⟩
  rw [hresult] at hset hlevel
  have haccepted : accepted = true := hset
  subst haccepted
  simp only [handleEmcon, harg, if_neg hout, hresult]
  exact ⟨hlevel, trivial⟩

example : (execute nullAxiRegs "emcon 0" (.new nullAxiRegs ())).1.currentLevel = 0 := by decide

end Emcon
end CliShell

/-- The keys and the identity key are destroyed and the HSM is shut down. -/
def zeroizeRun {τ σ : Type} (R : IAxiRegs τ) (E : IHsmEngine σ) (shutdown : σ → σ)
    (ikHandle : CkHandle) (regs : τ) (m : KeyManager σ) : τ × KeyManager σ × CkHandle :=
  let regs := R.zeroizeFhek regs
  let m := KeyManager.zeroize E m
  let hsm := shutdown (E.reset m.hsm (some ikHandle))
  (R.haltFpgaClocks regs, { m with hsm }, 0)

end Cirradio.Transec
