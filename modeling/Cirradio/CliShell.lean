import Cirradio.EmconManager
import Cirradio.Numerals
import Cirradio.TransecConfig

/-!
# The management shell

A line is cut into words, the first of which names a command. The commands set what the shell
keeps itself, and what is attached to it: the EMCON manager, the TRANSEC configuration and the
registers. How a power is read from a word and printed is left open.
-/

namespace Cirradio.Mgmt
open Security Transec
open Transec.CliShell (isSpace tokenize stoi handleCrypto)

/-- The registers that the shell writes besides those of the EMCON manager. -/
structure TransecRegs (τ : Type) extends IAxiRegs τ where
  setInterleaverDepth : τ → UInt32 → τ
  setHopRate : τ → UInt32 → τ

/-- How a power is read from a word, if it can be, and how it is printed. -/
structure PowerText (P : Type) where
  stof : String → Option P
  print : P → String

/-- The shell with what is attached to it. The EMCON manager is given by its level, and writes
to the same registers as the shell. -/
structure CliShell (τ P : Type) where
  nodeId : UInt32
  freqHz : UInt64
  powerDbm : Int
  netJoined : Bool
  keysActive : Bool
  emconMgr : Option Int
  transecCfg : Option (TransecConfig P)
  axiRegs : Bool
  regs : τ

/-- The number at the front of a word, if 64 bits can hold its size. A minus sign negates modulo
`2 ^ 64`. -/
def stoull (token : String) : Option UInt64 :=
  match Numerals.scan (token.toList.dropWhile isSpace) with
  | none => none
  | some (negative, size) =>
    if 2 ^ 64 ≤ size then none
    else some (if negative then -UInt64.ofNat size else UInt64.ofNat size)

namespace CliShell
variable {τ P : Type}

/-- A shell with nothing attached. -/
def new (regs : τ) : CliShell τ P where
  nodeId := 1
  freqHz := 300000000
  powerDbm := 10
  netJoined := false
  keysActive := true
  emconMgr := none
  transecCfg := none
  axiRegs := false
  regs := regs

def handleStatus (s : CliShell τ P) : CliShell τ P × CommandResult :=
  (s, ⟨true, "Node ID: " ++ toString s.nodeId ++ "\n" ++
    "Frequency: " ++ toString s.freqHz ++ " Hz\n" ++
    "Power: " ++ toString s.powerDbm ++ " dBm\n" ++
    "Network: " ++ if s.netJoined then "joined" else "not joined"⟩)

def handleSet (s : CliShell τ P) (args : List String) : CliShell τ P × CommandResult :=
  match args with
  | [] => (s, ⟨false, "set requires a parameter: freq, power"⟩)
  | param :: values =>
    if param = "freq" then
      match values with
      | [] => (s, ⟨false, "set freq requires a frequency value in Hz"⟩)
      | arg :: _ =>
        match stoull arg with
        | none => (s, ⟨false, "invalid frequency value: " ++ arg⟩)
        | some hz =>
          if hz < 225000000 ∨ 512000000 < hz then
            (s, ⟨false, "frequency out of range (225-512 MHz)"⟩)
          else
            ({ s with freqHz := hz }, ⟨true, "frequency set to " ++ toString hz ++ " Hz"⟩)
    else if param = "power" then
      match values with
      | [] => (s, ⟨false, "set power requires a value in dBm"⟩)
      | arg :: _ =>
        match stoi arg with
        | none => (s, ⟨false, "invalid power value: " ++ arg⟩)
        | some dbm =>
          if dbm < -10 ∨ 37 < dbm then
            (s, ⟨false, "power out of range (-10 to 37 dBm)"⟩)
          else
            ({ s with powerDbm := dbm }, ⟨true, "power set to " ++ toString dbm ++ " dBm"⟩)
    else (s, ⟨false, "unknown set parameter: " ++ param⟩)

def handleNet (s : CliShell τ P) (args : List String) : CliShell τ P × CommandResult :=
  match args with
  | [] => (s, ⟨false, "net requires a subcommand: join, leave, status"⟩)
  | arg :: _ =>
    if arg = "join" then ({ s with netJoined := true }, ⟨true, "joined network"⟩)
    else if arg = "leave" then ({ s with netJoined := false }, ⟨true, "left network"⟩)
    else if arg = "status" then
      (s, ⟨true, "network status: " ++ if s.netJoined then "joined" else "not joined"⟩)
    else (s, ⟨false, "unknown net subcommand: " ++ arg⟩)

def handleEmcon (R : TransecRegs τ) (s : CliShell τ P) (args : List String) :
    CliShell τ P × CommandResult :=
  match s.emconMgr with
  | none => (s, ⟨false, "emcon manager not attached"⟩)
  | some level =>
    let (m, result) := Transec.CliShell.handleEmcon R.toIAxiRegs args ⟨s.regs, level⟩
    ({ s with emconMgr := some m.level, regs := m.regs }, result)

section Transec
variable (T : PowerText P) (R : TransecRegs τ)

def transecStatus (s : CliShell τ P) : String :=
  "EMCON level: " ++ toString (s.emconMgr.getD (-1)) ++ "\n" ++
    match s.transecCfg with
    | none => ""
    | some cfg =>
      "Interleaver depth: " ++ toString cfg.interleaverDepth ++ "\n" ++
      "Hop rate: " ++ toString cfg.hopRate ++ " hops/sec\n" ++
      "Link margin: " ++ T.print cfg.linkMarginDb ++ " dB"

def transecUsage : String :=
  "usage: transec status | transec set <interleaver|hoprate|margin> <value>"

/-- The configuration is set, and from it the register. -/
def handleTransecSet (s : CliShell τ P) (cfg : TransecConfig P) (param arg : String) :
    CliShell τ P × CommandResult :=
  if param = "interleaver" then
    match stoi arg with
    | none => (s, ⟨false, "invalid value: " ++ arg⟩)
    | some depth =>
      let cfg := cfg.setInterleaverDepth depth
      let regs :=
        if s.axiRegs then R.setInterleaverDepth s.regs (UInt32.ofInt cfg.interleaverDepth)
        else s.regs
      ({ s with transecCfg := some cfg, regs },
        ⟨true, "interleaver depth set to " ++ toString cfg.interleaverDepth⟩)
  else if param = "hoprate" then
    match stoi arg with
    | none => (s, ⟨false, "invalid value: " ++ arg⟩)
    | some rate =>
      let cfg := cfg.setHopRate rate
      let regs :=
        if s.axiRegs && decide (0 < cfg.hopRate) then
          R.setHopRate s.regs (UInt32.ofInt (100000000 / cfg.hopRate))
        else s.regs
      ({ s with transecCfg := some cfg, regs },
        ⟨true, "hop rate set to " ++ toString cfg.hopRate ++ " hops/sec"⟩)
  else if param = "margin" then
    match T.stof arg with
    | none => (s, ⟨false, "invalid value: " ++ arg⟩)
    | some margin =>
      ({ s with transecCfg := some (cfg.setLinkMarginDb margin) },
        ⟨true, "link margin set to " ++ arg ++ " dB"⟩)
  else (s, ⟨false, transecUsage⟩)

def handleTransec (s : CliShell τ P) (args : List String) : CliShell τ P × CommandResult :=
  match args with
  | [] => (s, ⟨true, s.transecStatus T⟩)
  | subcommand :: values =>
    if subcommand = "status" then (s, ⟨true, s.transecStatus T⟩)
    else
      match subcommand, values with
      | "set", param :: arg :: _ =>
        match s.transecCfg with
        | none => (s, ⟨false, "transec config not attached"⟩)
        | some cfg => s.handleTransecSet T R cfg param arg
      | _, _ => (s, ⟨false, transecUsage⟩)

/-- The handler of a command. -/
def commands (s : CliShell τ P) (command : String) (args : List String) :
    Option (CliShell τ P × CommandResult) :=
  match command with
  | "status" => some s.handleStatus
  | "set" => some (s.handleSet args)
  | "net" => some (s.handleNet args)
  | "crypto" =>
    let (keysActive, result) := handleCrypto args s.keysActive
    some ({ s with keysActive }, result)
  | "emcon" => some (s.handleEmcon R args)
  | "transec" => some (s.handleTransec T R args)
  | _ => none

def execute (s : CliShell τ P) (input : String) : CliShell τ P × CommandResult :=
  match tokenize input with
  | [] => (s, ⟨false, "empty command"⟩)
  | command :: args =>
    match s.commands T R command args with
    | none => (s, ⟨false, "unknown command: " ++ command⟩)
    | some result => result

end Transec

section Level
variable {T : PowerText P} {R : TransecRegs τ} {s : CliShell τ P}

theorem handleSet_emconMgr (args : List String) : (s.handleSet args).1.emconMgr = s.emconMgr := by
  unfold handleSet
  repeat' split
  all_goals rfl

theorem handleNet_emconMgr (args : List String) : (s.handleNet args).1.emconMgr = s.emconMgr := by
  unfold handleNet
  repeat' split
  all_goals rfl

theorem handleTransec_emconMgr (args : List String) :
    (s.handleTransec T R args).1.emconMgr = s.emconMgr := by
  unfold handleTransec handleTransecSet
  repeat' split
  all_goals rfl

theorem commands_of_ne {command : String} (hemcon : command ≠ "emcon") (args : List String) :
    (command ∈ Transec.CliShell.otherCommands ∧
      ∃ r, s.commands T R command args = some r ∧ r.1.emconMgr = s.emconMgr) ∨
    (command ∉ Transec.CliShell.otherCommands ∧ s.commands T R command args = none) := by
  unfold commands
  split
  · exact .inl ⟨by decide, _, rfl, rfl⟩
  · exact .inl ⟨by decide, _, rfl, handleSet_emconMgr args⟩
  · exact .inl ⟨by decide, _, rfl, handleNet_emconMgr args⟩
  · exact .inl ⟨by decide, _, rfl, rfl⟩
  · exact absurd rfl hemcon
  · exact .inl ⟨by decide, _, rfl, handleTransec_emconMgr args⟩
  · next hstatus hset hnet hcrypto _ htransec =>
    refine .inr ⟨?_, rfl⟩
    simp only [Transec.CliShell.otherCommands, List.mem_cons, List.not_mem_nil, or_false, not_or]
    exact ⟨hstatus, hset, hnet, hcrypto, htransec⟩

/-- The shell does to the level what the manager's own command does, and answers the same where
that one answers. -/
theorem execute_level {level : Int} (h : s.emconMgr = some level) (input : String) :
    (s.execute T R input).1.emconMgr =
      some (Transec.CliShell.execute R.toIAxiRegs input ⟨s.regs, level⟩).1.level ∧
    ∀ result, (Transec.CliShell.execute R.toIAxiRegs input ⟨s.regs, level⟩).2 = some result →
      (s.execute T R input).2 = result := by
  unfold execute Transec.CliShell.execute
  cases tokenize input with
  | nil => exact ⟨h, fun result hresult => Option.some.inj hresult⟩
  | cons command args =>
    by_cases hemcon : command = "emcon"
    · subst hemcon
      simp only [commands, handleEmcon, h, if_true]
      exact ⟨trivial, fun result hresult => Option.some.inj hresult⟩
    · rcases commands_of_ne (s := s) (T := T) (R := R) hemcon args with
        ⟨hother, r, hcommand, hlevel⟩ | ⟨hother, hcommand⟩
      · simp only [if_neg hemcon, if_pos hother, hcommand]
        exact ⟨hlevel.trans h, fun result hresult => by cases hresult⟩
      · simp only [if_neg hemcon, if_neg hother, hcommand]
        exact ⟨h, fun result hresult => Option.some.inj hresult⟩

end Level
end CliShell
end Cirradio.Mgmt
