import Cirradio.CallRuns
import Cirradio.EmconManager
import Mathlib.Data.List.Chain
import Mathlib.Data.Int.ConditionallyCompleteOrder
import Mathlib.Data.Int.SuccPred
import Mathlib.Order.Monotone.Basic

/-!
# Raising the EMCON level from the shell

A raise is meant to need an unlock token, which no line of the shell carries. The shell
hands the unlock to the manager by itself whenever a line asks for a raise, so the level
follows the levels that the lines name.
-/

namespace Cirradio.Transec
open CallRuns

namespace CliShell
variable {τ : Type} (R : IAxiRegs τ)

/-- The level in range that a line asks for. -/
def namedLevel (input : String) : Option Int :=
  match tokenize input with
  | "emcon" :: arg :: _ => (stoi arg).filter fun level => decide (0 ≤ level ∧ level ≤ 2)
  | _ => none

/-- A line of a session. -/
def line (m : EmconManager τ) (input : String) : EmconManager τ × Option CommandResult :=
  execute R input m

/-- The level after each number of lines. -/
def levels (m : EmconManager τ) (inputs : List String) (i : ℕ) : Int :=
  (after (line R) m (inputs.take i)).currentLevel

theorem handleEmcon_of_not_stoi {arg : String} {args : List String} {m : EmconManager τ}
    (h : (stoi arg).filter (fun level => decide (0 ≤ level ∧ level ≤ 2)) = none) :
    (handleEmcon R (arg :: args) m).1 = m := by
  unfold handleEmcon
  simp only
  split
  · rfl
  · next level hlevel =>
    rw [hlevel, Option.filter_some] at h
    by_cases hrange : 0 ≤ level ∧ level ≤ 2
    · simp [hrange] at h
    · rw [if_pos (by omega)]

/-- A line sets the level that it names, and no other line changes the level. -/
theorem execute_currentLevel (input : String) (m : EmconManager τ) :
    (execute R input m).1.currentLevel = (namedLevel input).getD m.currentLevel := by
  unfold execute namedLevel
  rcases tokenize input with _ | ⟨command, args⟩
  · rfl
  · by_cases hcommand : command = "emcon"
    · subst hcommand
      simp only [if_true]
      rcases args with _ | ⟨arg, args⟩
      · rfl
      · cases hlevel : (stoi arg).filter fun level => decide (0 ≤ level ∧ level ≤ 2) with
        | none =>
          simp only [hlevel, Option.getD_none, handleEmcon_of_not_stoi R hlevel]
        | some level =>
          obtain ⟨harg, hrange⟩ := Option.filter_eq_some_iff.mp hlevel
          simp only [hlevel, Option.getD_some]
          exact (handleEmcon_of_stoi R harg (of_decide_eq_true hrange) args m).1
    · simp only [if_neg hcommand]
      split
      · simp [hcommand]
      · simp [hcommand]

/-- The level never rises along a run exactly if the levels that the lines name never rise,
from the level at its start on. -/
theorem antitone_levels_iff (m : EmconManager τ) (inputs : List String) :
    Antitone (levels R m inputs) ↔
      (m.currentLevel :: inputs.filterMap namedLevel).IsChain (· ≥ ·) := by
  induction inputs generalizing m with
  | nil =>
    refine ⟨fun _ => List.isChain_singleton _, fun _ i j _ => ?_⟩
    rw [levels, levels, List.take_nil, List.take_nil]
  | cons input inputs ih =>
    have hfirst := execute_currentLevel R input m
    have hsplit : Antitone (levels R m (input :: inputs)) ↔
        (execute R input m).1.currentLevel ≤ m.currentLevel ∧
          Antitone (levels R (execute R input m).1 inputs) := by
      constructor
      · intro h
        exact ⟨h (Nat.zero_le 1), fun i j hij => h (Nat.succ_le_succ hij)⟩
      · rintro ⟨hstart, hrest⟩
        refine antitone_nat_of_succ_le fun i => ?_
        cases i with
        | zero => exact hstart
        | succ i => exact hrest (Nat.le_succ i)
    rw [hsplit, ih, hfirst]
    cases hnamed : namedLevel input with
    | none =>
      rw [List.filterMap_cons_none hnamed, Option.getD_none]
      exact and_iff_right (Int.le_refl _)
    | some level =>
      rw [List.filterMap_cons_some hnamed, Option.getD_some, List.isChain_cons_cons]

/-- The level does not rise by lines of the shell. -/
def ShellNeverRaises : Prop :=
  ∀ (τ : Type) (R : IAxiRegs τ) (m : EmconManager τ) (inputs : List String),
    Antitone (levels R m inputs)

/-- One line lifts the silence that a zeroize forced. -/
theorem not_shellNeverRaises : ¬ ShellNeverRaises := by
  intro h
  have hlifted := h Unit nullAxiRegs
    (EmconManager.forceEmcon0 nullAxiRegs (.new nullAxiRegs ())) ["emcon 2"] (Nat.zero_le 1)
  exact absurd hlifted (by decide)

end CliShell
end Cirradio.Transec
