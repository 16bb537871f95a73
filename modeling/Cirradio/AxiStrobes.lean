import Cirradio.AxiReads

/-!
# The strobes of the EMCON registers

A write to one of the two EMCON registers raises its strobe in the next cycle, when the data
output carries whatever is on the bus by then. A strobe goes down only in a cycle without a
write.
-/

namespace Cirradio.Fpga
namespace AxiRegs
open CallRuns

/-- The write that is applied in a cycle of a run, with its address and data. -/
def appliedIn (s : AxiRegs) (inputs : List AxiIn) (i : ℕ) : Option (BitVec 12 × BitVec 32) :=
  inputs[i]?.bind fun x =>
    let t := after step s (inputs.take i)
    if t.applies x then some (t.wa x, x.wdata) else none

/-- A strobe is up in exactly the cycles behind the writes to its register, and the data output
carries their data then. -/
structure StrobesMatch (strobe : AxiRegs → Bool) (reg : BitVec 12) (s : AxiRegs)
    (inputs : List AxiIn) : Prop where
  strobe : ∀ i ≤ inputs.length, strobe (after step s (inputs.take i)) = true ↔
    ∃ j data, i = j + 1 ∧ appliedIn s inputs j = some (reg, data)
  data : ∀ j data y, appliedIn s inputs j = some (reg, data) → inputs[j + 1]? = some y →
    (out (after step s (inputs.take (j + 1))) y).axiWdata = data

/-- In the cycle behind a write to the register the bus still carries its data, and no other
register is written. -/
structure HeldBehind (reg : BitVec 12) (s : AxiRegs) (inputs : List AxiIn) : Prop where
  data : ∀ j data y, appliedIn s inputs j = some (reg, data) → inputs[j + 1]? = some y →
    y.wdata = data
  single : ∀ j data w, appliedIn s inputs j = some (reg, data) →
    appliedIn s inputs (j + 1) = some w → w.1 = reg

section Strobe
variable {strobe : AxiRegs → Bool} {reg : BitVec 12} {s : AxiRegs} {inputs : List AxiIn}

theorem appliedIn_eq_some {i : ℕ} {x : AxiIn} (hx : inputs[i]? = some x)
    {w : BitVec 12 × BitVec 32} : appliedIn s inputs i = some w ↔
      (after step s (inputs.take i)).applies x = true ∧
        ((after step s (inputs.take i)).wa x, x.wdata) = w := by
  rw [appliedIn, hx, Option.bind_some]
  dsimp only
  split_ifs with happlies
  · rw [Option.some.injEq, and_iff_right happlies]
  · exact ⟨nofun, fun h => absurd h.1 happlies⟩

/-- A strobe is up behind a write to its register, and behind any other if it was up before. -/
theorem strobe_succ_iff
    (hnext : ∀ t x, strobe (next t x) = (t.applies x && (t.wa x == reg || strobe t)))
    {i : ℕ} (hi : i < inputs.length) :
    strobe (after step s (inputs.take (i + 1))) = true ↔
      ∃ w, appliedIn s inputs i = some w ∧
        (w.1 = reg ∨ strobe (after step s (inputs.take i)) = true) := by
  have hx := List.getElem?_eq_getElem hi
  rw [after_take_succ _ _ hx]
  change strobe (next _ _) = true ↔ _
  rw [hnext, Bool.and_eq_true, Bool.or_eq_true, beq_iff_eq]
  constructor
  · rintro ⟨happlies, hup⟩
    exact ⟨_, (appliedIn_eq_some hx).mpr ⟨happlies, rfl⟩, hup⟩
  · rintro ⟨w, hw, hup⟩
    obtain ⟨happlies, rfl⟩ := (appliedIn_eq_some hx).mp hw
    exact ⟨happlies, hup⟩

theorem strobesMatch_iff (hstart : strobe s = false)
    (hnext : ∀ t x, strobe (next t x) = (t.applies x && (t.wa x == reg || strobe t))) :
    StrobesMatch strobe reg s inputs ↔ HeldBehind reg s inputs := by
  constructor
  · intro h
    refine ⟨h.data, fun j data w hj hw => ?_⟩
    have hin : j + 1 < inputs.length := by
      by_contra hout
      rw [appliedIn, List.getElem?_eq_none (Nat.le_of_not_lt hout)] at hw
      cases hw
    have hup := (h.strobe (j + 1) (Nat.le_of_lt hin)).mpr ⟨j, data, rfl, hj⟩
    have hstill := (strobe_succ_iff hnext hin).mpr ⟨w, hw, .inr hup⟩
    obtain ⟨k, data', hk, hw'⟩ := (h.strobe (j + 2) hin).mp hstill
    rw [← Nat.succ.inj hk, hw] at hw'
    rw [Option.some.inj hw']
  · intro h
    refine ⟨fun i hi => ?_, h.data⟩
    induction i with
    | zero =>
      rw [List.take_zero, after_nil, hstart]
      exact ⟨nofun, fun ⟨j, data, hj, _⟩ => absurd hj.symm (Nat.succ_ne_zero j)⟩
    | succ i ih =>
      rw [strobe_succ_iff hnext hi, ih (Nat.le_of_lt hi)]
      constructor
      · rintro ⟨w, hw, rfl | ⟨j, data, rfl, hj⟩⟩
        · exact ⟨i, w.2, rfl, hw⟩
        · exact ⟨j + 1, w.2, rfl, h.single j data w hj hw ▸ hw⟩
      · rintro ⟨j, data, hj, hw⟩
        rw [← Nat.succ.inj hj] at hw
        exact ⟨_, hw, .inl rfl⟩

end Strobe

/-- The strobes match the writes in exactly the runs in which the bus is held for a cycle behind
each of them. -/
theorem strobesMatch_iff_heldBehind (wrAddr : BitVec 12) (inputs : List AxiIn) :
    (StrobesMatch emconCtrlWr regEmconCtrl (reset wrAddr) inputs ∧
        StrobesMatch emconUnlockWr regEmconUnlock (reset wrAddr) inputs) ↔
      HeldBehind regEmconCtrl (reset wrAddr) inputs ∧
        HeldBehind regEmconUnlock (reset wrAddr) inputs :=
  and_congr (strobesMatch_iff rfl fun _ _ => rfl) (strobesMatch_iff rfl fun _ _ => rfl)

/-- The strobes match the writes, whatever the bus carries behind them. -/
def AlwaysStrobesMatch : Prop :=
  ∀ (wrAddr : BitVec 12) (inputs : List AxiIn),
    StrobesMatch emconCtrlWr regEmconCtrl (reset wrAddr) inputs ∧
      StrobesMatch emconUnlockWr regEmconUnlock (reset wrAddr) inputs

/-- Behind a control write comes a write of the transmit power: the strobe stays up for it. -/
theorem not_alwaysStrobesMatch : ¬ AlwaysStrobesMatch := by
  intro h
  have hctrl := (h 0 [writeCycle (some regEmconCtrl) (some 6) true,
    writeCycle (some regTxPower) (some 3700) true]).1
  obtain ⟨j, data, hj, hwrite⟩ := (hctrl.strobe 2 (by decide)).mp (by decide)
  cases hj
  have hreg : Option.map Prod.fst (appliedIn (reset 0)
      [writeCycle (some regEmconCtrl) (some 6) true,
        writeCycle (some regTxPower) (some 3700) true] 1) = some regEmconCtrl :=
    congrArg (Option.map Prod.fst) hwrite
  exact absurd hreg (by decide)

end AxiRegs
end Cirradio.Fpga
