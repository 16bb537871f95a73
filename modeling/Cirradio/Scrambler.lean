import Cirradio.ModemOneRow

/-!
# Scrambler and descrambler

The register of the scrambler runs on its own, the register of the descrambler is fed with what
is received. From the same start the two part seven bits behind the first one.
-/

namespace Cirradio.Fpga

/-- The descrambler after some bits of a sequence. -/
def descramblerAt (r : ℕ → Bool) : ℕ → Descrambler
  | 0 => .reset
  | n + 1 => (descramblerAt r n).next (some (r n))

/-- The bit that the descrambler shifts into its byte. -/
def descrBit (r : ℕ → Bool) (n : ℕ) : Bool := (descramblerAt r (n + 1)).rxByte.getLsbD 0

theorem collects_descramblerAt (r : ℕ → Bool) (n : ℕ) :
    ∃ k, (descramblerAt r n).Collects r n k := by
  induction n with
  | zero => exact ⟨0, .reset r⟩
  | succ n ih =>
    obtain ⟨k, h⟩ := ih
    exact ⟨_, h.next fun v hv => (Option.mem_some_iff.mp hv).symm⟩

theorem descrBit_eq (r : ℕ → Bool) (n : ℕ) : descrBit r n = descrambled r n := by
  obtain ⟨k, h⟩ := collects_descramblerAt r (n + 1)
  rw [descrBit, h.rxByte, getLsbD_shifted _ _ _ (by decide)]
  rfl

theorem lfsrBit_shifted (r : ℕ → Bool) (n : ℕ) : lfsrBit (shifted 0x7F#7 r n) =
    ((if 7 ≤ n then r (n - 7) else true) ^^ if 6 ≤ n then r (n - 6) else true) := by
  have hones : ∀ d < 7, (0x7F#7).getLsbD d = true := by decide
  rw [lfsrBit, getLsbD_shifted _ _ _ (by decide), getLsbD_shifted _ _ _ (by decide), Nat.sub_sub,
    Nat.sub_sub, hones _ (by omega), hones _ (by omega)]
  rfl

/-- What comes out differs from what went in by the bits six and seven places before. -/
theorem descrambled_scrambled (b : ℕ → Bool) (n : ℕ) :
    descrambled (scrambled b) n = (b n ^^ (back b n 7 ^^ back b n 6)) := by
  have hsums : ∀ v x y p q : Bool,
      (v ^^ (x ^^ y) ^^ ((p ^^ x) ^^ (q ^^ y))) = (v ^^ (p ^^ q)) := by decide
  rw [descrambled, lfsrBit_shifted, scrambled, lfsrAt_eq_shifted n, lfsrBit_shifted]
  by_cases hsix : 6 ≤ n
  · by_cases hseven : 7 ≤ n
    · simp only [back, hsix, hseven, if_true, decide_true, Bool.true_and, scrambled]
      exact hsums ..
    · have hone := hsums (b n) true (lfsrBit (lfsrAt (n - 6))) false (b (n - 6))
      rw [Bool.false_xor] at hone
      simp only [back, hsix, hseven, if_true, if_false, decide_true, decide_false, Bool.true_and,
        Bool.false_and, scrambled]
      exact hone
  · have hseven : ¬ 7 ≤ n := fun h => hsix (Nat.le_of_succ_le h)
    simp only [back, hsix, hseven, if_false, decide_false, Bool.false_and, Bool.xor_self,
      Bool.xor_false]

/-- Of the first bits all but the last six must be zero. -/
theorem descrBit_eq_iff (b : ℕ → Bool) (n : ℕ) :
    (∀ i < n, descrBit (scrambled b) i = b i) ↔ ∀ j, j + 6 < n → b j = false := by
  have hsame : ∀ i, descrBit (scrambled b) i = b i ↔ back b i 7 = back b i 6 := by
    intro i
    rw [descrBit_eq, descrambled_scrambled]
    cases b i <;> cases back b i 7 <;> cases back b i 6 <;> decide
  constructor
  · intro h j
    induction j with
    | zero =>
      intro hj
      have hsum := (hsame 6).mp (h 6 hj)
      exact hsum.symm
    | succ j ih =>
      intro hj
      have hsum := (hsame (j + 7)).mp (h (j + 7) hj)
      rw [back, back, decide_eq_true (by omega), decide_eq_true (by omega), Bool.true_and,
        Bool.true_and, Nat.add_sub_cancel, ih (by omega)] at hsum
      exact hsum.symm
  · intro h i hi
    have hzero : ∀ d, 6 ≤ d → back b i d = false := by
      intro d hd
      rw [back, Bool.and_eq_false_iff]
      by_cases hle : d ≤ i
      · exact .inr (h (i - d) (by omega))
      · exact .inl (decide_eq_false hle)
    rw [hsame, hzero 7 (by decide), hzero 6 le_rfl]

/-- The descrambler gives back the first bits of a sequence exactly if all but the last six of
them are zero, and so a whole sequence only if it is zero. -/
theorem descrambles_iff_zero (b : ℕ → Bool) :
    (∀ n, (∀ i < n, descrBit (scrambled b) i = b i) ↔ ∀ j, j + 6 < n → b j = false) ∧
      ((∀ i, descrBit (scrambled b) i = b i) ↔ ∀ i, b i = false) := by
  refine ⟨descrBit_eq_iff b, fun h j => ?_, fun h i => ?_⟩
  · exact (descrBit_eq_iff b (j + 7)).mp (fun i _ => h i) j (by omega)
  · exact (descrBit_eq_iff b (i + 1)).mpr (fun j _ => h j) i (by omega)

/-- Of a sequence of ones the seventh bit comes back as zero. -/
theorem not_descrambles : ¬ ∀ (b : ℕ → Bool) (i : ℕ), descrBit (scrambled b) i = b i := by
  intro h
  exact absurd (h (fun _ => true) 6) (by decide)

end Cirradio.Fpga
