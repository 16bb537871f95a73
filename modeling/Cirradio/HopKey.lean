import Cirradio.AxiDriver
import Cirradio.HopSequencer
import Mathlib.Tactic.IntervalCases

/-!
# The hop key on its way to the cipher

The driver copies the key to registers as a little-endian host holds it, and the registers
side by side are the key of the AES core, which takes the most significant byte first. The
core has the bytes of the key in the opposite order.
-/

namespace Cirradio.Fpga
open Security ByteWords Fhss AxiDriver

/-- `fhek_o`, with the first register in the lowest bits. -/
def RegFile.fhekOut (f : RegFile) : BitVec 256 :=
  f.fhek[7] ++ f.fhek[6] ++ f.fhek[5] ++ f.fhek[4] ++ f.fhek[3] ++ f.fhek[2] ++ f.fhek[1] ++
    f.fhek[0]

/-- The bytes of a key as the AES core takes them, the most significant first. -/
def coreKey (key : BitVec 256) : Bytes :=
  (List.range 32).map fun i => UInt8.ofBitVec (key.extractLsb' (8 * (31 - i)) 8)

theorem getLsbD_fhekOut (f : RegFile) {k j : ℕ} (hk : k < 8) (hj : j < 32) :
    f.fhekOut.getLsbD (32 * k + j) = f.fhek[k].getLsbD j := by
  unfold RegFile.fhekOut
  simp only [BitVec.getLsbD_append]
  interval_cases k <;> grind

theorem getLsbD_keyWords (fhek : Bytes) {k j : ℕ} (hk : k < 8) (hj : j < 32) :
    ((keyWords fhek).getD k 0).getLsbD j =
      (fhek.getD (4 * k + j / 8) 0).toNat.testBit (j % 8) := by
  have hword : (keyWords fhek).getD k 0 = hostWord ((fhek.drop (k * 4)).take 4) := by
    simp [keyWords, hk]
  have hbyte : ((fhek.drop (k * 4)).take 4).getD (j / 8) 0 = fhek.getD (4 * k + j / 8) 0 := by
    rw [List.getD_eq_getElem?_getD, List.getElem?_take_of_lt (by omega), List.getElem?_drop,
      List.getD_eq_getElem?_getD, Nat.mul_comm k 4]
  rw [hword, hostWord, BitVec.getLsbD_ofNat, testBit_littleEndian, hbyte]
  simp [hj]

/-- A loaded key has its first byte in the lowest bits. -/
theorem getLsbD_setFhek (fhek : Bytes) (f : RegFile) {b : ℕ} (hb : b < 256) :
    (AxiRegs.applied f (writesAt regFhek0 (keyWords fhek))).fhekOut.getLsbD b =
      (fhek.getD (b / 8) 0).toNat.testBit (b % 8) := by
  have hlen : (keyWords fhek).length = 8 := by simp [keyWords]
  have hk : b / 32 < 8 := by omega
  have hword : (overlay f.fhek (keyWords fhek))[b / 32] = (keyWords fhek).getD (b / 32) 0 := by
    have hin : b / 32 < (keyWords fhek).length := by omega
    simp [overlay, hin]
  have hj : b % 32 < 32 := Nat.mod_lt b (by decide)
  have hdiv : 4 * (b / 32) + b % 32 / 8 = b / 8 := by omega
  have hmod : b % 32 % 8 = b % 8 := by omega
  rw [applied_writesAt_fhek f (Nat.le_of_eq hlen)]
  conv_lhs => rw [← Nat.div_add_mod b 32]
  rw [getLsbD_fhekOut _ hk hj]
  change ((overlay f.fhek (keyWords fhek))[b / 32]).getLsbD _ = _
  rw [hword, getLsbD_keyWords fhek hk hj, hdiv, hmod]

theorem coreKey_setFhek {fhek : Bytes} (hkey : fhek.length = 32) (f : RegFile) :
    coreKey (AxiRegs.applied f (writesAt regFhek0 (keyWords fhek))).fhekOut = fhek.reverse := by
  apply List.ext_getElem
  · simp [coreKey, hkey]
  · intro i hi hi'
    have hlt : i < 32 := by simpa [coreKey] using hi
    have hbyte : fhek.getD (31 - i) 0 = fhek.reverse[i] := by
      rw [List.getElem_reverse, List.getD_eq_getElem?_getD, List.getElem?_eq_getElem (by omega),
        Option.getD_some]
      simp only [hkey]
    rw [← hbyte]
    apply UInt8.toBitVec_inj.mp
    apply BitVec.eq_of_getLsbD_eq
    intro j hj
    have hdiv : (8 * (31 - i) + j) / 8 = 31 - i := by omega
    have hmod : (8 * (31 - i) + j) % 8 = j := by omega
    simp only [coreKey, List.getElem_map, List.getElem_range]
    change (BitVec.extractLsb' _ _ _).getLsbD j = _
    rw [BitVec.getLsbD_extractLsb', decide_eq_true hj, Bool.true_and,
      getLsbD_setFhek fhek f (by omega), hdiv, hmod]
    rfl

/-- The AES core behind the registers has the key of the sequencer. -/
def KeyUnchanged (fhek : Bytes) : Prop :=
  ∃ writes, setFhek fhek = .ok writes ∧
    ∀ (f : RegFile) (minFreq maxFreq channelSpacing : Frequency) (h : HopSequencer),
      HopSequencer.new fhek minFreq maxFreq channelSpacing = .ok h →
        coreKey (AxiRegs.applied f writes).fhekOut = h.fhek

/-- The key is unchanged exactly if it reads the same backwards. -/
theorem keyUnchanged_iff_palindrome {fhek : Bytes} (hkey : fhek.length = 32) :
    KeyUnchanged fhek ↔ fhek.reverse = fhek := by
  have hset : setFhek fhek = .ok (writesAt regFhek0 (keyWords fhek)) :=
    if_neg (not_not.mpr hkey)
  constructor
  · rintro ⟨writes, hwrites, hsame⟩
    rw [hset] at hwrites
    cases hwrites
    obtain ⟨h, hnew⟩ : ∃ h, HopSequencer.new fhek 0 1 1 = .ok h := by
      simp only [HopSequencer.new, hkey]
      exact ⟨_, rfl⟩
    obtain ⟨-, -, -, -, rfl⟩ := HopSequencer.new_eq_ok hnew
    rw [← coreKey_setFhek hkey .reset]
    exact hsame .reset 0 1 1 _ hnew
  · intro hpalindrome
    refine ⟨_, hset, fun f minFreq maxFreq channelSpacing h hnew => ?_⟩
    obtain ⟨-, -, -, -, rfl⟩ := HopSequencer.new_eq_ok hnew
    rw [coreKey_setFhek hkey, hpalindrome]

theorem keyUnchanged_iff_palindrome_equal :
    KeyUnchanged (List.replicate 32 0xAA) ↔
      (List.replicate 32 (0xAA : UInt8)).reverse = List.replicate 32 0xAA :=
  keyUnchanged_iff_palindrome List.length_replicate

/-- A key whose bytes are not all the same is reversed. -/
theorem not_keysUnchanged : ¬ ∀ fhek : Bytes, fhek.length = 32 → KeyUnchanged fhek := by
  intro h
  have hkey : (1 :: List.replicate 31 (0 : UInt8)).length = 32 := by decide
  obtain ⟨writes, hwrites, hsame⟩ := h _ hkey
  have hset : setFhek (1 :: List.replicate 31 0) =
      .ok (writesAt regFhek0 (keyWords (1 :: List.replicate 31 0))) := if_neg (not_not.mpr hkey)
  rw [hset] at hwrites
  cases hwrites
  have hcore := hsame .reset 0 1 1 _ rfl
  rw [coreKey_setFhek hkey] at hcore
  revert hcore
  decide

end Cirradio.Fpga
