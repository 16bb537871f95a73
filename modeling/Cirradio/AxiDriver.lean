import Cirradio.AxiWrites
import Cirradio.ByteWords
import Cirradio.HsmEngine

/-!
# The register driver

The driver writes the words of a key or of a blacklist to registers one after the other.
The words of a key are its bytes as the little-endian host holds them.
-/

namespace Cirradio.Fpga
open Security ByteWords

def regBlacklistCount : ℕ := 20

namespace AxiDriver

/-- Four bytes copied into a word of the host. -/
def hostWord (bytes : Bytes) : BitVec 32 := BitVec.ofNat 32 (littleEndian bytes)

/-- Writes of words to registers one after the other. -/
def writesAt (base : BitVec 12) (ws : List (BitVec 32)) : List (BitVec 12 × BitVec 32) :=
  ws.zipIdx.map fun w => (base + BitVec.ofNat 12 (w.2 * 4), w.1)

def keyWords (fhek : Bytes) : List (BitVec 32) :=
  (List.range 8).map fun i => hostWord ((fhek.drop (i * 4)).take 4)

def setFhek (fhek : Bytes) : Throws (List (BitVec 12 × BitVec 32)) :=
  if fhek.length ≠ 32 then .error "FHEK must be 32 bytes"
  else .ok (writesAt regFhek0 (keyWords fhek))

/-- Words beyond the last register are left out. -/
def setBlacklist (freqsKhz : List (BitVec 32)) : List (BitVec 12 × BitVec 32) :=
  writesAt regBlacklistBase (freqsKhz.take regBlacklistCount)

/-- Words over the first entries of a bank. -/
def overlay {n : ℕ} (bank : Vector (BitVec 32) n) (ws : List (BitVec 32)) :
    Vector (BitVec 32) n := Vector.ofFn fun i => ws.getD i.val bank[i]

theorem getElem_overlay {n : ℕ} (bank : Vector (BitVec 32) n) (ws : List (BitVec 32)) {i : ℕ}
    (hi : i < n) : (overlay bank ws)[i] = ws[i]?.getD bank[i] := by
  simp [overlay, List.getD_eq_getElem?_getD]

theorem overlay_nil {n : ℕ} (bank : Vector (BitVec 32) n) : overlay bank [] = bank := by
  apply Vector.ext
  intro i hi
  simp [overlay]

theorem overlay_concat {n : ℕ} (bank : Vector (BitVec 32) n) (ws : List (BitVec 32))
    (w : BitVec 32) :
    (overlay bank ws).setIfInBounds ws.length w = overlay bank (ws ++ [w]) := by
  apply Vector.ext
  intro i hi
  rw [Vector.getElem_setIfInBounds]
  split
  · next heq =>
    subst heq
    simp [overlay]
  · next hne =>
    rcases Nat.lt_or_gt_of_ne hne with hgt | hlt
    · have hout : (ws ++ [w])[i]? = none := by
        rw [List.getElem?_eq_none_iff, List.length_append, List.length_singleton]
        exact hgt
      simp [overlay, Nat.le_of_lt hgt, hout]
    · simp [overlay, List.getElem?_append_left hlt]

/-- The words are in the first registers of the bank they are written to. -/
theorem applied_writesAt {n : ℕ} {base : BitVec 12} (put : Vector (BitVec 32) n → RegFile)
    (hwrite : ∀ bank i w, i < n →
      (put bank).write (base + BitVec.ofNat 12 (i * 4)) w = put (bank.setIfInBounds i w))
    (bank : Vector (BitVec 32) n) {ws : List (BitVec 32)} (hlen : ws.length ≤ n) :
    AxiRegs.applied (put bank) (writesAt base ws) = put (overlay bank ws) := by
  induction ws using List.reverseRecOn with
  | nil =>
    rw [overlay_nil]
    rfl
  | append_singleton ws w ih =>
    rw [List.length_append, List.length_singleton] at hlen
    have hmore : writesAt base (ws ++ [w]) =
        writesAt base ws ++ [(base + BitVec.ofNat 12 (ws.length * 4), w)] := by
      simp [writesAt, List.zipIdx_append]
    rw [hmore, AxiRegs.applied_concat, ih (by omega), hwrite _ _ _ (by omega), overlay_concat]

theorem write_fhek (f : RegFile) {i : ℕ} (hi : i < 8) (w : BitVec 32) :
    f.write (regFhek0 + BitVec.ofNat 12 (i * 4)) w =
      { f with fhek := f.fhek.setIfInBounds i w } := by
  have hdecode : ∀ i : Fin 8, (regFhek0 ≤ regFhek0 + BitVec.ofNat 12 (i.val * 4) ∧
      regFhek0 + BitVec.ofNat 12 (i.val * 4) ≤ regFhek7) ∧
      RegFile.wordIndex (regFhek0 + BitVec.ofNat 12 (i.val * 4)) regFhek0 = i.val := by decide
  obtain ⟨hrange, hindex⟩ := hdecode ⟨i, hi⟩
  rw [RegFile.write, if_pos hrange, hindex]

theorem write_bl (f : RegFile) {i : ℕ} (hi : i < regBlacklistCount) (w : BitVec 32) :
    f.write (regBlacklistBase + BitVec.ofNat 12 (i * 4)) w =
      { f with bl := f.bl.setIfInBounds i w } := by
  have hdecode : ∀ i : Fin regBlacklistCount,
      ¬ (regFhek0 ≤ regBlacklistBase + BitVec.ofNat 12 (i.val * 4) ∧
        regBlacklistBase + BitVec.ofNat 12 (i.val * 4) ≤ regFhek7) ∧
      (regBlacklistBase ≤ regBlacklistBase + BitVec.ofNat 12 (i.val * 4) ∧
        regBlacklistBase + BitVec.ofNat 12 (i.val * 4) < regBlacklistBase + 20 * 4) ∧
      RegFile.wordIndex (regBlacklistBase + BitVec.ofNat 12 (i.val * 4)) regBlacklistBase =
        i.val := by decide
  obtain ⟨hkey, hrange, hindex⟩ := hdecode ⟨i, hi⟩
  rw [RegFile.write, if_neg hkey, if_pos hrange, hindex]

theorem applied_writesAt_fhek (f : RegFile) {ws : List (BitVec 32)} (hlen : ws.length ≤ 8) :
    AxiRegs.applied f (writesAt regFhek0 ws) = { f with fhek := overlay f.fhek ws } :=
  applied_writesAt (fun bank => { f with fhek := bank })
    (fun bank _ w hi => write_fhek { f with fhek := bank } hi w) f.fhek hlen

theorem applied_setBlacklist (f : RegFile) (freqsKhz : List (BitVec 32)) :
    AxiRegs.applied f (setBlacklist freqsKhz) =
      { f with bl := overlay f.bl (freqsKhz.take regBlacklistCount) } :=
  applied_writesAt (fun bank => { f with bl := bank })
    (fun bank _ w hi => write_bl { f with bl := bank } hi w) f.bl (List.length_take_le _ _)

end AxiDriver
end Cirradio.Fpga
