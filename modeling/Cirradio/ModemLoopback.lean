import Cirradio.ModemOneRow

/-!
# The loopback of the modem

No decoder undoes the encoder, half of the coded bits are never looked at, and the descrambler
is not the inverse of the scrambler. What comes back is a sum of fifteen scrambled bits, and it
is what was sent only if the bytes happen to agree with these sums.
-/

namespace Cirradio.Fpga
open Transposers CallRuns

/-- From one of the bytes behind the window of 200 bits on, each sent bit is the sum of three
coded bits, and so of fifteen scrambled ones. -/
def Consistent (depth : ℕ) (bytes : List (BitVec 8)) : Prop :=
  ∃ start, 25 ≤ start ∧ receivedBits depth bytes.length / 8 - 25 ≤ bytes.length - start ∧
    ∀ n, 200 ≤ n → n < receivedBits depth bytes.length →
      bitAt bytes (8 * start + (n - 200)) =
        (coded (bitAt bytes) (source depth n) ^^ (coded (bitAt bytes) (source depth (n - 7)) ^^
          coded (bitAt bytes) (source depth (n - 6))))

theorem bitAt_replicate_zero (n m : ℕ) : bitAt (List.replicate n 0) m = false := by
  rw [bitAt, List.getD_eq_getElem?_getD, List.getElem?_replicate]
  split <;> exact BitVec.getLsbD_zero

theorem consistent_of_zeros (n : ℕ) : Consistent 1 (List.replicate n 0) := by
  refine ⟨25, le_rfl, ?_, fun m hm _ => ?_⟩
  · rw [List.length_replicate, receivedBits]
    omega
  · obtain ⟨k, rfl⟩ : ∃ k, m = k + 10 := ⟨m - 10, by omega⟩
    rw [sum_one]
    simp only [threefold, bitAt_replicate_zero, Bool.xor_self]

namespace Modem

/-- The bytes that come out are accepted ones in a row, from behind the window on. -/
def LoopsBack (depth : ℕ) (s : Modem) (xs : List ModemIn) : Prop :=
  ∃ start, 25 ≤ start ∧ produced depth s xs <+: (accepted depth s xs).drop start

theorem loopsBack_iff {depth : ℕ} (hdepth : depth ∈ Set.Icc 1 32) (s : Modem)
    (xs : List ModemIn) (hxs : EveryCall (step depth) s.reset (Unhurried depth) xs) :
    (Consistent depth (accepted depth s.reset xs) → LoopsBack depth s.reset xs) ∧
      (Drained (after (step depth) s.reset xs) → LoopsBack depth s.reset xs →
        Consistent depth (accepted depth s.reset xs)) := by
  obtain ⟨hstate, hbits⟩ := carries_of_reset hdepth.1 hxs
  constructor
  · rintro ⟨start, hstart, hroom, hagree⟩
    refine ⟨start, hstart, List.prefix_iff_getElem?.mpr fun i hi => ?_⟩
    have hlen := hstate.le hdepth.1
    have hin : start + i < (accepted depth s.reset xs).length := by omega
    rw [List.getElem?_drop, List.getElem?_eq_getElem hin]
    refine congrArg some (byte_ext fun z hz => ?_)
    have hsent := hagree (8 * (25 + i) + z) (by omega) (by omega)
    rw [show 8 * start + (8 * (25 + i) + z - 200) = 8 * (start + i) + z by omega,
      bitAt_eq (List.getElem?_eq_getElem hin) hz] at hsent
    rw [hsent, hbits i _ (List.getElem?_eq_getElem hi) z hz, descrambled_eq _ (by omega)]
    rfl
  · rintro hdrained ⟨start, hstart, hsegment⟩
    have hlen := hstate.eq_of_drained hdepth.1 hdrained
    refine ⟨start, hstart, ?_, fun n hn hreceived => ?_⟩
    · rw [← hlen, ← List.length_drop]
      exact hsegment.length_le
    · have hi : n / 8 - 25 < (produced depth s.reset xs).length := by
        obtain ⟨blocks, hblocks⟩ :=
          eight_dvd_receivedBits depth (accepted depth s.reset xs).length
        omega
      have hbyte := List.prefix_iff_getElem?.mp hsegment _ hi
      rw [List.getElem?_drop] at hbyte
      have hz : n % 8 < 8 := Nat.mod_lt n (by decide)
      have hsent := bitAt_eq hbyte hz
      rw [hbits _ _ (List.getElem?_eq_getElem hi) _ hz,
        show 8 * (25 + (n / 8 - 25)) + n % 8 = n by omega, descrambled_eq _ (by omega),
        show 8 * (start + (n / 8 - 25)) + n % 8 = 8 * start + (n - 200) by omega] at hsent
      exact hsent

def blank : Modem where
  serializer := .reset
  interleaver := ⟨0, 0, 0, 0, false, false, fun _ _ => false, false, false⟩
  mapper := ⟨false, false, 0, 0, false⟩
  inFlight := []
  deinterleaver := ⟨0, 0, 0, 0, false, false, fun _ _ => false, false, false⟩
  descrambler := .reset

/-- Zeros come back. -/
theorem loopsBack_iff_zeros :
    (1 ∈ Set.Icc 1 32 ∧
      EveryCall (step 1) blank.reset (Unhurried 1) (paced (List.replicate 256 0)) ∧
      Consistent 1 (accepted 1 blank.reset (paced (List.replicate 256 0)))) ∧
    LoopsBack 1 blank.reset (paced (List.replicate 256 0)) := by
  have hdepth : 1 ∈ Set.Icc 1 32 := ⟨le_rfl, by decide⟩
  have hxs := unhurried_paced blank (List.replicate 256 0)
  have hbytes : Consistent 1 (accepted 1 blank.reset (paced (List.replicate 256 0))) := by
    rw [accepted_paced 1 rfl]
    exact consistent_of_zeros 256
  exact ⟨⟨hdepth, hxs, hbytes⟩, (loopsBack_iff hdepth blank _ hxs).1 hbytes⟩

/-- Zeros but for the first bit of one byte. -/
def strayBit (n : ℕ) : List (BitVec 8) := List.replicate 52 0 ++ 0x80 :: List.replicate n 0

theorem getD_strayBit (n i : ℕ) : (strayBit n).getD i 0 = if i = 52 then 0x80 else 0 := by
  rw [strayBit, List.getD_eq_getElem?_getD]
  rcases Nat.lt_trichotomy i 52 with hi | rfl | hi
  · rw [List.getElem?_append_left (by rwa [List.length_replicate]), List.getElem?_replicate,
      if_pos hi, if_neg (by omega)]
    rfl
  · rfl
  · obtain ⟨k, rfl⟩ : ∃ k, i = 52 + (k + 1) := ⟨i - 53, by omega⟩
    rw [List.getElem?_append_right (by rw [List.length_replicate]; omega), List.length_replicate,
      Nat.add_sub_cancel_left, List.getElem?_cons_succ, List.getElem?_replicate,
      if_neg (by omega : ¬52 + (k + 1) = 52)]
    split <;> rfl

theorem bitAt_strayBit (n i : ℕ) : bitAt (strayBit n) i = decide (i = 416) := by
  have hbits : ∀ z < 8, (0x80 : BitVec 8).getLsbD (7 - z) = decide (z = 0) := by decide
  rw [bitAt, getD_strayBit]
  by_cases hbyte : i / 8 = 52
  · rw [if_pos hbyte, hbits _ (Nat.mod_lt i (by decide))]
    exact decide_eq_decide.mpr (by omega)
  · rw [if_neg hbyte, decide_eq_false (by omega)]
    exact BitVec.getLsbD_zero

theorem descrambled_strayBit (n : ℕ) : ∀ z < 8,
    descrambled (rawBit 1 (bitAt (strayBit n))) (8 * (25 + 1) + z) =
      (0xB3 : BitVec 8).getLsbD (7 - z) := by
  intro z hz
  have hplace : 8 * (25 + 1) + z = 198 + z + 10 := by omega
  rw [descrambled_eq _ (by omega), hplace]
  change (coded _ (source 1 (198 + z + 10)) ^^ (coded _ (source 1 (198 + z + 10 - 7)) ^^
    coded _ (source 1 (198 + z + 10 - 6)))) = _
  rw [sum_one, funext (bitAt_strayBit n)]
  revert z
  decide

theorem produced_strayBit : 1 < (produced 1 blank.reset (paced (strayBit 160))).length := by
  set_option maxRecDepth 100000 in
  decide +kernel

theorem not_loopsBack : ¬∀ depth ∈ Set.Icc 1 32, ∃ enough, ∀ (s : Modem) (xs : List ModemIn),
    enough ≤ (accepted depth s.reset xs).length → LoopsBack depth s.reset xs := by
  intro h
  obtain ⟨enough, henough⟩ := h 1 ⟨le_rfl, by decide⟩
  have hsplit : strayBit (160 + enough) = strayBit 160 ++ List.replicate enough 0 := by
    rw [strayBit, strayBit, ← List.replicate_append_replicate, List.append_assoc, List.cons_append]
  have haccepted : accepted 1 blank.reset (paced (strayBit (160 + enough))) =
      strayBit (160 + enough) := accepted_paced 1 rfl _
  obtain ⟨start, -, hsegment⟩ := henough blank (paced (strayBit (160 + enough))) (by
    rw [haccepted, hsplit, List.length_append, List.length_replicate]
    omega)
  have hlen : 1 < (produced 1 blank.reset (paced (strayBit (160 + enough)))).length := by
    rw [hsplit, paced, List.flatMap_append, produced_append, List.length_append, ← paced]
    exact Nat.lt_add_right _ produced_strayBit
  have hbits := (carries_of_reset Nat.one_pos (unhurried_paced blank (strayBit (160 + enough)))).2
    1 _ (List.getElem?_eq_getElem hlen)
  rw [haccepted] at hbits hsegment
  have hbyte := byte_ext fun z hz => (hbits z hz).trans (descrambled_strayBit _ z hz)
  have hmem := List.mem_of_mem_drop (hsegment.subset (List.getElem_mem hlen))
  rw [hbyte] at hmem
  simp [strayBit] at hmem

end Modem
end Cirradio.Fpga
