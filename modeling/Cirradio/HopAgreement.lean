import Cirradio.HopDelivery

/-!
# The hop engine beside the hop sequencer

Both turn an encrypted block into one of 11480 channels. The sequencer takes the first
eight bytes of the result, low byte first, and the engine the last eight, high byte
first; the frame number goes into the block in opposite byte orders too.
-/

namespace Cirradio.Fhss
open Security ByteWords Fpga FhssEngine

/-- The software's AES call for a block function. -/
def ecb (E : AesBlock → AesBlock) : AesEcb := fun _ block => .ok (E block)

/-- The value the sequencer takes from an encrypted block. -/
def sequencerWord (E : AesBlock → AesBlock) (slot : UInt8) (frame : UInt32)
    (hopIndex : UInt8) : ℕ :=
  littleEndian ((E (HopSequencer.inputBlock slot frame hopIndex 0)).toList.take 8)

/-- The sequencer on the military UHF band. -/
def uhfSequencer (fhek : Bytes) : Throws HopSequencer :=
  HopSequencer.new fhek 225000000 512000000 25000

theorem uhfSequencer_eq {fhek : Bytes} (hkey : fhek.length = 32) :
    uhfSequencer fhek = .ok ⟨fhek, 225000000, 512000000, 25000, 11480, ∅⟩ := by
  simp only [uhfSequencer, HopSequencer.new, hkey]
  rfl

theorem channel_eq {n : ℕ} (hn : n < 2 ^ 64) :
    (225000000 + UInt64.ofNat n % 11480 * 25000 : UInt64) =
      UInt64.ofNat (1000 * (225000 + 25 * (n % 11480))) := by
  apply UInt64.toNat.inj
  have hmod : n % 11480 < 11480 := Nat.mod_lt _ (by decide)
  have hword : (UInt64.ofNat n).toNat = n := UInt64.toNat_ofNat_of_lt' hn
  have hfreq : 1000 * (225000 + 25 * (n % 11480)) < UInt64.size :=
    Nat.lt_of_lt_of_le (m := 1000 * (225000 + 25 * 11480)) (by omega) (by decide)
  have h₁ : (225000000 : UInt64).toNat = 225000000 := rfl
  have h₂ : (11480 : UInt64).toNat = 11480 := rfl
  have h₃ : (25000 : UInt64).toNat = 25000 := rfl
  rw [UInt64.toNat_add, UInt64.toNat_mul, UInt64.toNat_mod, hword,
    UInt64.toNat_ofNat_of_lt' hfreq, h₁, h₂, h₃]
  omega

/-- With an empty blacklist the sequencer gives the channel of its word. -/
theorem uhfSequencer_getHopFrequency {fhek : Bytes} {seq : HopSequencer}
    (hseq : uhfSequencer fhek = .ok seq) (hkey : fhek.length = 32)
    (E : AesBlock → AesBlock) (slot : UInt8) (frame : UInt32) (hopIndex : UInt8) :
    seq.getHopFrequency (ecb E) slot frame hopIndex =
      .ok (UInt64.ofNat (1000 * (225000 + 25 * (sequencerWord E slot frame hopIndex % 11480)))) := by
  rw [uhfSequencer_eq hkey] at hseq
  cases hseq
  have hlt : sequencerWord E slot frame hopIndex < 2 ^ 64 := by
    have h := littleEndian_lt
      ((E (HopSequencer.inputBlock slot frame hopIndex 0)).toList.take 8)
    have hlen : ((E (HopSequencer.inputBlock slot frame hopIndex 0)).toList.take 8).length = 8 := by
      rw [List.length_take, Vector.length_toList]
      rfl
    rw [hlen] at h
    exact h
  rw [HopSequencer.getHopFrequency_of_empty rfl, ← channel_eq hlt]
  rfl

/-- The frequency the engine delivers is the one of the sequencer. -/
def Agrees (E : AesBlock → AesBlock) (seq : HopSequencer) (slot : BitVec 5)
    (frame : BitVec 32) (hop : BitVec 8) (freq : BitVec 32) : Prop :=
  seq.getHopFrequency (ecb E) (UInt8.ofNat slot.toNat) (UInt32.ofBitVec frame)
    (UInt8.ofBitVec hop) = .ok (UInt64.ofNat (freq.toNat * 1000))

/-- The two agree exactly when their words fall on the same channel. -/
theorem agrees_iff_words {fhek : Bytes} {seq : HopSequencer} (hkey : fhek.length = 32)
    (hseq : uhfSequencer fhek = .ok seq) {E : AesBlock → AesBlock} {slot : BitVec 5}
    {frame : BitVec 32} {hop : BitVec 8} {freq : BitVec 32}
    (hdelivers : Delivers E slot frame hop freq) :
    Agrees E seq slot frame hop freq ↔
      engineWord E slot frame hop % 11480 =
        sequencerWord E (UInt8.ofNat slot.toNat) (UInt32.ofBitVec frame)
          (UInt8.ofBitVec hop) % 11480 := by
  obtain ⟨powerUp, setup, xs, hrequest, hbusy, hpos, hvalid, rfl⟩ := hdelivers
  have hfreq := hrequest.freqKhz hbusy hpos hvalid
  rw [Agrees, uhfSequencer_getHopFrequency hseq hkey, hfreq, Except.ok.injEq]
  have hengine : engineWord E slot frame hop % 11480 < 11480 := Nat.mod_lt _ (by decide)
  have hsequencer : sequencerWord E (UInt8.ofNat slot.toNat) (UInt32.ofBitVec frame)
      (UInt8.ofBitVec hop) % 11480 < 11480 := Nat.mod_lt _ (by decide)
  generalize engineWord E slot frame hop % 11480 = n at hengine
  generalize sequencerWord E (UInt8.ofNat slot.toNat) (UInt32.ofBitVec frame)
    (UInt8.ofBitVec hop) % 11480 = m at hsequencer
  have hsize : ∀ i < 11480, 1000 * (225000 + 25 * i) < UInt64.size := fun i hi =>
    Nat.lt_of_lt_of_le (m := 1000 * (225000 + 25 * 11480)) (by omega) (by decide)
  rw [Nat.mul_comm _ 1000]
  constructor
  · intro heq
    have hnat := congrArg UInt64.toNat heq
    rw [UInt64.toNat_ofNat_of_lt' (hsize m hsequencer),
      UInt64.toNat_ofNat_of_lt' (hsize n hengine)] at hnat
    omega
  · rintro rfl
    rfl

/-- Encryption by a fixed pad. -/
def mask (pad block : AesBlock) : AesBlock := Vector.zipWith (· ^^^ ·) block pad

theorem mask_bijective (pad : AesBlock) : (mask pad).Bijective := by
  apply Function.Involutive.bijective
  intro block
  ext i hi
  simp [mask, UInt8.xor_assoc]

/-- The pad that takes the sequencer's bytes of one block to zero and the engine's bytes
of another to one. -/
def separatingPad (sequencerBlock engineBlock : AesBlock) : AesBlock :=
  Vector.ofFn fun i =>
    if i.val < 8 then sequencerBlock[i]
    else if i.val < 15 then engineBlock[i]
    else engineBlock[i] ^^^ 1

theorem mask_separatingPad_low (sequencerBlock engineBlock : AesBlock) :
    littleEndian ((mask (separatingPad sequencerBlock engineBlock) sequencerBlock).toList.take 8)
      = 0 := by
  have hbytes : (mask (separatingPad sequencerBlock engineBlock) sequencerBlock).toList.take 8 =
      List.replicate 8 0 := by
    apply List.ext_getElem
    · simp
    · intro i hi hi'
      have hlt : i < 8 := by simpa using hi'
      rw [List.getElem_replicate]
      simp [mask, separatingPad, hlt]
  rw [hbytes, littleEndian_replicate_zero]

theorem mask_separatingPad_high (sequencerBlock engineBlock : AesBlock) :
    bigEndian ((mask (separatingPad sequencerBlock engineBlock) engineBlock).toList.drop 8)
      = 1 := by
  have hbytes : (mask (separatingPad sequencerBlock engineBlock) engineBlock).toList.drop 8 =
      List.replicate 7 0 ++ [1] := by
    apply List.ext_getElem
    · simp
    · intro i hi hi'
      have hlt : i < 8 := by simpa using hi'
      by_cases hlow : i < 7
      · have hin : 8 + i < 15 := by omega
        rw [List.getElem_append_left (by simpa using hlow), List.getElem_replicate]
        simp [mask, separatingPad, hin]
      · obtain rfl : i = 7 := by omega
        rw [List.getElem_append_right (by simp)]
        simp [mask, separatingPad, ← UInt8.xor_assoc]
  rw [hbytes]
  rfl

theorem exists_words_ne (slot : BitVec 5) (frame : BitVec 32) (hop : BitVec 8) :
    ∃ E : AesBlock → AesBlock, E.Bijective ∧
      engineWord E slot frame hop % 11480 ≠
        sequencerWord E (UInt8.ofNat slot.toNat) (UInt32.ofBitVec frame)
          (UInt8.ofBitVec hop) % 11480 := by
  refine ⟨mask (separatingPad
    (HopSequencer.inputBlock (UInt8.ofNat slot.toNat) (UInt32.ofBitVec frame)
      (UInt8.ofBitVec hop) 0)
    (wordBytes (FhssEngine.blockOf slot frame hop 0))), mask_bijective _, ?_⟩
  rw [engineWord, sequencerWord, mask_separatingPad_low, mask_separatingPad_high]
  decide

/-- The engine and the sequencer hop together. -/
def HopTogether : Prop :=
  ∀ (E : AesBlock → AesBlock) (fhek : Bytes) (seq : HopSequencer) (slot : BitVec 5)
    (frame : BitVec 32) (hop : BitVec 8) (freq : BitVec 32),
    fhek.length = 32 → uhfSequencer fhek = .ok seq → slot < 20 → hop < 100 →
    Delivers E slot frame hop freq → Agrees E seq slot frame hop freq

/-- At no slot, frame and hop index do they agree whatever the cipher: they agree for
the ciphers whose words fall on the same channel, and some permutation of the blocks is
not one of these. -/
theorem hops_apart {fhek : Bytes} {seq : HopSequencer} (hkey : fhek.length = 32)
    (hseq : uhfSequencer fhek = .ok seq) (slot : BitVec 5) (frame : BitVec 32)
    (hop : BitVec 8) (hhop : hop < 100) :
    (∀ E freq, Delivers E slot frame hop freq →
      (Agrees E seq slot frame hop freq ↔
        engineWord E slot frame hop % 11480 =
          sequencerWord E (UInt8.ofNat slot.toNat) (UInt32.ofBitVec frame)
            (UInt8.ofBitVec hop) % 11480)) ∧
    ∃ E : AesBlock → AesBlock, E.Bijective ∧
      ∃ freq, Delivers E slot frame hop freq ∧ ¬ Agrees E seq slot frame hop freq := by
  refine ⟨fun E freq hdelivers => agrees_iff_words hkey hseq hdelivers, ?_⟩
  obtain ⟨E, hbijective, hne⟩ := exists_words_ne slot frame hop
  obtain ⟨freq, hdelivers⟩ := FhssEngine.exists_delivers E slot frame hop hhop
  refine ⟨E, hbijective, freq, hdelivers, fun hagrees => hne ?_⟩
  exact (agrees_iff_words hkey hseq hdelivers).mp hagrees

theorem hops_apart_first_frame :
    ∃ (seq : HopSequencer) (E : AesBlock → AesBlock) (freq : BitVec 32),
      uhfSequencer (List.replicate 32 0x42) = .ok seq ∧ E.Bijective ∧
        Delivers E 3 1 5 freq ∧ ¬ Agrees E seq 3 1 5 freq := by
  obtain ⟨-, E, hbijective, freq, hdelivers, hnot⟩ :=
    hops_apart (List.length_replicate (n := 32)) (uhfSequencer_eq List.length_replicate)
      3 1 5 (by decide)
  exact ⟨_, E, freq, uhfSequencer_eq List.length_replicate, hbijective, hdelivers, hnot⟩

/-- With the block itself as its encryption, slot 0 of frame 1 is at 225 MHz for the
engine and at 245.4 MHz for the sequencer. -/
theorem not_hopTogether : ¬ HopTogether := by
  intro h
  obtain ⟨freq, hdelivers⟩ := FhssEngine.exists_delivers id 0 1 0 (by decide)
  have hkey : (List.replicate 32 (0x42 : UInt8)).length = 32 := List.length_replicate
  have hagrees := h id _ _ 0 1 0 freq hkey (uhfSequencer_eq hkey) (by decide) (by decide)
    hdelivers
  have hwords := (agrees_iff_words hkey (uhfSequencer_eq hkey) hdelivers).mp hagrees
  revert hwords
  decide

end Cirradio.Fhss
