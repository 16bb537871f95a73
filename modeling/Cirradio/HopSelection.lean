import Cirradio.HopSequencer
import Cirradio.Retries

/-!
# The frequency that the sequencer selects

The sequencer takes the first of eleven candidates that is not blacklisted, or the last.
Every candidate is a channel of the band, computed without a wrap of 64 bits.
-/

namespace Cirradio.Fhss
open Security Retries

namespace HopSequencer
variable {fhek : Bytes} {minFreq maxFreq channelSpacing : Frequency} {h : HopSequencer}

/-- What the constructor checks and stores. -/
structure Band (minFreq maxFreq channelSpacing : Frequency) (h : HopSequencer) : Prop where
  minFreq_lt : minFreq < maxFreq
  spacing_pos : 0 < channelSpacing.toNat
  minFreq_eq : h.minFreq = minFreq
  spacing_eq : h.channelSpacing = channelSpacing
  numChannels_eq : h.numChannels = (maxFreq - minFreq) / channelSpacing
  numChannels_pos : 0 < h.numChannels.toNat

theorem band_of_new (hnew : new fhek minFreq maxFreq channelSpacing = .ok h) :
    Band minFreq maxFreq channelSpacing h := by
  obtain ⟨-, hlt, hspacing, hchannels, rfl⟩ := new_eq_ok hnew
  refine ⟨hlt, ?_, rfl, rfl, rfl, ?_⟩
  · apply Nat.pos_of_ne_zero
    exact fun hzero => hspacing (UInt64.toNat.inj hzero)
  · apply Nat.pos_of_ne_zero
    exact fun hzero => hchannels (UInt64.toNat.inj hzero)

theorem Band.toNat_width (hband : Band minFreq maxFreq channelSpacing h) :
    (maxFreq - minFreq).toNat = maxFreq.toNat - minFreq.toNat :=
  UInt64.toNat_sub_of_le _ _ (UInt64.le_of_lt hband.minFreq_lt)

theorem Band.channel_le (hband : Band minFreq maxFreq channelSpacing h) {k : ℕ}
    (hk : k < h.numChannels.toNat) :
    minFreq.toNat + k * channelSpacing.toNat + channelSpacing.toNat ≤ maxFreq.toNat := by
  have hlt : minFreq.toNat < maxFreq.toNat := UInt64.lt_iff_toNat_lt.mp hband.minFreq_lt
  have hnum : h.numChannels.toNat = (maxFreq.toNat - minFreq.toNat) / channelSpacing.toNat := by
    rw [hband.numChannels_eq, UInt64.toNat_div, hband.toNat_width]
  have hfits : (k + 1) * channelSpacing.toNat ≤ maxFreq.toNat - minFreq.toNat :=
    (Nat.le_div_iff_mul_le hband.spacing_pos).mp (by omega)
  rw [Nat.add_mul, Nat.one_mul] at hfits
  omega

section Selection
variable (E : Bytes → AesBlock → AesBlock) (slot : UInt8) (frame : UInt32) (hopIndex : UInt8)

/-- The AES calls for a block cipher. -/
def cipherCalls (E : Bytes → AesBlock → AesBlock) : AesEcb := fun key block => .ok (E key block)

/-- The channel of an attempt. -/
def channelOf (h : HopSequencer) (attempt : ℕ) : UInt64 :=
  rawValue (E h.fhek (inputBlock slot frame hopIndex (UInt8.ofNat attempt))) % h.numChannels

/-- The frequency of an attempt. -/
def frequencyOf (h : HopSequencer) (attempt : ℕ) : Frequency :=
  h.minFreq + h.channelOf E slot frame hopIndex attempt * h.channelSpacing

theorem candidate_eq (h : HopSequencer) (attempt : ℕ) :
    h.candidate (cipherCalls E) slot frame hopIndex (UInt8.ofNat attempt) =
      .ok (h.frequencyOf E slot frame hopIndex attempt) := rfl

theorem channelOf_lt (hpos : 0 < h.numChannels.toNat) (attempt : ℕ) :
    (h.channelOf E slot frame hopIndex attempt).toNat < h.numChannels.toNat := by
  rw [channelOf, UInt64.toNat_mod]
  exact Nat.mod_lt _ hpos

theorem Band.toNat_offset (hband : Band minFreq maxFreq channelSpacing h) (attempt : ℕ) :
    (h.channelOf E slot frame hopIndex attempt * h.channelSpacing).toNat =
      (h.channelOf E slot frame hopIndex attempt).toNat * channelSpacing.toNat := by
  have hle := hband.channel_le (channelOf_lt E slot frame hopIndex hband.numChannels_pos attempt)
  have hmax : maxFreq.toNat < 2 ^ 64 := maxFreq.toNat_lt
  rw [UInt64.toNat_mul, hband.spacing_eq, Nat.mod_eq_of_lt (by omega)]

theorem Band.toNat_frequencyOf (hband : Band minFreq maxFreq channelSpacing h) (attempt : ℕ) :
    (h.frequencyOf E slot frame hopIndex attempt).toNat =
      minFreq.toNat +
        (h.channelOf E slot frame hopIndex attempt).toNat * channelSpacing.toNat := by
  have hle := hband.channel_le (channelOf_lt E slot frame hopIndex hband.numChannels_pos attempt)
  have hmax : maxFreq.toNat < 2 ^ 64 := maxFreq.toNat_lt
  rw [frequencyOf, UInt64.toNat_add, hband.toNat_offset, hband.minFreq_eq,
    Nat.mod_eq_of_lt (by omega)]

/-- The loop goes on from a candidate with all before it blacklisted. -/
theorem rehash_picked (left : ℕ) {n : ℕ}
    (hlisted : ∀ b < n, h.frequencyOf E slot frame hopIndex b ∈ h.blacklist) :
    ∃ freq, h.rehash (cipherCalls E) slot frame hopIndex left (n + 1)
        (h.frequencyOf E slot frame hopIndex n) = .ok freq ∧
      Picked {f | f ∈ h.blacklist} (h.frequencyOf E slot frame hopIndex)
        (h.frequencyOf E slot frame hopIndex) (n + left) freq := by
  induction left generalizing n with
  | zero => exact ⟨_, rfl, picked_last hlisted⟩
  | succ left ih =>
    by_cases hmem : h.frequencyOf E slot frame hopIndex n ∈ h.blacklist
    · have hmore : ∀ b < n + 1, h.frequencyOf E slot frame hopIndex b ∈ h.blacklist := by
        intro b hb
        rcases Nat.lt_or_eq_of_le (Nat.le_of_lt_succ hb) with hlt | rfl
        · exact hlisted b hlt
        · exact hmem
      obtain ⟨freq, hfreq, hpicked⟩ := ih hmore
      refine ⟨freq, ?_, by rwa [Nat.add_right_comm] at hpicked⟩
      unfold rehash
      rw [Std.ExtTreeSet.contains_iff_mem.mpr hmem, Bool.not_true,
        if_neg Bool.false_ne_true, candidate_eq E slot frame hopIndex h]
      exact hfreq
    · refine ⟨_, ?_, n, Nat.le_add_right _ _, rfl, hlisted, fun h' => absurd h' hmem⟩
      unfold rehash
      rw [Std.ExtTreeSet.mem_iff_contains, Bool.not_eq_true] at hmem
      rw [hmem, Bool.not_false, if_pos rfl]

/-- A frequency that a sequencer gives is the first candidate not blacklisted, or the
eleventh. -/
theorem getHopFrequency_picked (h : HopSequencer) :
    ∃ freq, h.getHopFrequency (cipherCalls E) slot frame hopIndex = .ok freq ∧
      Picked {f | f ∈ h.blacklist} (h.frequencyOf E slot frame hopIndex)
        (h.frequencyOf E slot frame hopIndex) kMaxBlacklistAttempts freq := by
  have hfirst : h.candidate (cipherCalls E) slot frame hopIndex 0 =
      .ok (h.frequencyOf E slot frame hopIndex 0) := candidate_eq E slot frame hopIndex h 0
  by_cases hempty : h.blacklist.isEmpty = true
  · refine ⟨h.frequencyOf E slot frame hopIndex 0, ?_, picked_zero fun hmem => ?_⟩
    · simp only [getHopFrequency, hfirst, bind, Except.bind, hempty, if_true]
      rfl
    · rw [Std.ExtTreeSet.isEmpty_iff.mp hempty] at hmem
      exact Std.ExtTreeSet.not_mem_empty hmem
  · have hnone : ∀ b < 0, h.frequencyOf E slot frame hopIndex b ∈ h.blacklist :=
      fun b hb => absurd hb (Nat.not_lt_zero b)
    obtain ⟨freq, hfreq, hpicked⟩ :=
      rehash_picked E slot frame hopIndex kMaxBlacklistAttempts hnone
    refine ⟨freq, ?_, by rwa [Nat.zero_add] at hpicked⟩
    simp only [getHopFrequency, hfirst, bind, Except.bind, if_neg hempty]
    exact hfreq

/-- No step of the computation of a frequency wraps. -/
structure Unwrapped (E : Bytes → AesBlock → AesBlock) (slot : UInt8) (frame : UInt32)
    (hopIndex : UInt8) (minFreq maxFreq channelSpacing : Frequency) (h : HopSequencer) :
    Prop where
  width : (maxFreq - minFreq).toNat = maxFreq.toNat - minFreq.toNat
  offset (attempt : ℕ) : (h.channelOf E slot frame hopIndex attempt * h.channelSpacing).toNat =
    (h.channelOf E slot frame hopIndex attempt).toNat * h.channelSpacing.toNat
  frequency (attempt : ℕ) : (h.frequencyOf E slot frame hopIndex attempt).toNat =
    h.minFreq.toNat +
      (h.channelOf E slot frame hopIndex attempt).toNat * h.channelSpacing.toNat

theorem Band.unwrapped (hband : Band minFreq maxFreq channelSpacing h) :
    Unwrapped E slot frame hopIndex minFreq maxFreq channelSpacing h := by
  refine ⟨hband.toNat_width, fun attempt => ?_, fun attempt => ?_⟩
  · rw [hband.toNat_offset, hband.spacing_eq]
  · rw [hband.toNat_frequencyOf, hband.minFreq_eq, hband.spacing_eq]

end Selection

/-- What a frequency for a slot, frame and hop index is, with a blacklist. -/
structure Selected (E : Bytes → AesBlock → AesBlock) (slot : UInt8) (frame : UInt32)
    (hopIndex : UInt8) (minFreq maxFreq channelSpacing : Frequency) (h : HopSequencer)
    (blacklist : Std.ExtTreeSet Frequency) (freq : Frequency) : Prop where
  picked : Picked {f | f ∈ blacklist} (h.frequencyOf E slot frame hopIndex)
    (h.frequencyOf E slot frame hopIndex) kMaxBlacklistAttempts freq
  channel : ∃ k < h.numChannels.toNat, freq.toNat = minFreq.toNat + k * channelSpacing.toNat
  minFreq_le : minFreq ≤ freq
  le_maxFreq : freq.toNat + channelSpacing.toNat ≤ maxFreq.toNat
  unwrapped : Unwrapped E slot frame hopIndex minFreq maxFreq channelSpacing h
  blacklisted : freq ∈ blacklist →
    ∀ attempt ≤ kMaxBlacklistAttempts, h.frequencyOf E slot frame hopIndex attempt ∈ blacklist
  irrelevant : h.frequencyOf E slot frame hopIndex 0 ∉ blacklist →
    h.getHopFrequency (cipherCalls E) slot frame hopIndex = .ok freq

/-- With any blacklist a new sequencer gives the first of eleven candidates that is not
blacklisted, or the eleventh, which is a channel of the band. -/
theorem getHopFrequency_selected (E : Bytes → AesBlock → AesBlock) {fhek : Bytes}
    {minFreq maxFreq channelSpacing : Frequency} {h : HopSequencer}
    (hnew : new fhek minFreq maxFreq channelSpacing = .ok h)
    (blacklist : Std.ExtTreeSet Frequency) (slot : UInt8) (frame : UInt32) (hopIndex : UInt8) :
    ∃ freq, { h with blacklist }.getHopFrequency (cipherCalls E) slot frame hopIndex =
        .ok freq ∧
      Selected E slot frame hopIndex minFreq maxFreq channelSpacing h blacklist freq := by
  have hband := band_of_new hnew
  obtain ⟨freq, hfreq, hpicked⟩ :=
    getHopFrequency_picked E slot frame hopIndex { h with blacklist }
  obtain ⟨attempt, -, rfl, -, -⟩ := id hpicked
  have hlt := channelOf_lt E slot frame hopIndex hband.numChannels_pos attempt
  have hvalue := hband.toNat_frequencyOf E slot frame hopIndex attempt
  have hle := hband.channel_le hlt
  refine ⟨_, hfreq, hpicked, ⟨_, hlt, hvalue⟩, ?_, ?_,
    hband.unwrapped E slot frame hopIndex, ?_, ?_⟩
  · exact UInt64.le_iff_toNat_le.mpr (hvalue ▸ Nat.le_add_right _ _)
  · exact hvalue ▸ hle
  · exact fun hmem => hpicked.all_listed hmem
  · intro hfree
    obtain ⟨-, -, -, -, rfl⟩ := new_eq_ok hnew
    rw [getHopFrequency_of_empty rfl, hpicked.unique (picked_zero hfree)]
    exact candidate_eq E slot frame hopIndex _ 0

theorem getHopFrequency_selected_uhf :
    ∃ h freq, new (List.replicate 32 0x42) 225000000 512000000 25000 = .ok h ∧
      { h with blacklist := (∅ : Std.ExtTreeSet Frequency).insert 225000000 }.getHopFrequency
          (cipherCalls fun _ block => block) 0 0 0 = .ok freq ∧
        Selected (fun _ block => block) 0 0 0 225000000 512000000 25000 h
          ((∅ : Std.ExtTreeSet Frequency).insert 225000000) freq := by
  have hnew : new (List.replicate 32 0x42) 225000000 512000000 25000 =
      .ok ⟨List.replicate 32 0x42, 225000000, 512000000, 25000, 11480, ∅⟩ := rfl
  obtain ⟨freq, hfreq, hselected⟩ := getHopFrequency_selected (fun _ block => block) hnew
    ((∅ : Std.ExtTreeSet Frequency).insert 225000000) 0 0 0
  exact ⟨_, freq, hnew, hfreq, hselected⟩

end HopSequencer
end Cirradio.Fhss
