import Cirradio.ByteWords
import Cirradio.HsmEngine

/-!
# The hop sequencer

A hop frequency is picked by encrypting slot, frame, hop index and attempt number under
the hop key. A blacklisted pick is repeated with the next attempt number.
-/

namespace Cirradio.Fhss
open Security ByteWords

/-- Hz. -/
abbrev Frequency := UInt64

abbrev AesBlock := Vector UInt8 16

/-- The AES-256-ECB call sequence on one block: key and block. -/
abbrev AesEcb := Bytes → AesBlock → Throws AesBlock

def kMaxBlacklistAttempts : ℕ := 10

structure HopSequencer where
  fhek : Bytes
  minFreq : Frequency
  maxFreq : Frequency
  channelSpacing : Frequency
  numChannels : UInt64
  blacklist : Std.ExtTreeSet Frequency

namespace HopSequencer

def new (fhek : Bytes) (minFreq maxFreq channelSpacing : Frequency) : Throws HopSequencer :=
  if fhek.length ≠ 32 then .error "FHEK must be 32 bytes"
  else if maxFreq ≤ minFreq then .error "min_freq must be less than max_freq"
  else if channelSpacing = 0 then .error "channel_spacing must be non-zero"
  else
    let numChannels := (maxFreq - minFreq) / channelSpacing
    if numChannels = 0 then .error "Band too narrow for given channel spacing"
    else .ok ⟨fhek, minFreq, maxFreq, channelSpacing, numChannels, ∅⟩

/-- The block encrypted: slot, frame with its low byte first, hop index and attempt. -/
def inputBlock (slot : UInt8) (frame : UInt32) (hopIndex attempt : UInt8) : AesBlock :=
  #v[slot, 0, 0, 0, frame.toUInt8, (frame >>> 8).toUInt8, (frame >>> 16).toUInt8,
    (frame >>> 24).toUInt8, hopIndex, 0, 0, 0, 0, 0, 0, attempt]

/-- The first eight bytes of the output, low byte first. -/
def rawValue (output : AesBlock) : UInt64 :=
  UInt64.ofNat (littleEndian (output.toList.take 8))

def computeChannelIndex (aes : AesEcb) (h : HopSequencer) (slot : UInt8) (frame : UInt32)
    (hopIndex attempt : UInt8) : Throws UInt64 := do
  let output ← aes h.fhek (inputBlock slot frame hopIndex attempt)
  return rawValue output % h.numChannels

/-- The candidate of an attempt. -/
def candidate (aes : AesEcb) (h : HopSequencer) (slot : UInt8) (frame : UInt32)
    (hopIndex attempt : UInt8) : Throws Frequency := do
  let channelIdx ← h.computeChannelIndex aes slot frame hopIndex attempt
  return h.minFreq + channelIdx * h.channelSpacing

/-- The loop over the attempts left, from the given one. -/
def rehash (aes : AesEcb) (h : HopSequencer) (slot : UInt8) (frame : UInt32)
    (hopIndex : UInt8) : (left : ℕ) → (attempt : ℕ) → Frequency → Throws Frequency
  | 0, _, freq => .ok freq
  | left + 1, attempt, freq =>
    if !h.blacklist.contains freq then .ok freq
    else do
      let freq ← h.candidate aes slot frame hopIndex (UInt8.ofNat attempt)
      rehash aes h slot frame hopIndex left (attempt + 1) freq

def getHopFrequency (aes : AesEcb) (h : HopSequencer) (slot : UInt8) (frame : UInt32)
    (hopIndex : UInt8) : Throws Frequency := do
  let freq ← h.candidate aes slot frame hopIndex 0
  if h.blacklist.isEmpty then return freq
  rehash aes h slot frame hopIndex kMaxBlacklistAttempts 1 freq

theorem getHopFrequency_of_empty {aes : AesEcb} {h : HopSequencer} (hempty : h.blacklist = ∅)
    (slot : UInt8) (frame : UInt32) (hopIndex : UInt8) :
    h.getHopFrequency aes slot frame hopIndex = h.candidate aes slot frame hopIndex 0 := by
  unfold getHopFrequency
  cases h.candidate aes slot frame hopIndex 0 with
  | error what => rfl
  | ok freq => simp [hempty, bind, Except.bind, pure, Except.pure]

theorem new_eq_ok {fhek : Bytes} {minFreq maxFreq channelSpacing : Frequency}
    {h : HopSequencer} (hnew : new fhek minFreq maxFreq channelSpacing = .ok h) :
    fhek.length = 32 ∧ minFreq < maxFreq ∧ channelSpacing ≠ 0 ∧
      (maxFreq - minFreq) / channelSpacing ≠ 0 ∧
      h = ⟨fhek, minFreq, maxFreq, channelSpacing, (maxFreq - minFreq) / channelSpacing, ∅⟩ := by
  unfold new at hnew
  split at hnew
  · cases hnew
  · next hkey =>
    split at hnew
    · cases hnew
    · next hband =>
      split at hnew
      · cases hnew
      · next hspacing =>
        simp only at hnew
        split at hnew
        · cases hnew
        · next hchannels =>
          cases hnew
          exact ⟨not_not.mp hkey, UInt64.not_le.mp hband, hspacing, hchannels, rfl⟩

theorem new_fhek {fhek : Bytes} {minFreq maxFreq channelSpacing : Frequency} {h : HopSequencer}
    (hnew : new fhek minFreq maxFreq channelSpacing = .ok h) : h.fhek.length = 32 := by
  obtain ⟨hkey, -, -, -, rfl⟩ := new_eq_ok hnew
  exact hkey

section Returns
variable {aes : AesEcb} {h : HopSequencer}

theorem exists_candidate (haes : ∀ block, ∃ output, aes h.fhek block = .ok output)
    (slot : UInt8) (frame : UInt32) (hopIndex attempt : UInt8) :
    ∃ freq, h.candidate aes slot frame hopIndex attempt = .ok freq := by
  obtain ⟨output, houtput⟩ := haes (inputBlock slot frame hopIndex attempt)
  refine ⟨h.minFreq + rawValue output % h.numChannels * h.channelSpacing, ?_⟩
  simp only [candidate, computeChannelIndex, houtput]
  rfl

theorem exists_rehash (haes : ∀ block, ∃ output, aes h.fhek block = .ok output)
    (slot : UInt8) (frame : UInt32) (hopIndex : UInt8) (left attempt : ℕ) (freq : Frequency) :
    ∃ freq', h.rehash aes slot frame hopIndex left attempt freq = .ok freq' := by
  induction left generalizing attempt freq with
  | zero => exact ⟨freq, rfl⟩
  | succ left ih =>
    unfold rehash
    split
    · exact ⟨freq, rfl⟩
    · obtain ⟨next, hnext⟩ := exists_candidate haes slot frame hopIndex (UInt8.ofNat attempt)
      obtain ⟨freq', hfreq'⟩ := ih (attempt + 1) next
      rw [hnext]
      exact ⟨freq', hfreq'⟩

theorem exists_getHopFrequency (haes : ∀ block, ∃ output, aes h.fhek block = .ok output)
    (slot : UInt8) (frame : UInt32) (hopIndex : UInt8) :
    ∃ freq, h.getHopFrequency aes slot frame hopIndex = .ok freq := by
  obtain ⟨first, hfirst⟩ := exists_candidate haes slot frame hopIndex 0
  obtain ⟨freq, hfreq⟩ := exists_rehash haes slot frame hopIndex kMaxBlacklistAttempts 1 first
  simp only [getHopFrequency, hfirst, bind, Except.bind]
  split
  · exact ⟨first, rfl⟩
  · exact ⟨freq, hfreq⟩

end Returns

end HopSequencer
end Cirradio.Fhss
