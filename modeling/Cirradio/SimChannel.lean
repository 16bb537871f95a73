import Cirradio.HopSequencer
import Cirradio.OrderedMaps

/-!
# The simulated channel

For each radio and frequency the channel keeps a queue of the samples that other radios
have sent. A radio hardware layer sends and receives at the frequency it is tuned to.
-/

namespace Cirradio.Hal
open Fhss OrderedMaps

/-- Complex samples as far as bytes are concerned: the sample of a byte, and the real
part of a sample rounded to an integer. -/
structure SampleFormat (S : Type) where
  ofByte : UInt8 → S
  roundReal : S → Int
  roundReal_ofByte : ∀ b, roundReal (ofByte b) = b.toNat

structure SimChannel (S : Type) where
  nextId : UInt32
  partitionActive : Bool
  transmitCount : UInt32
  rxBuffers : Std.ExtTreeMap UInt32 (Std.ExtTreeMap Frequency (List S))
  registeredRadios : List UInt32

namespace SimChannel
variable {S : Type}

def new : SimChannel S := ⟨1, false, 0, ∅, []⟩

def registerRadio (c : SimChannel S) : SimChannel S × UInt32 :=
  ({ c with
      nextId := c.nextId + 1
      registeredRadios := c.registeredRadios ++ [c.nextId]
      rxBuffers := c.rxBuffers.insert c.nextId ∅ }, c.nextId)

def unregisterRadio (c : SimChannel S) (radioId : UInt32) : SimChannel S :=
  { c with
    registeredRadios := c.registeredRadios.filter fun id => id != radioId
    rxBuffers := c.rxBuffers.erase radioId }

def setPartitionActive (c : SimChannel S) (active : Bool) : SimChannel S :=
  { c with partitionActive := active, transmitCount := 0 }

/-- Samples go to the end of one queue. -/
def enqueue (freq : Frequency) (samples : List S)
    (rxBuffers : Std.ExtTreeMap UInt32 (Std.ExtTreeMap Frequency (List S)))
    (radioId : UInt32) : Std.ExtTreeMap UInt32 (Std.ExtTreeMap Frequency (List S)) :=
  let buffers := rxBuffers.getD radioId ∅
  rxBuffers.insert radioId (buffers.insert freq (buffers.getD freq [] ++ samples))

/-- Transmissions are counted in a partition. -/
def countTransmission (c : SimChannel S) : SimChannel S :=
  if c.partitionActive then { c with transmitCount := c.transmitCount + 1 } else c

/-- In a partition every other transmission is dropped. -/
def transmit (c : SimChannel S) (senderId : UInt32) (freq : Frequency) (samples : List S) :
    SimChannel S :=
  let c := c.countTransmission
  if c.partitionActive && c.transmitCount % 2 == 0 then c
  else
    { c with
      rxBuffers := c.registeredRadios.foldl
        (fun rxBuffers id => if id = senderId then rxBuffers else enqueue freq samples rxBuffers id)
        c.rxBuffers }

def receive (c : SimChannel S) (radioId : UInt32) (freq : Frequency) (maxSamples : ℕ) :
    SimChannel S × List S :=
  match c.rxBuffers[radioId]? with
  | none => (c, [])
  | some buffers =>
    match buffers[freq]? with
    | none => (c, [])
    | some buffer =>
      let count := min maxSamples buffer.length
      ({ c with rxBuffers := c.rxBuffers.insert radioId (buffers.insert freq (buffer.drop count)) },
        buffer.take count)

/-- The samples that wait for a radio at a frequency. -/
def buffered (c : SimChannel S) (radioId : UInt32) (freq : Frequency) : List S :=
  (c.rxBuffers.getD radioId ∅).getD freq []

theorem buffered_transmit_self (c : SimChannel S) (radioId : UInt32) (freq freq' : Frequency)
    (samples : List S) :
    (c.transmit radioId freq samples).buffered radioId freq' = c.buffered radioId freq' := by
  have hfold : ∀ (ids : List UInt32)
      (rxBuffers : Std.ExtTreeMap UInt32 (Std.ExtTreeMap Frequency (List S))),
      (ids.foldl (fun rxBuffers id =>
        if id = radioId then rxBuffers else enqueue freq samples rxBuffers id)
        rxBuffers).getD radioId ∅ = rxBuffers.getD radioId ∅ := by
    intro ids
    induction ids with
    | nil => intro rxBuffers; rfl
    | cons id ids ih =>
      intro rxBuffers
      rw [List.foldl_cons, ih]
      by_cases hid : id = radioId
      · rw [if_pos hid]
      · rw [if_neg hid, enqueue, getD_insert_ite, if_neg fun h => hid h.symm]
  have hcount : c.countTransmission.rxBuffers = c.rxBuffers := by
    unfold countTransmission
    split <;> rfl
  unfold transmit buffered
  simp only
  split
  · rw [hcount]
  · rw [hfold, hcount]

/-- The partition drops the next transmission. -/
def drops (c : SimChannel S) : Bool :=
  c.countTransmission.partitionActive && c.countTransmission.transmitCount % 2 == 0

theorem countTransmission_rxBuffers (c : SimChannel S) :
    c.countTransmission.rxBuffers = c.rxBuffers := by
  unfold countTransmission
  split <;> rfl

theorem countTransmission_registeredRadios (c : SimChannel S) :
    c.countTransmission.registeredRadios = c.registeredRadios := by
  unfold countTransmission
  split <;> rfl

theorem drops_of_not_partition {c : SimChannel S} (h : c.partitionActive = false) :
    c.drops = false := by
  unfold drops countTransmission
  rw [h, if_neg Bool.false_ne_true, h, Bool.false_and]

/-- Each registration of a radio other than the sender gets the samples once. -/
theorem getD_foldl_enqueue (senderId : UInt32) {id : UInt32} (hne : id ≠ senderId)
    (freq freq' : Frequency) (samples : List S) (ids : List UInt32)
    (rxBuffers : Std.ExtTreeMap UInt32 (Std.ExtTreeMap Frequency (List S))) :
    ((ids.foldl (fun rxBuffers id =>
      if id = senderId then rxBuffers else enqueue freq samples rxBuffers id)
      rxBuffers).getD id ∅).getD freq' [] =
      (rxBuffers.getD id ∅).getD freq' [] ++
        if freq' = freq then (List.replicate (ids.count id) samples).flatten else [] := by
  induction ids generalizing rxBuffers with
  | nil => simp
  | cons first ids ih =>
    rw [List.foldl_cons, ih, List.count_cons]
    by_cases hfirst : first = id
    · subst hfirst
      rw [if_neg hne, enqueue, getD_insert_ite, if_pos rfl, getD_insert_ite, beq_self_eq_true,
        if_pos rfl]
      by_cases hfreq : freq' = freq
      · rw [if_pos hfreq, if_pos hfreq, if_pos hfreq, List.replicate_succ, List.flatten_cons,
          List.append_assoc, hfreq]
      · simp only [if_neg hfreq]
    · have hcount : (if (first == id) = true then 1 else 0) = 0 := by
        rw [beq_eq_false_iff_ne.mpr hfirst, if_neg Bool.false_ne_true]
      rw [hcount, Nat.add_zero]
      by_cases hsender : first = senderId
      · rw [if_pos hsender]
      · rw [if_neg hsender, enqueue, getD_insert_ite, if_neg fun h => hfirst h.symm]

/-- A radio gets what another radio sends as often as it is registered. -/
theorem buffered_transmit_of_ne (c : SimChannel S) {senderId id : UInt32} (hne : id ≠ senderId)
    (freq freq' : Frequency) (samples : List S) :
    (c.transmit senderId freq samples).buffered id freq' =
      c.buffered id freq' ++ if c.drops = false ∧ freq' = freq then
        (List.replicate (c.registeredRadios.count id) samples).flatten else [] := by
  unfold transmit
  by_cases hdrops : c.drops = true
  · have hdrop : (c.countTransmission.partitionActive &&
        c.countTransmission.transmitCount % 2 == 0) = true := hdrops
    simp only [hdrop, if_true]
    simp [buffered, countTransmission_rxBuffers, hdrops]
  · have hpass : (c.countTransmission.partitionActive &&
        c.countTransmission.transmitCount % 2 == 0) = false := Bool.eq_false_iff.mpr hdrops
    simp only [hpass, Bool.false_eq_true, if_false]
    rw [buffered, getD_foldl_enqueue senderId hne, countTransmission_rxBuffers,
      countTransmission_registeredRadios]
    congr 1
    simp [Bool.eq_false_iff.mpr hdrops]

theorem buffered_transmit (c : SimChannel S) {senderId id : UInt32} (hne : id ≠ senderId)
    (hid : c.registeredRadios.count id = 1) (freq freq' : Frequency) (samples : List S) :
    (c.transmit senderId freq samples).buffered id freq' =
      c.buffered id freq' ++ if c.drops = false ∧ freq' = freq then samples else [] := by
  rw [c.buffered_transmit_of_ne hne, hid, List.replicate_one, List.flatten_singleton]

theorem transmit_registeredRadios (c : SimChannel S) (senderId : UInt32) (freq : Frequency)
    (samples : List S) : (c.transmit senderId freq samples).registeredRadios =
      c.registeredRadios := by
  unfold transmit
  simp only
  split <;> exact countTransmission_registeredRadios c

theorem transmit_partitionActive (c : SimChannel S) (senderId : UInt32) (freq : Frequency)
    (samples : List S) : (c.transmit senderId freq samples).partitionActive =
      c.partitionActive := by
  have hcount : c.countTransmission.partitionActive = c.partitionActive := by
    unfold countTransmission
    split <;> rfl
  unfold transmit
  simp only
  split <;> exact hcount

theorem receive_snd (c : SimChannel S) (radioId : UInt32) (freq : Frequency) (n : ℕ) :
    (c.receive radioId freq n).2 = (c.buffered radioId freq).take n := by
  unfold receive buffered
  cases hradio : c.rxBuffers[radioId]? with
  | none => rw [getD_of_none hradio, getD_empty, List.take_nil]
  | some buffers =>
    rw [getD_of_some hradio]
    cases hfreq : buffers[freq]? with
    | none => simp [hfreq, getD_of_none hfreq]
    | some buffer =>
      rw [getD_of_some hfreq]
      simp only [hfreq]
      exact List.take_eq_take_iff.mpr (by simp)

/-- What was read is gone, and the other queues are as they were. -/
theorem buffered_receive (c : SimChannel S) (radioId : UInt32) (freq freq' : Frequency)
    (n : ℕ) :
    (c.receive radioId freq n).1.buffered radioId freq' =
      if freq' = freq then (c.buffered radioId freq).drop n else c.buffered radioId freq' := by
  have hnothing : c.buffered radioId freq = [] → c.buffered radioId freq' =
      if freq' = freq then (c.buffered radioId freq).drop n else c.buffered radioId freq' := by
    intro hempty
    split
    · next heq => rw [heq, hempty, List.drop_nil]
    · rfl
  unfold receive
  cases hradio : c.rxBuffers[radioId]? with
  | none => exact hnothing (by rw [buffered, getD_of_none hradio, getD_empty])
  | some buffers =>
    cases hfreq : buffers[freq]? with
    | none =>
      simp only [hfreq]
      exact hnothing (by rw [buffered, getD_of_some hradio, getD_of_none hfreq])
    | some buffer =>
      have hdrop : buffer.drop (min n buffer.length) = buffer.drop n := by
        rcases Nat.le_total n buffer.length with hle | hle
        · rw [Nat.min_eq_left hle]
        · rw [Nat.min_eq_right hle, List.drop_length, List.drop_eq_nil_of_le hle]
      simp only [hfreq, buffered, getD_insert_ite, getD_of_some hradio, getD_of_some hfreq,
        hdrop, if_true]

theorem buffered_receive_of_ne (c : SimChannel S) {radioId id : UInt32} (hne : id ≠ radioId)
    (freq freq' : Frequency) (n : ℕ) :
    (c.receive radioId freq n).1.buffered id freq' = c.buffered id freq' := by
  unfold receive
  cases c.rxBuffers[radioId]? with
  | none => rfl
  | some buffers =>
    cases hfreq : buffers[freq]? with
    | none => simp only [hfreq]
    | some buffer => simp only [hfreq, buffered, getD_insert_ite, if_neg hne]

theorem receive_registeredRadios (c : SimChannel S) (radioId : UInt32) (freq : Frequency)
    (n : ℕ) : (c.receive radioId freq n).1.registeredRadios = c.registeredRadios := by
  unfold receive
  split
  · rfl
  · split <;> rfl

theorem receive_partitionActive (c : SimChannel S) (radioId : UInt32) (freq : Frequency)
    (n : ℕ) : (c.receive radioId freq n).1.partitionActive = c.partitionActive := by
  unfold receive
  split
  · rfl
  · split <;> rfl

end SimChannel

/-- dBm. -/
abbrev PowerLevel := Int

structure RadioConfig where
  centerFreq : Frequency
  sampleRate : UInt32
  bandwidth : UInt32
  txPower : PowerLevel
  deriving DecidableEq, Repr

structure SimRadioHal where
  radioId : UInt32
  config : RadioConfig
  txEnabled : Bool
  deriving DecidableEq, Repr

namespace SimRadioHal
variable {S : Type}

def new (c : SimChannel S) : SimChannel S × SimRadioHal :=
  (c.registerRadio.1, ⟨c.registerRadio.2, ⟨0, 0, 0, 0⟩, false⟩)

def configure (r : SimRadioHal) (config : RadioConfig) : SimRadioHal := { r with config }

def tune (r : SimRadioHal) (freq : Frequency) : SimRadioHal :=
  { r with config := { r.config with centerFreq := freq } }

def setTxEnabled (r : SimRadioHal) (enabled : Bool) : SimRadioHal :=
  { r with txEnabled := enabled }

/-- With the transmitter disabled nothing is sent. -/
def transmit (r : SimRadioHal) (c : SimChannel S) (samples : List S) : SimChannel S × Bool :=
  if r.txEnabled then (c.transmit r.radioId r.config.centerFreq samples, true) else (c, false)

def receive (r : SimRadioHal) (c : SimChannel S) (size : ℕ) : SimChannel S × List S :=
  c.receive r.radioId r.config.centerFreq size

theorem buffered_transmit (r : SimRadioHal) (c : SimChannel S) (samples : List S)
    (freq : Frequency) :
    (r.transmit c samples).1.buffered r.radioId freq = c.buffered r.radioId freq := by
  unfold transmit
  split
  · exact c.buffered_transmit_self r.radioId r.config.centerFreq freq samples
  · rfl

end SimRadioHal
end Cirradio.Hal
