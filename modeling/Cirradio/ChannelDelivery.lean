import Cirradio.CallRuns
import Cirradio.SimChannel
import Mathlib.Data.List.Nodup

/-!
# Delivery on the simulated channel

What a radio has received on a frequency since it registered, followed by what still waits
for it, is what the others have sent on it. This rests on the ids: the counter of them wraps
around, and a radio that gets the id of another one empties its queues and doubles what it
hears.
-/

namespace Cirradio.Hal
open Fhss OrderedMaps CallRuns

namespace SimChannel
variable {S : Type}

inductive Call (S : Type) where
  | register
  | unregister (radioId : UInt32)
  | setPartition (active : Bool)
  | transmit (senderId : UInt32) (freq : Frequency) (samples : List S)
  | receive (radioId : UInt32) (freq : Frequency) (maxSamples : ℕ)
  deriving DecidableEq, Repr

inductive Reply (S : Type) where
  | none
  | radioId (id : UInt32)
  | samples (samples : List S)
  deriving DecidableEq, Repr

def step (c : SimChannel S) : Call S → SimChannel S × Reply S
  | .register => (c.registerRadio.1, .radioId c.registerRadio.2)
  | .unregister radioId => (c.unregisterRadio radioId, .none)
  | .setPartition active => (c.setPartitionActive active, .none)
  | .transmit senderId freq samples => (c.transmit senderId freq samples, .none)
  | .receive radioId freq maxSamples =>
    ((c.receive radioId freq maxSamples).1, .samples (c.receive radioId freq maxSamples).2)

section Radio
variable (radioId : UInt32) (freq : Frequency)

/-- What a call gives the radio at the frequency. -/
def got (call : Call S) (reply : Reply S) : List S :=
  match call, reply with
  | .receive id freq' _, .samples samples => if id = radioId ∧ freq' = freq then samples else []
  | _, _ => []

/-- What the radio receives at the frequency, all in all. -/
def received : SimChannel S → List (Call S) → List S
  | _, [] => []
  | c, call :: calls => got radioId freq call (step c call).2 ++ received (step c call).1 calls

/-- What the others send at the frequency with the transmissions that are kept, counted from
a number on. -/
def sent (keep : ℕ → Bool) : ℕ → List (Call S) → List S
  | _, [] => []
  | n, .transmit senderId freq' samples :: calls =>
    (if keep n = true ∧ senderId ≠ radioId ∧ freq' = freq then samples else []) ++
      sent keep (n + 1) calls
  | n, _ :: calls => sent keep n calls

/-- From here on the radio gets exactly what the others send at the frequency with the
transmissions that are kept. -/
def GetsSent (keep : ℕ → Bool) (c : SimChannel S) (calls : List (Call S)) : Prop :=
  received radioId freq c calls ++ (after step c calls).buffered radioId freq =
    c.buffered radioId freq ++ sent radioId freq keep 1 calls

end Radio

/-- The radio stays, and nobody switches the partition. -/
def Steady (radioId : UInt32) (calls : List (Call S)) : Prop :=
  .unregister radioId ∉ calls ∧ ∀ active, .setPartition active ∉ calls

/-- Without a partition every transmission is delivered once to every radio since it
registered, and of the transmissions in a partition those at odd positions are. -/
structure ExactlyOnce (calls : List (Call S)) : Prop where
  all : ∀ before later rest, calls = before ++ .register :: later ++ rest →
    (after step new before).partitionActive = false →
    Steady (after step new before).nextId later → ∀ freq,
      (step (after step new before) .register).1.buffered (after step new before).nextId freq =
        [] ∧
      GetsSent (after step new before).nextId freq (fun _ => true)
        (step (after step new before) .register).1 later
  odd : ∀ before later rest, calls = before ++ .setPartition true :: later ++ rest →
    ∀ radioId ∈ (after step new before).registeredRadios, Steady radioId later → ∀ freq,
      GetsSent radioId freq (fun n => n % 2 == 1)
        (step (after step new before) (.setPartition true)).1 later

/-- A registration gives an id that is free. -/
def FreshId (c : SimChannel S) (call : Call S) : Prop :=
  call = .register → c.nextId ∉ c.registeredRadios

theorem count_registerRadio {c : SimChannel S} {id : UInt32} (hne : c.nextId ≠ id) :
    c.registerRadio.1.registeredRadios.count id = c.registeredRadios.count id := by
  have hlast : [c.nextId].count id = 0 := by
    rw [List.count_singleton, beq_eq_false_iff_ne.mpr hne, if_neg Bool.false_ne_true]
  change (c.registeredRadios ++ [c.nextId]).count id = _
  rw [List.count_append, hlast, Nat.add_zero]

theorem count_registerRadio_self {c : SimChannel S} (hfresh : c.nextId ∉ c.registeredRadios) :
    c.registerRadio.1.registeredRadios.count c.nextId = 1 := by
  change (c.registeredRadios ++ [c.nextId]).count c.nextId = 1
  rw [List.count_append, List.count_eq_zero.mpr hfresh, List.count_singleton_self]

theorem buffered_registerRadio {c : SimChannel S} {id : UInt32} (hne : c.nextId ≠ id)
    (freq : Frequency) : c.registerRadio.1.buffered id freq = c.buffered id freq := by
  unfold buffered registerRadio
  rw [getD_insert_ite, if_neg fun h => hne h.symm]

theorem buffered_registerRadio_self (c : SimChannel S) (freq : Frequency) :
    c.registerRadio.1.buffered c.nextId freq = [] := by
  unfold buffered registerRadio
  rw [getD_insert_ite, if_pos rfl, getD_empty]

theorem count_unregisterRadio {c : SimChannel S} {radioId id : UInt32} (hne : id ≠ radioId) :
    (c.unregisterRadio radioId).registeredRadios.count id = c.registeredRadios.count id :=
  List.count_filter (bne_iff_ne.mpr hne)

theorem buffered_unregisterRadio {c : SimChannel S} {radioId id : UInt32} (hne : id ≠ radioId)
    (freq : Frequency) :
    (c.unregisterRadio radioId).buffered id freq = c.buffered id freq := by
  have hqueues : (c.rxBuffers.erase radioId).getD id ∅ = c.rxBuffers.getD id ∅ := by
    rw [Std.ExtTreeMap.getD_eq_getD_getElem?, getElem?_erase_ite, if_neg hne,
      Std.ExtTreeMap.getD_eq_getD_getElem?]
  exact congrArg (fun queues => queues.getD freq []) hqueues

theorem receive_transmitCount (c : SimChannel S) (radioId : UInt32) (freq : Frequency)
    (n : ℕ) : (c.receive radioId freq n).1.transmitCount = c.transmitCount := by
  unfold receive
  split
  · rfl
  · split <;> rfl

theorem transmit_transmitCount (c : SimChannel S) (senderId : UInt32) (freq : Frequency)
    (samples : List S) : (c.transmit senderId freq samples).transmitCount =
      if c.partitionActive then c.transmitCount + 1 else c.transmitCount := by
  have hcount : c.countTransmission.transmitCount =
      if c.partitionActive then c.transmitCount + 1 else c.transmitCount := by
    unfold countTransmission
    split <;> rfl
  unfold transmit
  simp only
  split <;> exact hcount

theorem toNat_add_one_mod_two (x : UInt32) : (x + 1).toNat % 2 = (x.toNat + 1) % 2 := by
  rw [UInt32.toNat_add, UInt32.toNat_one]
  exact Nat.mod_mod_of_dvd _ (by decide)

theorem drops_of_partition {c : SimChannel S} (h : c.partitionActive = true) :
    c.drops = ((c.transmitCount.toNat + 1) % 2 == 0) := by
  have hmod : ((c.transmitCount + 1) % 2 == 0) = ((c.transmitCount.toNat + 1) % 2 == 0) := by
    rw [← toNat_add_one_mod_two, Bool.eq_iff_iff, beq_iff_eq, beq_iff_eq,
      ← UInt32.toNat_inj, UInt32.toNat_mod]
    rfl
  unfold drops countTransmission
  rw [if_pos h]
  simp only [h, Bool.true_and]
  exact hmod

/-- Which transmissions are kept with the partition off or on. -/
def keeps (active : Bool) (n : ℕ) : Bool := !active || n % 2 == 1

/-- A radio is registered once, and the next transmission is at a position since the
partition was switched. -/
structure Listens (radioId : UInt32) (active : Bool) (n : ℕ) (c : SimChannel S) : Prop where
  once : c.registeredRadios.count radioId = 1
  partition : c.partitionActive = active
  position : active = true → (c.transmitCount.toNat + 1) % 2 = n % 2

namespace Listens
variable {radioId : UInt32} {active : Bool} {n : ℕ} {c : SimChannel S}

theorem mem (h : c.Listens radioId active n) : radioId ∈ c.registeredRadios :=
  List.count_pos_iff.mp (h.once ▸ Nat.one_pos)

theorem drops_eq (h : c.Listens radioId active n) : c.drops = !keeps active n := by
  cases hactive : active with
  | false => exact drops_of_not_partition (h.partition.trans hactive)
  | true =>
    rw [drops_of_partition (h.partition.trans hactive), h.position hactive, keeps]
    rcases Nat.mod_two_eq_zero_or_one n with hn | hn <;> rw [hn] <;> rfl

theorem registerRadio (h : c.Listens radioId active n) (hne : c.nextId ≠ radioId) :
    c.registerRadio.1.Listens radioId active n :=
  ⟨(count_registerRadio hne).trans h.once, h.partition, h.position⟩

theorem unregisterRadio (h : c.Listens radioId active n) {id : UInt32} (hne : radioId ≠ id) :
    (c.unregisterRadio id).Listens radioId active n :=
  ⟨(count_unregisterRadio hne).trans h.once, h.partition, h.position⟩

theorem receive (h : c.Listens radioId active n) (id : UInt32) (freq : Frequency)
    (maxSamples : ℕ) : (c.receive id freq maxSamples).1.Listens radioId active n where
  once := by rw [receive_registeredRadios, h.once]
  partition := by rw [receive_partitionActive, h.partition]
  position := by rw [receive_transmitCount]; exact h.position

theorem transmit (h : c.Listens radioId active n) (senderId : UInt32) (freq : Frequency)
    (samples : List S) : (c.transmit senderId freq samples).Listens radioId active (n + 1) where
  once := by rw [transmit_registeredRadios, h.once]
  partition := by rw [transmit_partitionActive, h.partition]
  position := by
    intro hactive
    have hbefore := h.position hactive
    have hflip := toNat_add_one_mod_two c.transmitCount
    rw [transmit_transmitCount, if_pos (h.partition.trans hactive)]
    omega

end Listens

section Radio
variable {radioId : UInt32} {active : Bool}

theorem got_receive (c : SimChannel S) (freq : Frequency) (id : UInt32) (freq' : Frequency)
    (maxSamples : ℕ) :
    got radioId freq (.receive id freq' maxSamples) (step c (.receive id freq' maxSamples)).2 ++
      (c.receive id freq' maxSamples).1.buffered radioId freq = c.buffered radioId freq := by
  change (if id = radioId ∧ freq' = freq then (c.receive id freq' maxSamples).2 else []) ++ _ = _
  by_cases hid : id = radioId
  · subst hid
    rw [buffered_receive]
    by_cases hfreq : freq' = freq
    · subst hfreq
      rw [if_pos ⟨rfl, rfl⟩, if_pos rfl, receive_snd, List.take_append_drop]
    · rw [if_neg fun h => hfreq h.2, if_neg fun h => hfreq h.symm, List.nil_append]
  · rw [if_neg fun h => hid h.1, buffered_receive_of_ne c fun h => hid h.symm, List.nil_append]

theorem Listens.buffered_transmit {n : ℕ} {c : SimChannel S} (h : c.Listens radioId active n)
    (freq : Frequency) (senderId : UInt32) (freq' : Frequency) (samples : List S) :
    (c.transmit senderId freq' samples).buffered radioId freq = c.buffered radioId freq ++
      if keeps active n = true ∧ senderId ≠ radioId ∧ freq' = freq then samples else [] := by
  by_cases hsender : senderId = radioId
  · subst hsender
    rw [buffered_transmit_self, if_neg fun hall => hall.2.1 rfl, List.append_nil]
  · rw [SimChannel.buffered_transmit c (fun heq => hsender heq.symm) h.once, h.drops_eq]
    refine congrArg (_ ++ ·) (if_congr ?_ rfl rfl)
    rw [Bool.not_eq_false', @eq_comm _ freq, and_iff_right hsender]

/-- Along a run in which every id is fresh, a radio that stays gets what is sent. -/
theorem received_append_buffered (freq : Frequency) :
    ∀ (calls : List (Call S)) (n : ℕ) (c : SimChannel S), c.Listens radioId active n →
      Steady radioId calls → EveryCall step c FreshId calls →
      received radioId freq c calls ++ (after step c calls).buffered radioId freq =
        c.buffered radioId freq ++ sent radioId freq (keeps active) n calls := by
  intro calls
  induction calls with
  | nil => intro n c _ _ _; exact (List.append_nil _).symm
  | cons call calls ih =>
    intro n c hlistens hsteady hfresh
    rw [everyCall_cons] at hfresh
    have hsteady' : Steady radioId calls :=
      ⟨fun hmem => hsteady.1 (.tail _ hmem), fun a hmem => hsteady.2 a (.tail _ hmem)⟩
    rw [received, after_cons, List.append_assoc]
    cases call with
    | register =>
      have hne : c.nextId ≠ radioId := fun heq => hfresh.1 rfl (heq ▸ hlistens.mem)
      refine (ih n _ (hlistens.registerRadio hne) hsteady' hfresh.2).trans ?_
      exact congrArg (· ++ _) (buffered_registerRadio hne freq)
    | unregister id =>
      have hne : radioId ≠ id := fun heq => hsteady.1 (heq ▸ .head _)
      refine (ih n _ (hlistens.unregisterRadio hne) hsteady' hfresh.2).trans ?_
      exact congrArg (· ++ _) (buffered_unregisterRadio hne freq)
    | setPartition active => exact absurd (.head _) (hsteady.2 active)
    | transmit senderId freq' samples =>
      refine (ih (n + 1) _ (hlistens.transmit senderId freq' samples) hsteady' hfresh.2).trans ?_
      rw [hlistens.buffered_transmit, List.append_assoc, sent]
    | receive id freq' maxSamples =>
      have htail := ih n _ (hlistens.receive id freq' maxSamples) hsteady' hfresh.2
      refine (congrArg (got radioId freq _ _ ++ ·) htail).trans ?_
      rw [← List.append_assoc, got_receive]
      rfl

end Radio

theorem receive_nextId (c : SimChannel S) (radioId : UInt32) (freq : Frequency) (n : ℕ) :
    (c.receive radioId freq n).1.nextId = c.nextId := by
  unfold receive
  split
  · rfl
  · split <;> rfl

theorem transmit_nextId (c : SimChannel S) (senderId : UInt32) (freq : Frequency)
    (samples : List S) : (c.transmit senderId freq samples).nextId = c.nextId := by
  have hcount : c.countTransmission.nextId = c.nextId := by
    unfold countTransmission
    split <;> rfl
  unfold transmit
  simp only
  split <;> exact hcount

/-- Where every id is fresh, no radio is registered twice. -/
theorem nodup_registeredRadios (calls : List (Call S)) (hfresh : EveryCall step new FreshId calls) :
    (after step new calls).registeredRadios.Nodup := by
  induction calls using List.reverseRecOn with
  | nil => exact List.nodup_nil
  | append_singleton calls call ih =>
    rw [everyCall_concat] at hfresh
    have hbefore := ih hfresh.1
    rw [after_concat]
    cases call with
    | register =>
      change ((after step new calls).registeredRadios ++ [(after step new calls).nextId]).Nodup
      rw [List.nodup_append_comm]
      exact List.nodup_cons.mpr ⟨hfresh.2 rfl, hbefore⟩
    | unregister id => exact hbefore.filter _
    | setPartition active => exact hbefore
    | transmit senderId freq samples =>
      change ((after step new calls).transmit senderId freq samples).registeredRadios.Nodup
      rw [transmit_registeredRadios]
      exact hbefore
    | receive id freq maxSamples =>
      change ((after step new calls).receive id freq maxSamples).1.registeredRadios.Nodup
      rw [receive_registeredRadios]
      exact hbefore

/-- The counter hands out an id a second time only after all of them. -/
theorem freshId_of_count_le (calls : List (Call S))
    (hcount : calls.countP (fun call => call matches .register) ≤ 2 ^ 32) :
    EveryCall step new FreshId calls := by
  suffices h : EveryCall step new FreshId calls ∧
      ((after step new calls).nextId =
        .ofNat (calls.countP (fun call => call matches .register) + 1) ∧
      ∀ id ∈ (after step new calls).registeredRadios,
        ∃ k, 1 ≤ k ∧ k ≤ calls.countP (fun call => call matches .register) ∧ id = .ofNat k)
    from h.1
  induction calls using List.reverseRecOn with
  | nil => exact ⟨everyCall_nil step new FreshId, rfl, fun id hid => absurd hid List.not_mem_nil⟩
  | append_singleton calls call ih =>
    rw [List.countP_append, List.countP_singleton] at hcount ⊢
    obtain ⟨hfresh, hnext, hids⟩ := ih (by omega)
    rw [everyCall_concat, after_concat]
    cases call with
    | register =>
      have hlt : calls.countP (fun call => call matches .register) + 1 ≤ 2 ^ 32 := hcount
      refine ⟨⟨hfresh, fun _ hmem => ?_⟩, ?_, fun id hid => ?_⟩
      · obtain ⟨k, hpos, hle, hk⟩ := hids _ hmem
        have hmod := congrArg UInt32.toNat (hnext.symm.trans hk)
        rw [UInt32.toNat_ofNat', UInt32.toNat_ofNat', Nat.mod_eq_of_lt (by omega : k < _)] at hmod
        omega
      · change (after step new calls).nextId + 1 = _
        rw [hnext]
        exact (UInt32.ofNat_add _ 1).symm
      · rcases List.mem_append.mp hid with hold | hnew
        · obtain ⟨k, hpos, hle, hk⟩ := hids id hold
          exact ⟨k, hpos, Nat.le_add_right_of_le hle, hk⟩
        · exact ⟨_, Nat.le_add_left 1 _, le_rfl, (List.mem_singleton.mp hnew).trans hnext⟩
    | unregister id =>
      exact ⟨⟨hfresh, nofun⟩, hnext, fun id' hid => hids id' (List.mem_of_mem_filter hid)⟩
    | setPartition active => exact ⟨⟨hfresh, nofun⟩, hnext, hids⟩
    | transmit senderId freq samples =>
      refine ⟨⟨hfresh, nofun⟩, (transmit_nextId ..).trans hnext, fun id hid => ?_⟩
      exact hids id (transmit_registeredRadios _ senderId freq samples ▸ hid)
    | receive radioId freq maxSamples =>
      refine ⟨⟨hfresh, nofun⟩, (receive_nextId ..).trans hnext, fun id hid => ?_⟩
      exact hids id (receive_registeredRadios _ radioId freq maxSamples ▸ hid)

theorem exactlyOnce_of_freshId (calls : List (Call S))
    (hfresh : EveryCall step new FreshId calls) : ExactlyOnce calls where
  all before later rest heq hoff hsteady freq := by
    subst heq
    rw [everyCall_append, everyCall_append, everyCall_cons] at hfresh
    obtain ⟨⟨-, hregister, hlater⟩, -⟩ := hfresh
    refine ⟨buffered_registerRadio_self _ freq, ?_⟩
    have hlistens : (after step new before).registerRadio.1.Listens
        (after step new before).nextId false 1 :=
      ⟨count_registerRadio_self (hregister rfl), hoff, fun h => absurd h Bool.false_ne_true⟩
    exact received_append_buffered freq later 1 _ hlistens hsteady hlater
  odd before later rest heq radioId hmem hsteady freq := by
    subst heq
    rw [everyCall_append, everyCall_append, everyCall_cons] at hfresh
    obtain ⟨⟨hbefore, -, hlater⟩, -⟩ := hfresh
    have hnodup := nodup_registeredRadios before hbefore
    have hlistens : ((after step new before).setPartitionActive true).Listens radioId true 1 :=
      ⟨List.count_eq_one_of_mem hnodup hmem, rfl, fun _ => rfl⟩
    exact received_append_buffered freq later 1 _ hlistens hsteady hlater

/-- Two radios, of which one sends and the other one takes the samples one by one. -/
def shortRun : List (Call Int) :=
  [.register, .register, .transmit 2 225000000 [5, 6], .receive 1 225000000 1,
    .receive 1 225000000 4]

theorem exactlyOnce_shortRun : EveryCall step new FreshId shortRun ∧ ExactlyOnce shortRun :=
  have hfresh := freshId_of_count_le shortRun (by decide)
  ⟨hfresh, exactlyOnce_of_freshId shortRun hfresh⟩

/-- Radios that come and go behind the first two of them. -/
def visitors (n : ℕ) : List (Call Int) :=
  (List.range n).flatMap fun i => [.register, .unregister (.ofNat (3 + i))]

theorem after_visitors (n : ℕ) (hn : n ≤ 2 ^ 32 - 2) :
    (after step new (.register :: .register :: visitors n)).registeredRadios = [1, 2] ∧
    (after step new (.register :: .register :: visitors n)).nextId = .ofNat (3 + n) ∧
    (after step new (.register :: .register :: visitors n)).partitionActive = false := by
  induction n with
  | zero => exact ⟨rfl, rfl, rfl⟩
  | succ n ih =>
    obtain ⟨hradios, hnext, hoff⟩ := ih (by omega)
    have hsplit : (.register :: .register :: visitors (n + 1) : List (Call Int)) =
        (.register :: .register :: visitors n) ++
          [.register, .unregister (.ofNat (3 + n))] := by
      simp [visitors, List.range_succ]
    have hne : ∀ id ∈ [(1 : UInt32), 2], id ≠ .ofNat (3 + n) := by
      intro id hid heq
      have hmod := congrArg UInt32.toNat heq
      rw [UInt32.toNat_ofNat'] at hmod
      have hsmall : id.toNat = 1 ∨ id.toNat = 2 := by
        rcases List.mem_pair.mp hid with rfl | rfl
        · exact .inl rfl
        · exact .inr rfl
      omega
    rw [hsplit, after_append]
    refine ⟨?_, ?_, hoff⟩
    · change (_ ++ [_]).filter _ = _
      rw [hradios, hnext, List.filter_append]
      have hold : [(1 : UInt32), 2].filter (fun id => id != .ofNat (3 + n)) = [1, 2] :=
        List.filter_eq_self.mpr fun id hid => bne_iff_ne.mpr (hne id hid)
      have hnew : [UInt32.ofNat (3 + n)].filter (fun id => id != .ofNat (3 + n)) = [] := by
        simp
      rw [hold, hnew, List.append_nil]
    · change (after step new _).nextId + 1 = _
      rw [hnext]
      exact (UInt32.ofNat_add _ 1).symm

/-- A radio that gets the id of a radio that stays hears everything twice. -/
theorem not_getsSent_of_taken {c : SimChannel Int} (hradios : c.registeredRadios = [1, 2])
    (hnext : c.nextId = 1) (hoff : c.partitionActive = false) :
    ¬GetsSent 1 225000000 (fun _ => true) (step c .register).1
      [.transmit 2 225000000 [5]] := by
  intro hgets
  have hempty : c.registerRadio.1.buffered 1 225000000 = [] :=
    hnext ▸ c.buffered_registerRadio_self 225000000
  have hcount : c.registerRadio.1.registeredRadios.count 1 = 2 := by
    change (c.registeredRadios ++ [c.nextId]).count 1 = 2
    rw [hradios, hnext]
    rfl
  have htwice : (c.registerRadio.1.transmit 2 225000000 [5]).buffered 1 225000000 = [5, 5] := by
    rw [buffered_transmit_of_ne _ (by decide), hempty, hcount,
      if_pos ⟨drops_of_not_partition hoff, rfl⟩]
    rfl
  have honce : ([] ++ [] ++ (c.registerRadio.1.transmit 2 225000000 [5]).buffered 1 225000000) =
      c.registerRadio.1.buffered 1 225000000 ++ [5] := hgets
  rw [htwice, hempty] at honce
  exact absurd honce (by decide)

/-- After all ids have been handed out, the first one is handed out again. -/
def wrappingRun : List (Call Int) :=
  (.register :: .register :: visitors (2 ^ 32 - 2)) ++
    .register :: [.transmit 2 225000000 [5]] ++ []

theorem not_exactlyOnce : ¬ExactlyOnce wrappingRun := by
  intro h
  obtain ⟨hradios, hnext, hoff⟩ := after_visitors (2 ^ 32 - 2) le_rfl
  have hid : (after step new (.register :: .register :: visitors (2 ^ 32 - 2))).nextId = 1 :=
    hnext
  have hall := h.all _ _ _ rfl hoff (by rw [hid]; simp [Steady]) 225000000
  rw [hid] at hall
  exact not_getsSent_of_taken hradios hid hoff hall.2

end SimChannel
end Cirradio.Hal
