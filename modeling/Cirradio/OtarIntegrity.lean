import Cirradio.OtarRekeying

/-!
# Rekeying against an adversary on the air

The adversary delivers any OTAR message whose blobs were sent before, or do not unwrap.
Nothing binds the two blobs and the epoch of a message together, so a message accepted
need not be one that was sent; each of its blobs is.
-/

namespace Cirradio.Security
open CallRuns KeyManager

universe u v

/-- The slot that a blob of a message was wrapped from, and the blob. -/
inductive OtarMessage.Carries (msg : OtarMessage) : KeySlot → Bytes → Prop where
  | tek : msg.Carries .tek msg.wrappedTek
  | fhek : msg.Carries .fhek msg.wrappedFhek

variable {σ : Type u} {ι : Type v} [DecidableEq ι]

/-- A blob that some message sent before the position carries. -/
def OnAir (E : IHsmEngine σ) (net : ι → KeyManager σ) (calls : List (ι × Op)) (i : ℕ)
    (blob : Bytes) : Prop :=
  ∃ j < i, ∃ a msg slot, Sent E net calls j a msg ∧ msg.Carries slot blob

/-- Every message processed is made of blobs that were on the air and of bytes that do
not unwrap under the KEK, with any epoch. -/
def Adversarial (E : IHsmEngine σ) (K : KeyObjects E) (net : ι → KeyManager σ)
    (calls : List (ι × Op)) (kek : Bytes) : Prop :=
  ∀ i b msg, calls[i]? = some (b, .processOtarMessage msg) → ∀ slot blob,
    msg.Carries slot blob → K.unwrap kek blob = none ∨ OnAir E net calls i blob

/-- Every accepted message is, as a whole, one that was sent before. -/
def OtarIntegrity (E : IHsmEngine σ) (K : KeyObjects E) (ι : Type v) [DecidableEq ι] : Prop :=
  ∀ (net : ι → KeyManager σ) (calls : List (ι × Op)) (kek : Bytes),
    (∀ a, Reachable E (net a)) → SharedKek E K net calls kek →
    Adversarial E K net calls kek →
    ∀ i b msg, Accepted E net calls i b msg → ∃ j < i, ∃ a, Sent E net calls j a msg

/-- The same message with its two blobs swapped. -/
def swappedMessage : OtarMessage :=
  ⟨1, sampleMessage.wrappedFhek, sampleMessage.wrappedTek⟩

/-- The sender sends its message and the receiver gets it with the blobs swapped. -/
def swappedRun : List (Bool × Op) :=
  [(false, .generateOtarMessage), (true, .processOtarMessage swappedMessage)]

theorem swappedRun_sharedKek : SharedKek tableHsm tableKeys (sampleNet false) swappedRun sampleKek where
  start := sampleNet_kek false
  kept c hc := by
    simp only [swappedRun, List.mem_cons, List.not_mem_nil, or_false] at hc
    rcases hc with rfl | rfl <;> simp [Op.SharesKek]

theorem swappedRun_sent : Sent tableHsm (sampleNet false) swappedRun 0 false sampleMessage :=
  ⟨rfl, by decide⟩

theorem swappedRun_accepted : Accepted tableHsm (sampleNet false) swappedRun 1 true swappedMessage :=
  ⟨rfl, by decide⟩

theorem swappedRun_adversarial :
    Adversarial tableHsm tableKeys (sampleNet false) swappedRun sampleKek := by
  intro i b msg hc slot blob hcarries
  match i with
  | 0 => cases hc
  | 1 =>
    cases hc
    cases hcarries with
    | tek => exact .inr ⟨0, Nat.one_pos, false, sampleMessage, .fhek, swappedRun_sent, .fhek⟩
    | fhek => exact .inr ⟨0, Nat.one_pos, false, sampleMessage, .tek, swappedRun_sent, .tek⟩
  | i + 2 => cases hc

/-- The receiver accepts the message with the blobs swapped, so the sender's FHEK becomes
its TEK. -/
theorem not_otarIntegrity : ¬ OtarIntegrity tableHsm tableKeys Bool := by
  intro h
  obtain ⟨j, hj, a, hsent⟩ := h (sampleNet false) swappedRun sampleKek (sampleNet_reachable false)
    swappedRun_sharedKek swappedRun_adversarial 1 true swappedMessage swappedRun_accepted
  cases Nat.lt_one_iff.mp hj
  have hreply := hsent.2.symm.trans swappedRun_sent.2
  exact absurd hreply (by decide)

variable {E : IHsmEngine σ} {K : KeyObjects E} {net : ι → KeyManager σ}
  {calls : List (ι × Op)} {kek : Bytes}

/-- A blob on the air unwraps to the key its sender held in the slot it was wrapped from. -/
theorem OnAir.unwrap (hK : K.Unwraps) (howns : ∀ a, Owns K (net a))
    (hkek : SharedKek E K net calls kek) {i : ℕ} {blob : Bytes}
    (h : OnAir E net calls i blob) :
    ∃ j < i, ∃ a msg slot v, Sent E net calls j a msg ∧ msg.Carries slot blob ∧
      (material K (managerAt E net calls j a)).key slot = some v ∧
      K.unwrap kek blob = some v := by
  obtain ⟨j, hj, a, msg, slot, hsent, hcarries⟩ := h
  obtain ⟨tek, fhek, htek, hfhek, hmsg⟩ := hsent.material_eq howns hkek
  refine ⟨j, hj, a, msg, slot, ?_⟩
  subst hmsg
  cases hcarries with
  | tek => exact ⟨tek, hsent, .tek, htek, hK.unwrap_wrap _ _⟩
  | fhek => exact ⟨fhek, hsent, .fhek, hfhek, hK.unwrap_wrap _ _⟩

/-- What an adversary cannot change: an accepted message is newer than every message the
manager accepted before, and each of its blobs comes from a message sent before and
installs the key that its sender held when it sent it. -/
theorem accepted_blobs_sent (E : IHsmEngine σ) (K : KeyObjects E) (hK : K.Unwraps)
    (net : ι → KeyManager σ) (calls : List (ι × Op)) (kek : Bytes)
    (hreach : ∀ a, Reachable E (net a)) (hkek : SharedKek E K net calls kek)
    (hadv : Adversarial E K net calls kek) (i : ℕ) (b : ι) (msg : OtarMessage)
    (hacc : Accepted E net calls i b msg) :
    (managerAt E net calls i b).keyEpoch < msg.keyEpoch ∧
      (managerAt E net calls (i + 1) b).keyEpoch = msg.keyEpoch ∧
      ∀ slot blob, msg.Carries slot blob →
        ∃ j < i, ∃ a sent slot' v, Sent E net calls j a sent ∧ sent.Carries slot' blob ∧
          (material K (managerAt E net calls j a)).key slot' = some v ∧
          (material K (managerAt E net calls (i + 1) b)).key slot = some v := by
  have howns : ∀ a, Owns K (net a) := fun a => (hreach a).owns K
  obtain ⟨k, tek, fhek, hk, hlt, htek, hfhek, htek', hfhek', hepoch⟩ :=
    (moves_at howns hacc.1 hacc.2).processed_true
  cases hkek.eq howns hk
  refine ⟨hlt, hepoch, fun slot blob hcarries => ?_⟩
  -- the key that the blob unwraps to is the one installed in its slot
  obtain ⟨v, hv, hinstalled⟩ : ∃ v, K.unwrap kek blob = some v ∧
      (material K (managerAt E net calls (i + 1) b)).key slot = some v := by
    cases hcarries with
    | tek => exact ⟨tek, htek, htek'⟩
    | fhek => exact ⟨fhek, hfhek, hfhek'⟩
  rcases hadv i b msg hacc.1 slot blob hcarries with hnone | honair
  · cases hnone.symm.trans hv
  · obtain ⟨j, hj, a, sent, slot', v', hsent, hcarries', hheld, hunwrap⟩ :=
      honair.unwrap hK howns hkek
    cases hunwrap.symm.trans hv
    exact ⟨j, hj, a, sent, slot', v, hsent, hcarries', hheld, hinstalled⟩

theorem swappedMessage_blobs_sent :
    (managerAt tableHsm (sampleNet false) swappedRun 1 true).keyEpoch < swappedMessage.keyEpoch ∧
      (managerAt tableHsm (sampleNet false) swappedRun 2 true).keyEpoch = swappedMessage.keyEpoch ∧
      ∀ slot blob, swappedMessage.Carries slot blob →
        ∃ j < 1, ∃ a sent slot' v, Sent tableHsm (sampleNet false) swappedRun j a sent ∧
          sent.Carries slot' blob ∧
          (material tableKeys (managerAt tableHsm (sampleNet false) swappedRun j a)).key slot' =
            some v ∧
          (material tableKeys (managerAt tableHsm (sampleNet false) swappedRun 2 true)).key slot =
            some v :=
  accepted_blobs_sent tableHsm tableKeys tableKeys_unwraps (sampleNet false) swappedRun sampleKek
    (sampleNet_reachable false) swappedRun_sharedKek swappedRun_adversarial 1 true swappedMessage
    swappedRun_accepted

end Cirradio.Security
