import Cirradio.CallRuns
import Cirradio.KeyMaterial
import Mathlib.Algebra.Group.Nat.Defs

/-!
# Rekeying a net over the air

Key managers run side by side, each on its own engine, and exchange OTAR messages.
A run is the list of operations they perform; a message is on the air from the call
that generated it.
-/

namespace Cirradio.Security
open CallRuns KeyManager

universe u v

namespace KeyManager.Op

/-- An operation that leaves the KEK as it is, sets it again or erases it. -/
def SharesKek (kek : Bytes) (op : Op) : Prop :=
  op ≠ .initializeKek ∧ ∀ k, op = .setKekRaw k → k = kek

/-- The operations of a node that only rekeys others. -/
def Rekeys : Op → Prop
  | .generateTek | .generateFhek | .rotateTek | .generateOtarMessage => True
  | _ => False

/-- The call incremented the epoch counter. -/
def increments : Op → Reply → Bool
  | .rotateTek, .done => true
  | _, .message _ => true
  | _, _ => false

theorem SharesKek.generates_ne {kek : Bytes} {op : Op} (h : op.SharesKek kek) :
    op.generates ≠ some .kek := by
  cases op with
  | initializeKek => exact absurd rfl h.1
  | _ => simp [generates]

theorem SharesKek.imports {kek v : Bytes} {op : Op} (h : op.SharesKek kek)
    (himp : op.imports = some (.kek, v)) : v = kek := by
  cases op with
  | setKekRaw k =>
    obtain ⟨-, rfl⟩ := Prod.mk.inj (Option.some.inj himp)
    exact h.2 _ rfl
  | _ => cases himp

end KeyManager.Op

namespace KeyMaterial
variable {wrap : Bytes → Bytes → Bytes} {unwrap : Bytes → Bytes → Option Bytes}
  {s s' : KeyMaterial} {op : Op} {r : Reply}

@[simp] theorem install_epoch (s : KeyMaterial) (slot : KeySlot) (v : Bytes) :
    (s.install slot v).epoch = s.epoch := rfl

theorem Moves.kek {kek : Bytes} (h : s.Moves wrap unwrap op s' r) (hop : op.SharesKek kek) :
    s'.key .kek = s.key .kek ∨ s'.key .kek = some kek ∨ op = .zeroize ∧ s'.key .kek = none := by
  cases h with
  | threw e hne => exact .inl rfl
  | generated v hgen =>
    rename_i slot
    have hne : KeySlot.kek ≠ slot := fun he => hop.generates_ne (he ▸ hgen)
    exact .inl (Function.update_of_ne hne _ _)
  | imported himp =>
    rename_i slot v
    by_cases hslot : KeySlot.kek = slot
    · subst hslot
      refine .inr (.inl ?_)
      rw [← hop.imports himp]
      exact Function.update_self KeySlot.kek _ s.key
    · exact .inl (Function.update_of_ne hslot _ _)
  | rotated v => exact .inl rfl
  | wrapped hkek htek hfhek => exact .inl rfl
  | accepted hkek hlt htek hfhek => exact .inl rfl
  | rejected => exact .inl rfl
  | zeroized => exact .inr (.inr ⟨rfl, rfl⟩)

theorem Moves.message {msg : OtarMessage} (h : s.Moves wrap unwrap op s' (.message msg)) :
    ∃ kek tek fhek, s.key .kek = some kek ∧ s.key .tek = some tek ∧
      s.key .fhek = some fhek ∧ msg = ⟨s.epoch + 1, wrap kek tek, wrap kek fhek⟩ := by
  cases h with
  | wrapped hkek htek hfhek => exact ⟨_, _, _, hkek, htek, hfhek, rfl⟩

/-- The epoch of a node that only rekeys counts its increments. -/
theorem Moves.epoch (h : s.Moves wrap unwrap op s' r) (hop : op.Rekeys) :
    s'.epoch.toNat = (s.epoch.toNat + (op.increments r).toNat) % 2 ^ 32 := by
  cases h with
  | threw e hne => cases op <;> simp [Op.increments]
  | generated v hgen =>
    cases op with
    | rotateTek => cases hgen
    | _ => simp [Op.increments]
  | imported himp =>
    cases op with
    | rotateTek => cases himp
    | _ => simp [Op.increments]
  | rotated v => simp [Op.increments, UInt32.toNat_add]
  | wrapped hkek htek hfhek => simp [Op.increments, UInt32.toNat_add]
  | accepted hkek hlt htek hfhek => exact hop.elim
  | rejected => exact hop.elim
  | zeroized => exact hop.elim

theorem Moves.processed_true {msg : OtarMessage}
    (h : s.Moves wrap unwrap (.processOtarMessage msg) s' (.processed true)) :
    ∃ kek tek fhek, s.key .kek = some kek ∧ s.epoch < msg.keyEpoch ∧
      unwrap kek msg.wrappedTek = some tek ∧ unwrap kek msg.wrappedFhek = some fhek ∧
      s'.key .tek = some tek ∧ s'.key .fhek = some fhek ∧ s'.epoch = msg.keyEpoch := by
  cases h with
  | accepted hkek hlt htek hfhek => exact ⟨_, _, _, hkek, hlt, htek, hfhek, rfl, rfl, rfl⟩

theorem Moves.increments_process {msg : OtarMessage}
    (h : s.Moves wrap unwrap (.processOtarMessage msg) s' r) :
    (Op.processOtarMessage msg).increments r = false := by
  cases h with
  | generated v hgen => cases hgen
  | _ => rfl

theorem Moves.not_processed {msg : OtarMessage}
    (h : s.Moves wrap unwrap (.processOtarMessage msg) s' r) (hr : r ≠ .processed true) :
    s' = s := by
  cases h with
  | threw e hne => rfl
  | generated v hgen => cases hgen
  | imported himp => cases himp
  | accepted hkek hlt htek hfhek => exact absurd rfl hr
  | rejected => rfl

end KeyMaterial

variable {σ : Type u} {ι : Type v} [DecidableEq ι] {E : IHsmEngine σ}

/-- A manager that operations have made from a new one. -/
def KeyManager.Reachable (E : IHsmEngine σ) (m : KeyManager σ) : Prop :=
  ∃ hsm ops, m = after (KeyManager.step E) (new hsm) ops

theorem KeyManager.Reachable.owns {m : KeyManager σ} (K : KeyObjects E)
    (h : Reachable E m) : Owns K m := by
  obtain ⟨hsm, ops, rfl⟩ := h
  exact invariant_after _ _ (Owns K) (owns_new hsm) (fun m op hm => (step_moves hm op).1) ops

section Nets
variable (E) (K : KeyObjects E) (net : ι → KeyManager σ) (calls : List (ι × Op))

/-- One operation of one manager of the net. -/
abbrev netStep : (ι → KeyManager σ) → ι × Op → (ι → KeyManager σ) × Reply :=
  parallel (KeyManager.step E)

/-- A manager just before the call at a position. -/
abbrev managerAt (i : ℕ) (a : ι) : KeyManager σ := after (netStep E) net (calls.take i) a

/-- The call at a position generated the message. -/
def Sent (i : ℕ) (a : ι) (msg : OtarMessage) : Prop :=
  calls[i]? = some (a, .generateOtarMessage) ∧
    reply (netStep E) net calls i = some (.message msg)

/-- The call at a position processed the message, and returned true. -/
def Accepted (i : ℕ) (b : ι) (msg : OtarMessage) : Prop :=
  calls[i]? = some (b, .processOtarMessage msg) ∧
    reply (netStep E) net calls i = some (.processed true)

/-- Every manager starts with the KEK, and no operation replaces it by another. -/
structure SharedKek (kek : Bytes) : Prop where
  start : ∀ a, (material K (net a)).key .kek = some kek
  kept : ∀ c ∈ calls, c.2.SharesKek kek

end Nets

variable {K : KeyObjects E} {net : ι → KeyManager σ} {calls : List (ι × Op)} {kek : Bytes}

theorem owns_after (howns : ∀ a, Owns K (net a)) (calls : List (ι × Op)) (a : ι) :
    Owns K (after (netStep E) net calls a) :=
  invariant_after_parallel (Owns K) (fun _ op hm => (step_moves hm op).1) howns calls a

/-- A property of key material that the moves of the operations performed keep. -/
theorem material_after (P : KeyMaterial → Prop) (allowed : Op → Prop)
    (next : ∀ s op s' r, allowed op → P s → s.Moves K.wrap K.unwrap op s' r → P s')
    (howns : ∀ a, Owns K (net a)) (start : ∀ a, P (material K (net a)))
    (hcalls : ∀ c ∈ calls, allowed c.2) (a : ι) :
    P (material K (after (netStep E) net calls a)) := by
  induction calls using List.reverseRecOn generalizing a with
  | nil => exact start a
  | append_singleton calls c ih =>
    have ih := fun a => ih (fun c' hc' => hcalls c' (List.mem_append_left _ hc')) a
    obtain ⟨b, op⟩ := c
    rw [after_concat]
    by_cases hab : a = b
    · subst hab
      rw [parallel_self]
      have hop : allowed op := hcalls (a, op) (by simp)
      exact next _ _ _ _ hop (ih a) (step_moves (owns_after howns calls a) op).2
    · rw [parallel_of_ne _ _ hab]
      exact ih a

/-- The reply to a call of a run, as a move of the key material of the manager called. -/
theorem moves_at (howns : ∀ a, Owns K (net a)) {i : ℕ} {a : ι} {op : Op} {r : Reply}
    (hc : calls[i]? = some (a, op)) (hr : reply (netStep E) net calls i = some r) :
    (material K (managerAt E net calls i a)).Moves K.wrap K.unwrap op
      (material K (managerAt E net calls (i + 1) a)) r := by
  obtain ⟨c, hc', hreply⟩ := reply_eq_some.mp hr
  cases hc.symm.trans hc'
  have hmoves := (step_moves (owns_after howns (calls.take i) a) op).2
  have hnext : managerAt E net calls (i + 1) a =
      (KeyManager.step E (managerAt E net calls i a) op).1 := by
    simp only [managerAt]
    rw [after_take_succ _ _ hc, parallel_self]
  rw [parallel_reply] at hreply
  rw [hnext, ← hreply]
  exact hmoves

theorem SharedKek.after (howns : ∀ a, Owns K (net a)) (h : SharedKek E K net calls kek)
    (a : ι) :
    (material K (after (netStep E) net calls a)).key .kek = some kek ∨
      (material K (after (netStep E) net calls a)).key .kek = none := by
  refine material_after (fun s => s.key .kek = some kek ∨ s.key .kek = none)
    (Op.SharesKek kek) ?_ howns (fun a => .inl (h.start a)) h.kept a
  intro s op s' r hop hs hmoves
  rcases hmoves.kek hop with hsame | hagain | ⟨-, hnone⟩
  · rw [hsame]
    exact hs
  · exact .inl hagain
  · exact .inr hnone

omit [DecidableEq ι] in
theorem SharedKek.take (h : SharedKek E K net calls kek) (i : ℕ) :
    SharedKek E K net (calls.take i) kek :=
  ⟨h.start, fun c hc => h.kept c (List.mem_of_mem_take hc)⟩

theorem SharedKek.eq (howns : ∀ a, Owns K (net a)) (h : SharedKek E K net calls kek)
    {i : ℕ} {a : ι} {k : Bytes} (hk : (material K (managerAt E net calls i a)).key .kek = some k) :
    k = kek := by
  rcases (h.take i).after howns a with hsome | hnone
  · exact Option.some.inj (hk.symm.trans hsome)
  · cases hk.symm.trans hnone

theorem Sent.material_eq (howns : ∀ a, Owns K (net a)) (hkek : SharedKek E K net calls kek)
    {i : ℕ} {a : ι} {msg : OtarMessage} (h : Sent E net calls i a msg) :
    ∃ tek fhek, (material K (managerAt E net calls i a)).key .tek = some tek ∧
      (material K (managerAt E net calls i a)).key .fhek = some fhek ∧
      msg = ⟨(managerAt E net calls i a).keyEpoch + 1, K.wrap kek tek, K.wrap kek fhek⟩ := by
  obtain ⟨k, tek, fhek, hk, ht, hf, hmsg⟩ := (moves_at howns h.1 h.2).message
  cases hkek.eq howns hk
  exact ⟨tek, fhek, ht, hf, hmsg⟩

def sampleKek : Bytes := List.replicate 32 0x42

/-- A sender with all three keys, and receivers with the KEK alone. -/
def sampleNet (sender a : ι) : KeyManager (List (Option Bytes)) :=
  after (KeyManager.step tableHsm) (new [])
    (if a = sender then [.setKekRaw sampleKek, .generateTek, .generateFhek]
      else [.setKekRaw sampleKek])

/-- The first message of the sender of `sampleNet`. -/
def sampleMessage : OtarMessage :=
  ⟨1, sampleKek ++ List.replicate 32 1, sampleKek ++ List.replicate 32 2⟩

theorem sampleNet_reachable (sender a : ι) : Reachable tableHsm (sampleNet sender a) :=
  ⟨_, _, rfl⟩

theorem sampleNet_kek (sender a : ι) :
    (material tableKeys (sampleNet sender a)).key .kek = some sampleKek := by
  unfold sampleNet
  split_ifs <;> rfl

end Cirradio.Security
