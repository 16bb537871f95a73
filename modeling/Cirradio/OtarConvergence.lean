import Cirradio.OtarRekeying

/-!
# Rekeying between honest managers

One manager generates keys and messages, the others process its messages in any order,
with loss and duplication. A receiver ends with the keys of the newest message it got.
-/

namespace Cirradio.Security
open CallRuns KeyManager

universe u v
variable {σ : Type u} {ι : Type v} [DecidableEq ι]

/-- The messages a manager was handed, in the order it processed them. -/
def deliveries (calls : List (ι × Op)) (r : ι) : List OtarMessage :=
  calls.filterMap fun c =>
    match c with
    | (a, .processOtarMessage msg) => if a = r then some msg else none
    | _ => none

/-- The newest epoch of a list of messages, zero if there is none. -/
def maxEpoch (msgs : List OtarMessage) : ℕ :=
  (msgs.map fun msg => msg.keyEpoch.toNat).foldl max 0

/-- The sender only rekeys, and the others only process messages it has sent. -/
def HonestRun (E : IHsmEngine σ) (net : ι → KeyManager σ) (sender : ι)
    (calls : List (ι × Op)) : Prop :=
  ∀ i a op, calls[i]? = some (a, op) →
    (a = sender ∧ op.Rekeys) ∨
    (a ≠ sender ∧ ∃ msg, op = .processOtarMessage msg ∧ ∃ j < i, Sent E net calls j sender msg)

/-- How often the epoch counter of the sender was incremented. -/
def epochIncrements (E : IHsmEngine σ) (net : ι → KeyManager σ) (calls : List (ι × Op)) : ℕ :=
  countReplies (netStep E) (fun c r => c.2.increments r) net calls

theorem deliveries_concat (calls : List (ι × Op)) (c : ι × Op) (r : ι) :
    deliveries (calls ++ [c]) r = deliveries calls r ++ deliveries [c] r := by
  simp [deliveries]

theorem deliveries_singleton (c : ι × Op) (r : ι) :
    deliveries [c] r = [] ∨ ∃ msg, deliveries [c] r = [msg] := by
  obtain ⟨a, op⟩ := c
  cases op with
  | processOtarMessage msg =>
    by_cases har : a = r
    · exact .inr ⟨msg, by simp [deliveries, har]⟩
    · exact .inl (by simp [deliveries, har])
  | _ => exact .inl rfl

theorem maxEpoch_concat (msgs : List OtarMessage) (msg : OtarMessage) :
    maxEpoch (msgs ++ [msg]) = max (maxEpoch msgs) msg.keyEpoch.toNat := by
  simp [maxEpoch]

variable {E : IHsmEngine σ} {K : KeyObjects E} {net : ι → KeyManager σ} {sender : ι}
  {calls : List (ι × Op)} {kek : Bytes}

theorem Sent.append {more : List (ι × Op)} {i : ℕ} {a : ι} {msg : OtarMessage}
    (hi : i < calls.length) :
    Sent E net (calls ++ more) i a msg ↔ Sent E net calls i a msg := by
  simp only [Sent, List.getElem?_append_left hi, reply_append hi]

theorem Sent.lt_length {i : ℕ} {a : ι} {msg : OtarMessage} (h : Sent E net calls i a msg) :
    i < calls.length := (List.getElem?_eq_some_iff.mp h.1).1

theorem HonestRun.of_append {more : List (ι × Op)}
    (h : HonestRun E net sender (calls ++ more)) : HonestRun E net sender calls := by
  intro i a op hc
  have hi : i < calls.length := (List.getElem?_eq_some_iff.mp hc).1
  rcases h i a op (by rw [List.getElem?_append_left hi, hc])
    with hs | ⟨hne, msg, hop, j, hj, hsent⟩
  · exact .inl hs
  · exact .inr ⟨hne, msg, hop, j, hj, (Sent.append (Nat.lt_trans hj hi)).mp hsent⟩

theorem HonestRun.take (h : HonestRun E net sender calls) (i : ℕ) :
    HonestRun E net sender (calls.take i) := by
  rw [← List.take_append_drop i calls] at h
  exact h.of_append

theorem HonestRun.keepsKek (kek : Bytes) (h : HonestRun E net sender calls) :
    ∀ c ∈ calls, c.2.SharesKek kek ∧ c.2 ≠ .zeroize := by
  rintro ⟨a, op⟩ hc
  obtain ⟨i, hi⟩ := List.mem_iff_getElem?.mp hc
  rcases h i a op hi with ⟨-, hop⟩ | ⟨-, msg, rfl, -⟩
  · cases op with
    | generateTek | generateFhek | rotateTek | generateOtarMessage => simp [Op.SharesKek]
    | _ => exact hop.elim
  · simp [Op.SharesKek]

theorem HonestRun.kek_after (howns : ∀ a, Owns K (net a))
    (hkek : ∀ a, (material K (net a)).key .kek = some kek)
    (h : HonestRun E net sender calls) (a : ι) :
    (material K (after (netStep E) net calls a)).key .kek = some kek := by
  refine material_after (fun s => s.key .kek = some kek)
    (fun op => op.SharesKek kek ∧ op ≠ .zeroize) ?_ howns hkek (h.keepsKek kek) a
  intro s op s' r hop hs hmoves
  rcases hmoves.kek hop.1 with hsame | hagain | ⟨hz, -⟩
  · rw [hsame]
    exact hs
  · exact hagain
  · exact absurd hz hop.2

theorem HonestRun.sharedKek (hkek : ∀ a, (material K (net a)).key .kek = some kek)
    (h : HonestRun E net sender calls) : SharedKek E K net calls kek :=
  ⟨hkek, fun c hc => (h.keepsKek kek c hc).1⟩

/-- The epoch of the sender counts its increments. -/
theorem HonestRun.sender_epoch (howns : ∀ a, Owns K (net a))
    (h : HonestRun E net sender calls) :
    (after (netStep E) net calls sender).keyEpoch.toNat =
      ((net sender).keyEpoch.toNat + epochIncrements E net calls) % 2 ^ 32 := by
  induction calls using List.reverseRecOn with
  | nil => simp [epochIncrements, countReplies, Nat.mod_eq_of_lt (UInt32.toNat_lt _)]
  | append_singleton calls c ih =>
    have ih := ih h.of_append
    obtain ⟨a, op⟩ := c
    rw [after_concat, epochIncrements, countReplies_concat]
    rcases h calls.length a op (by simp) with ⟨rfl, hop⟩ | ⟨hne, msg, rfl, -⟩
    · have hmoves := (step_moves (owns_after howns calls a) op).2
      have hepoch := hmoves.epoch hop
      rw [parallel_self]
      refine hepoch.trans ?_
      have ih' : (material K (after (netStep E) net calls a)).epoch.toNat = _ := ih
      rw [ih', epochIncrements, parallel_reply, Nat.mod_add_mod, Nat.add_assoc]
    · have hmoves := (step_moves (owns_after howns calls a) (.processOtarMessage msg)).2
      rw [parallel_of_ne _ _ (Ne.symm hne), ih, parallel_reply, hmoves.increments_process]
      rfl

/-- The epoch of a message is one more than the increments before it. -/
theorem Sent.epoch (howns : ∀ a, Owns K (net a))
    (hkek : ∀ a, (material K (net a)).key .kek = some kek)
    (h : HonestRun E net sender calls)
    (hbound : (net sender).keyEpoch.toNat + epochIncrements E net calls < 2 ^ 32)
    {i : ℕ} {msg : OtarMessage} (hsent : Sent E net calls i sender msg) :
    msg.keyEpoch.toNat =
        (net sender).keyEpoch.toNat + epochIncrements E net (calls.take (i + 1)) ∧
      epochIncrements E net (calls.take (i + 1)) = epochIncrements E net (calls.take i) + 1 := by
  obtain ⟨tek, fhek, -, -, rfl⟩ := hsent.material_eq howns (h.sharedKek hkek)
  obtain ⟨c, hc, hreply⟩ := reply_eq_some.mp hsent.2
  have hsucc : epochIncrements E net (calls.take (i + 1)) =
      epochIncrements E net (calls.take i) + 1 := by
    apply countReplies_take_succ (netStep E) net (fun c r => c.2.increments r) hc
    cases hsent.1.symm.trans hc
    rw [hreply]
    rfl
  have hle : epochIncrements E net (calls.take (i + 1)) ≤ epochIncrements E net calls := by
    have hi : i + 1 ≤ calls.length := hsent.lt_length
    have hmono := countReplies_take_le (netStep E) net (fun c r => c.2.increments r) calls hi
    rwa [List.take_length] at hmono
  have hepoch := (h.take i).sender_epoch howns
  rw [Nat.mod_eq_of_lt (by omega)] at hepoch
  refine ⟨?_, hsucc⟩
  rw [UInt32.toNat_add, hepoch, hsucc]
  exact Nat.mod_eq_of_lt (by simp; omega)

theorem Sent.unique (howns : ∀ a, Owns K (net a))
    (hkek : ∀ a, (material K (net a)).key .kek = some kek)
    (h : HonestRun E net sender calls)
    (hbound : (net sender).keyEpoch.toNat + epochIncrements E net calls < 2 ^ 32)
    {i j : ℕ} {msg msg' : OtarMessage} (hi : Sent E net calls i sender msg)
    (hj : Sent E net calls j sender msg') (heq : msg.keyEpoch = msg'.keyEpoch) : i = j := by
  obtain ⟨hei, hsi⟩ := hi.epoch howns hkek h hbound
  obtain ⟨hej, hsj⟩ := hj.epoch howns hkek h hbound
  rw [heq] at hei
  have hmono := fun {i j : ℕ} (hij : i ≤ j) =>
    countReplies_take_le (netStep E) net (fun c r => c.2.increments r) calls hij
  rcases Nat.lt_trichotomy i j with hlt | heq | hgt
  · have hle : epochIncrements E net (calls.take (i + 1)) ≤
        epochIncrements E net (calls.take j) := hmono hlt
    omega
  · exact heq
  · have hle : epochIncrements E net (calls.take (j + 1)) ≤
        epochIncrements E net (calls.take i) := hmono hgt
    omega

/-- Both hold the same TEK and the same FHEK. -/
def SameTrafficKeys (s s' : KeyMaterial) : Prop :=
  ∃ tek fhek, s.key .tek = some tek ∧ s.key .fhek = some fhek ∧
    s'.key .tek = some tek ∧ s'.key .fhek = some fhek

theorem SameTrafficKeys.trans_symm {s t s' : KeyMaterial} (h : SameTrafficKeys s t)
    (h' : SameTrafficKeys s' t) : SameTrafficKeys s s' := by
  obtain ⟨tek, fhek, htek, hfhek, htek₁, hfhek₁⟩ := h
  obtain ⟨tek', fhek', htek', hfhek', htek₂, hfhek₂⟩ := h'
  cases htek₁.symm.trans htek₂
  cases hfhek₁.symm.trans hfhek₂
  exact ⟨tek, fhek, htek, hfhek, htek', hfhek'⟩

/-- A receiver has the newest epoch delivered to it, and the keys of that message. -/
structure Synced (K : KeyObjects E) (net : ι → KeyManager σ) (sender : ι)
    (calls : List (ι × Op)) (r : ι) (s : KeyMaterial) : Prop where
  epoch : s.epoch.toNat = maxEpoch (deliveries calls r)
  keys : s.epoch ≠ 0 → ∃ i msg, Sent E net calls i sender msg ∧
    msg ∈ deliveries calls r ∧ msg.keyEpoch = s.epoch ∧
    SameTrafficKeys s (material K (managerAt E net calls i sender))

theorem Sent.concat {i : ℕ} {msg : OtarMessage} (h : Sent E net calls i sender msg)
    (c : ι × Op) : Sent E net (calls ++ [c]) i sender msg ∧
      managerAt E net (calls ++ [c]) i sender = managerAt E net calls i sender := by
  refine ⟨(Sent.append h.lt_length).mpr h, ?_⟩
  rw [managerAt, List.take_append_of_le_length (Nat.le_of_lt h.lt_length)]

/-- A call after which the receiver has the same epoch, the newest delivered, leaves it
synced. -/
theorem Synced.concat {c : ι × Op} {r : ι} {s : KeyMaterial}
    (h : Synced K net sender calls r s)
    (hc : ∀ msg ∈ deliveries [c] r, msg.keyEpoch ≤ s.epoch) :
    Synced K net sender (calls ++ [c]) r s := by
  have hmax : maxEpoch (deliveries (calls ++ [c]) r) = maxEpoch (deliveries calls r) := by
    rw [deliveries_concat]
    rcases deliveries_singleton c r with hnil | ⟨msg, hone⟩
    · rw [hnil, List.append_nil]
    · rw [hone, maxEpoch_concat, ← h.epoch]
      have hle := UInt32.le_iff_toNat_le.mp (hc msg (by rw [hone]; simp))
      omega
  refine ⟨by rw [hmax]; exact h.epoch, fun h0 => ?_⟩
  obtain ⟨i, msg, hsent, hmem, heq, hkeys⟩ := h.keys h0
  obtain ⟨hsent', hat⟩ := hsent.concat c
  refine ⟨i, msg, hsent', ?_, heq, by rwa [hat]⟩
  rw [deliveries_concat]
  exact List.mem_append_left _ hmem

/-- Processing a message on the air leaves the receiver synced. -/
theorem HonestRun.synced_process (hK : K.Unwraps) (howns : ∀ a, Owns K (net a))
    (hkek : ∀ a, (material K (net a)).key .kek = some kek)
    (h : HonestRun E net sender calls) {r : ι} {j : ℕ} {msg : OtarMessage}
    (hsent : Sent E net calls j sender msg)
    (hs : Synced K net sender calls r (material K (after (netStep E) net calls r))) :
    Synced K net sender (calls ++ [(r, .processOtarMessage msg)]) r
      (material K (KeyManager.step E (after (netStep E) net calls r)
        (.processOtarMessage msg)).1) := by
  have hm : Owns K (after (netStep E) net calls r) := owns_after howns calls r
  have hdel : deliveries [(r, Op.processOtarMessage msg)] r = [msg] := by simp [deliveries]
  obtain ⟨tek, fhek, htek, hfhek, hmsg⟩ := hsent.material_eq howns (h.sharedKek hkek)
  have hmoves := (step_moves hm (.processOtarMessage msg)).2
  by_cases hlt : (after (netStep E) net calls r).keyEpoch < msg.keyEpoch
  · have haccept : (KeyManager.step E (after (netStep E) net calls r)
        (.processOtarMessage msg)).2 = .processed true := by
      have hok := hm.processOtarMessage_accepts hK (h.kek_after howns hkek r) hlt
        (by rw [hmsg]; exact hK.unwrap_wrap kek tek)
        (by rw [hmsg]; exact hK.unwrap_wrap kek fhek)
      simp only [KeyManager.step, Prod.map_snd, hok, Reply.ofThrows]
    rw [haccept] at hmoves
    obtain ⟨k, t, f, hk, -, ht, hf, ht', hf', hepoch⟩ := hmoves.processed_true
    cases hk.symm.trans (h.kek_after howns hkek r)
    rw [hmsg] at ht hf
    cases ht.symm.trans (hK.unwrap_wrap kek tek)
    cases hf.symm.trans (hK.unwrap_wrap kek fhek)
    obtain ⟨hsent', hat⟩ := hsent.concat (r, .processOtarMessage msg)
    refine ⟨?_, fun _ => ⟨j, msg, hsent', ?_, hepoch.symm, tek, fhek, ht', hf', ?_⟩⟩
    · rw [hepoch, deliveries_concat, hdel, maxEpoch_concat, ← hs.epoch]
      exact (Nat.max_eq_right (Nat.le_of_lt (UInt32.lt_iff_toNat_lt.mp hlt))).symm
    · rw [deliveries_concat, hdel]
      simp
    · rw [hat]
      exact ⟨htek, hfhek⟩
  · have hreject : (KeyManager.step E (after (netStep E) net calls r)
        (.processOtarMessage msg)).2 ≠ .processed true := by
      intro haccept
      rw [haccept] at hmoves
      obtain ⟨-, -, -, -, hlt', -⟩ := hmoves.processed_true
      exact hlt hlt'
    rw [hmoves.not_processed hreject]
    apply hs.concat
    intro msg' hmem
    rw [hdel, List.mem_singleton] at hmem
    rw [hmem]
    exact UInt32.not_lt.mp hlt

theorem HonestRun.synced (hK : K.Unwraps) (howns : ∀ a, Owns K (net a))
    (hkek : ∀ a, (material K (net a)).key .kek = some kek)
    (hepoch : ∀ a, a ≠ sender → (net a).keyEpoch = 0)
    (h : HonestRun E net sender calls) {r : ι} (hr : r ≠ sender) :
    Synced K net sender calls r (material K (after (netStep E) net calls r)) := by
  induction calls using List.reverseRecOn with
  | nil =>
    have h0 : (material K (net r)).epoch = 0 := hepoch r hr
    exact ⟨by rw [after_nil, h0]; rfl, fun hne => absurd h0 hne⟩
  | append_singleton calls c ih =>
    have ih := ih h.of_append
    obtain ⟨a, op⟩ := c
    rw [after_concat]
    rcases h calls.length a op (by simp) with ⟨rfl, hop⟩ | ⟨-, msg, rfl, j, hj, hsent⟩
    · rw [parallel_of_ne _ _ hr]
      apply ih.concat
      cases op with
      | processOtarMessage msg => exact hop.elim
      | _ => simp [deliveries]
    by_cases har : r = a
    · subst har
      rw [parallel_self]
      exact h.of_append.synced_process hK howns hkek ((Sent.append hj).mp hsent) ih
    · rw [parallel_of_ne _ _ har]
      apply ih.concat
      simp [deliveries, Ne.symm har]

/-- Convergence of honest rekeying: a receiver has the newest epoch delivered to it, and
then the keys its sender held when it sent the message of that epoch, so that two
receivers at one epoch hold the same keys. -/
theorem honest_rekeying_converges (E : IHsmEngine σ) (K : KeyObjects E) (hK : K.Unwraps)
    (net : ι → KeyManager σ) (sender : ι) (calls : List (ι × Op)) (kek : Bytes)
    (hreach : ∀ a, Reachable E (net a))
    (hkek : ∀ a, (material K (net a)).key .kek = some kek)
    (hepoch : ∀ a, a ≠ sender → (net a).keyEpoch = 0)
    (hhonest : HonestRun E net sender calls)
    (hbound : (net sender).keyEpoch.toNat + epochIncrements E net calls < 2 ^ 32) :
    (∀ r, r ≠ sender →
      (after (netStep E) net calls r).keyEpoch.toNat = maxEpoch (deliveries calls r) ∧
      ((after (netStep E) net calls r).keyEpoch ≠ 0 →
        (∃ i msg, Sent E net calls i sender msg ∧ msg ∈ deliveries calls r ∧
          msg.keyEpoch = (after (netStep E) net calls r).keyEpoch) ∧
        ∀ i msg, Sent E net calls i sender msg →
          msg.keyEpoch = (after (netStep E) net calls r).keyEpoch →
          SameTrafficKeys (material K (after (netStep E) net calls r))
            (material K (managerAt E net calls i sender)))) ∧
    ∀ r r', r ≠ sender → r' ≠ sender → (after (netStep E) net calls r).keyEpoch ≠ 0 →
      (after (netStep E) net calls r).keyEpoch = (after (netStep E) net calls r').keyEpoch →
      SameTrafficKeys (material K (after (netStep E) net calls r))
        (material K (after (netStep E) net calls r')) := by
  have howns : ∀ a, Owns K (net a) := fun a => (hreach a).owns K
  have hsynced := fun {r : ι} (hr : r ≠ sender) => hhonest.synced hK howns hkek hepoch hr
  -- any message of the receiver's epoch is the one it took its keys from
  have hkeys : ∀ r, r ≠ sender → (after (netStep E) net calls r).keyEpoch ≠ 0 →
      ∀ i msg, Sent E net calls i sender msg →
        msg.keyEpoch = (after (netStep E) net calls r).keyEpoch →
        SameTrafficKeys (material K (after (netStep E) net calls r))
          (material K (managerAt E net calls i sender)) := by
    intro r hr h0 i msg hsent heq
    obtain ⟨j, msg', hsent', -, heq', hsame⟩ := (hsynced hr).keys h0
    cases hsent.unique howns hkek hhonest hbound hsent' (heq.trans heq'.symm)
    exact hsame
  refine ⟨fun r hr => ⟨(hsynced hr).epoch, fun h0 => ⟨?_, hkeys r hr h0⟩⟩, ?_⟩
  · obtain ⟨i, msg, hsent, hmem, heq, -⟩ := (hsynced hr).keys h0
    exact ⟨i, msg, hsent, hmem, heq⟩
  · intro r r' hr hr' h0 heq
    obtain ⟨i, msg, hsent, -, hmsg, hsame⟩ := (hsynced hr).keys h0
    exact hsame.trans_symm (hkeys r' hr' (heq ▸ h0) i msg hsent (hmsg.trans heq))

/-- The second message of the sender of `sampleNet`, after a rotation of the TEK. -/
def rotatedMessage : OtarMessage :=
  ⟨3, sampleKek ++ List.replicate 32 3, sampleKek ++ List.replicate 32 2⟩

/-- Two receivers get both messages of the sender, in different orders. -/
def crossedRun : List (Fin 3 × Op) :=
  [(0, .generateOtarMessage), (0, .rotateTek), (0, .generateOtarMessage),
    (1, .processOtarMessage rotatedMessage), (1, .processOtarMessage sampleMessage),
    (2, .processOtarMessage sampleMessage), (2, .processOtarMessage rotatedMessage)]

theorem crossedRun_sent : Sent tableHsm (sampleNet 0) crossedRun 0 0 sampleMessage :=
  ⟨rfl, by decide⟩

theorem crossedRun_sent_rotated :
    Sent tableHsm (sampleNet 0) crossedRun 2 0 rotatedMessage := ⟨rfl, by decide⟩

theorem crossedRun_honest : HonestRun tableHsm (sampleNet 0) 0 crossedRun := by
  intro i a op hc
  match i with
  | 0 | 1 | 2 => cases hc; exact .inl ⟨rfl, trivial⟩
  | 3 | 6 =>
    cases hc
    exact .inr ⟨by decide, rotatedMessage, rfl, 2, by decide, crossedRun_sent_rotated⟩
  | 4 | 5 =>
    cases hc
    exact .inr ⟨by decide, sampleMessage, rfl, 0, by decide, crossedRun_sent⟩
  | i + 7 => cases hc

theorem crossedRun_converges :
    SameTrafficKeys
      (material tableKeys (after (netStep tableHsm) (sampleNet 0) crossedRun 1))
      (material tableKeys (after (netStep tableHsm) (sampleNet 0) crossedRun 2)) :=
  (honest_rekeying_converges tableHsm tableKeys tableKeys_unwraps (sampleNet 0) 0 crossedRun
    sampleKek (sampleNet_reachable 0) (sampleNet_kek 0) (by decide) crossedRun_honest
    (by decide)).2 1 2 (by decide) (by decide) (by decide) (by decide)

end Cirradio.Security
