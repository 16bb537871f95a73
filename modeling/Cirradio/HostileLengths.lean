import Cirradio.KeyedLoops
import Cirradio.ParsingLoops

/-!
# Lengths that wrap around

The end of a message is computed from a length that the sender chooses. With a `size_t` of 64
bits it is exact. With 32 bits it wraps around, and the loop may copy a payload that ends
before it starts, or come back to where it has been and never end.
-/

namespace Cirradio.Node
open Security Hal Network Voice Fhss WhileLoops Relation

/-- The loop reads the nine bytes behind such a header. -/
def ParsingLoop.readsBeacon : ParsingLoop → MessageHeader → Bool
  | .discovery, hdr => hdr.msgType == kMsgTypeBeacon && decide (9 ≤ hdr.payloadLen)
  | .hop, _ => false

/-- The payload of such a message is copied to a vector, or read in place. -/
def RadioNode.slices {σ κ Q : Type} (parsing : ParsingLoop) (n : RadioNode σ κ Q)
    (hdr : MessageHeader) : Bool :=
  (hdr.msgType == kMsgTypeData || hdr.msgType == kMsgTypeVoice) && n.addressed hdr ||
    parsing.readsBeacon hdr

section Ends
variable {w : ℕ} {rxData : Bytes} {offset : ℕ} {hdr : MessageHeader}

theorem headerAt_eq_some (h : headerAt w rxData offset = some hdr) :
    13 ≤ rxData.length - offset ∧ msgEnd w offset hdr ≤ rxData.length := by
  unfold headerAt at h
  split at h
  · cases h
  · obtain ⟨hhdr, hend⟩ := Option.filter_eq_some_iff.mp h
    refine ⟨?_, of_decide_eq_true hend⟩
    unfold deserializeHeader at hhdr
    split at hhdr
    · cases hhdr
    · next hlong =>
      rw [List.length_take, List.length_drop] at hlong
      omega

/-- The end is behind the header exactly if it has not wrapped around. -/
theorem le_msgEnd_iff (hw : 32 ≤ w) (hoffset : offset + 13 < 2 ^ w) :
    offset + 13 ≤ msgEnd w offset hdr ↔ offset + 13 + hdr.payloadLen.toNat < 2 ^ w := by
  have hlen : hdr.payloadLen.toNat < 2 ^ 32 := hdr.payloadLen.toNat_lt
  have hle : 2 ^ 32 ≤ 2 ^ w := Nat.pow_le_pow_right (by decide) hw
  unfold msgEnd
  constructor
  · intro h
    by_contra hwraps
    have hsub : (offset + 13 + hdr.payloadLen.toNat) % 2 ^ w =
        offset + 13 + hdr.payloadLen.toNat - 2 ^ w := by
      rw [Nat.mod_eq_sub_mod (Nat.not_lt.mp hwraps), Nat.mod_eq_of_lt (by omega)]
    omega
  · intro h
    rw [Nat.mod_eq_of_lt h]
    exact Nat.le_add_right _ _

end Ends

section Loops
variable {S σ κ Q : Type} (P : Platform S σ κ)

/-- The offset to which a message that does not throw leads. -/
def Leads (w : ℕ) (n : RadioNode σ κ Q) (rxData : Bytes) (offset offset' : ℕ) : Prop :=
  ∃ hdr, headerAt w rxData offset = some hdr ∧
    ¬ n.VoiceFault P (hdr, payloadAt rxData offset (msgEnd w offset hdr)) ∧
    offset' = msgEnd w offset hdr

/-- The lengths lead to no offset that leads back to itself, and no end has wrapped around at
a message whose payload is copied or read. -/
structure Harmless (w : ℕ) (parsing : ParsingLoop) (n : RadioNode σ κ Q) (rxData : Bytes) :
    Prop where
  noCycle : ∀ offset, ReflTransGen (Leads P w n rxData) 0 offset →
    ¬ TransGen (Leads P w n rxData) offset offset
  noWrap : ∀ offset hdr, ReflTransGen (Leads P w n rxData) 0 offset →
    headerAt w rxData offset = some hdr → n.slices parsing hdr = true →
      offset + 13 + hdr.payloadLen.toNat < 2 ^ w

section Survives
variable [LT Q] [DecidableLT Q] [One Q] [Mul Q] [Zero Q]

/-- A visit as it is where a beacon that has wrapped around is read on behind the bytes read. The
memory has `behind` there. -/
def ParsingLoop.visit (behind : Bytes) (limit now : ℕ) (parsing : ParsingLoop) :
    OnMessage (RadioNode σ κ Q) := fun hdr payload n =>
  parsing.onMessage P limit now hdr
    (if hdr.msgType = kMsgTypeBeacon then payload ++ behind else payload) n

/-- A turn goes on. -/
def GoesOn (w now : ℕ) (parsing : ParsingLoop) (behind rxData : Bytes)
    (s s' : ℕ × RadioNode σ κ Q) : Prop :=
  Returns (fun limit => parseTurn w (parsing.visit P behind limit now) rxData s) (.inl s')

/-- The loop ends, and every slice it takes is in the bytes read. -/
structure Survives (w now : ℕ) (parsing : ParsingLoop) (behind : Bytes) (n : RadioNode σ κ Q)
    (rxData : Bytes) : Prop where
  ends : ∃ r, Returns
    (fun limit => parseMessages w limit (parsing.visit P behind limit now) rxData n) r
  inRange : ∀ offset n' hdr,
    ReflTransGen (GoesOn P w now parsing behind rxData) (0, n) (offset, n') →
      headerAt w rxData offset = some hdr → n'.slices parsing hdr = true →
        offset + 13 ≤ msgEnd w offset hdr ∧ msgEnd w offset hdr ≤ rxData.length

end Survives

variable {P} {w now : ℕ} {n n' : RadioNode σ κ Q} {behind rxData : Bytes} {offset : ℕ}

theorem RadioNode.Keeps.slices {n n' : RadioNode σ κ Q} (h : n.Keeps n') (parsing : ParsingLoop)
    (hdr : MessageHeader) : n'.slices parsing hdr = n.slices parsing hdr := by
  unfold RadioNode.slices RadioNode.addressed
  rw [h.id]

theorem le_length_of_leads (h : ReflTransGen (Leads P w n rxData) 0 offset) :
    offset ≤ rxData.length := by
  cases h.cases_tail with
  | inl hstart =>
    rw [hstart]
    exact Nat.zero_le _
  | inr hlast =>
    obtain ⟨_, -, hdr, hhdr, -, rfl⟩ := hlast
    exact (headerAt_eq_some hhdr).2

theorem Leads.unique {offset₁ offset₂ : ℕ} (h₁ : Leads P w n rxData offset offset₁)
    (h₂ : Leads P w n rxData offset offset₂) : offset₁ = offset₂ := by
  obtain ⟨hdr, hhdr, -, rfl⟩ := h₁
  obtain ⟨hdr', hhdr', -, rfl⟩ := h₂
  rw [hhdr] at hhdr'
  cases hhdr'
  rfl

theorem end_lt_of_wide (hsize : rxData.length < 2 ^ 63) (hoffset : offset ≤ rxData.length)
    (hdr : MessageHeader) : offset + 13 + hdr.payloadLen.toNat < 2 ^ 64 := by
  have hlen : hdr.payloadLen.toNat < 2 ^ 32 := hdr.payloadLen.toNat_lt
  omega

/-- With 64 bits no end wraps around, and the loop always goes on. -/
theorem harmless_of_wide (parsing : ParsingLoop) (n : RadioNode σ κ Q)
    (hsize : rxData.length < 2 ^ 63) : Harmless P 64 parsing n rxData := by
  refine ⟨fun offset hto hcycle => ?_, fun offset hdr hto _ _ =>
    end_lt_of_wide hsize (le_length_of_leads hto) hdr⟩
  have hforward : ∀ offset', TransGen (Leads P 64 n rxData) offset offset' →
      offset < offset' ∧ offset' ≤ rxData.length := by
    have hstep : ∀ offset offset', offset ≤ rxData.length → Leads P 64 n rxData offset offset' →
        offset < offset' ∧ offset' ≤ rxData.length := by
      rintro offset _ hoffset ⟨hdr, hhdr, -, rfl⟩
      refine ⟨?_, (headerAt_eq_some hhdr).2⟩
      have hend := (le_msgEnd_iff (by decide) (by omega)).mpr (end_lt_of_wide hsize hoffset hdr)
      omega
    intro offset' hway
    induction hway with
    | single hnext => exact hstep _ _ (le_length_of_leads hto) hnext
    | tail _ hnext ih =>
      obtain ⟨hlt, hle⟩ := hstep _ _ ih.2 hnext
      exact ⟨Nat.lt_trans ih.1 hlt, hle⟩
  exact Nat.lt_irrefl offset (hforward offset hcycle).1

section Visit
variable [LT Q] [DecidableLT Q] [One Q] [Mul Q] [Zero Q]

omit [LT Q] [DecidableLT Q] [One Q] [Mul Q] [Zero Q] in
theorem voiceFault_behind (n : RadioNode σ κ Q) (hdr : MessageHeader) (payload behind : Bytes) :
    n.VoiceFault P
        (hdr, if hdr.msgType = kMsgTypeBeacon then payload ++ behind else payload) ↔
      n.VoiceFault P (hdr, payload) := by
  split
  · next hbeacon =>
    have hvoice : hdr.msgType ≠ kMsgTypeVoice := by
      rw [hbeacon]
      decide
    exact iff_of_false (fun h => hvoice h.1) fun h => hvoice h.1
  · exact Iff.rfl

/-- At any limit a visit that returns keeps the keys, and throws exactly at a voice fault. -/
theorem visit_eq_some (hdec : DecryptsPurely P.hsm) {parsing : ParsingLoop} {limit : ℕ}
    {hdr : MessageHeader} {payload : Bytes} {r : RadioNode σ κ Q × Throws Unit}
    (h : parsing.visit P behind limit now hdr payload n' = some r) :
    (∀ m, r.1.VoiceFault P m ↔ n'.VoiceFault P m) ∧
      (r.2 = .ok () ↔ ¬ n'.VoiceFault P (hdr, payload)) := by
  unfold ParsingLoop.visit at h
  rw [← voiceFault_behind n' hdr payload behind]
  generalize (if hdr.msgType = kMsgTypeBeacon then payload ++ behind else payload) = payload at h ⊢
  obtain ⟨n₁, result, hresult, hkeeps, hiff⟩ :=
    RadioNode.onHopMessage_result hdec n' hdr payload
  have happart : BeaconsApart r.1 n₁ ∧ r.2 = result := by
    cases parsing with
    | discovery =>
      have hvisit := (BeaconsApart.refl n').of_onDiscoveryMessage h
      rwa [hresult] at hvisit
    | hop =>
      cases h
      rw [hresult]
      exact ⟨.refl n₁, rfl⟩
  obtain ⟨⟨discovery, router, happart⟩, hsame⟩ := happart
  refine ⟨fun m => ?_, by rw [hsame, hiff]⟩
  rw [happart, ← hkeeps.voiceFault_iff]
  rfl

/-- Where the lengths lead round, the loop does not end. -/
theorem noCycle_of_ends (hdec : DecryptsPurely P.hsm) {parsing : ParsingLoop}
    {r : RadioNode σ κ Q × Throws Unit}
    (h : Returns
      (fun limit => parseMessages w limit (parsing.visit P behind limit now) rxData n) r)
    (hto : ReflTransGen (Leads P w n rxData) 0 offset) :
    ¬ TransGen (Leads P w n rxData) offset offset := by
  intro hcycle
  obtain ⟨limit, hlimit⟩ := h
  have hloop := hlimit limit (Nat.le_refl limit)
  have hbytes : ¬ rxData.isEmpty = true := by
    obtain ⟨_, ⟨hdr, hhdr, -⟩, -⟩ := TransGen.head'_iff.mp hcycle
    intro hempty
    rw [List.isEmpty_iff.mp hempty] at hhdr
    have hlong := (headerAt_eq_some hhdr).1
    rw [List.length_nil] at hlong
    omega
  simp only [parseMessages, if_neg hbytes] at hloop
  let Inv (s : ℕ × RadioNode σ κ Q) : Prop := ∀ m, s.2.VoiceFault P m ↔ n.VoiceFault P m
  have hturn : ∀ (s : ℕ × RadioNode σ κ Q) offset' r', Inv s →
      Leads P w n rxData s.1 offset' →
      parseTurn w (parsing.visit P behind limit now) rxData s = some r' →
      ∃ s', r' = .inl s' ∧ s'.1 = offset' ∧ Inv s' := by
    rintro ⟨offset, n'⟩ _ r' hkeys ⟨hdr, hhdr, hquiet, rfl⟩ hresult
    rw [parseTurn_of_some hhdr] at hresult
    obtain ⟨⟨n'', result⟩, hvisit, rfl⟩ := Option.map_eq_some_iff.mp hresult
    obtain ⟨hkeys', hiff⟩ := visit_eq_some hdec hvisit
    cases hiff.mpr fun hfault => hquiet ((hkeys _).mp hfault)
    exact ⟨(_, n''), rfl, rfl, fun m => (hkeys' m).trans (hkeys m)⟩
  have hstart : Inv (0, n) := fun m => Iff.rfl
  exact loop_ne_some_of_cycle Inv hturn hstart hto hcycle limit r hloop

end Visit

section Turns
variable [Preorder Q] [WellFoundedGT Q] [DecidableLT Q] [One Q] [Mul Q] [Zero Q]

theorem visit_visitSpec (hdec : DecryptsPurely P.hsm) (now : ℕ) (parsing : ParsingLoop)
    (behind : Bytes) :
    RadioNode.VisitSpec (Q := Q) P fun limit => parsing.visit P behind limit now := by
  intro m n hown
  obtain ⟨n', result, hreturns, hkeeps, hiff⟩ := parsing.visitSpec hdec now
    (m.1, if m.1.msgType = kMsgTypeBeacon then m.2 ++ behind else m.2) n hown
  rw [voiceFault_behind] at hiff
  exact ⟨n', result, hreturns, hkeeps, hiff⟩

/-- What a turn does, as far as the offsets go. -/
theorem parseTurn_cases (hdec : DecryptsPurely P.hsm) (now : ℕ) (parsing : ParsingLoop)
    (behind : Bytes) (hkeeps : n.Keeps n') (hown : n'.router.Own) (offset : ℕ) :
    (∃ t, Returns (fun limit =>
      parseTurn w (parsing.visit P behind limit now) rxData (offset, n')) (.inr t)) ∧
        (∀ offset', ¬ Leads P w n rxData offset offset') ∨
    ∃ offset' n'', GoesOn P w now parsing behind rxData (offset, n') (offset', n'') ∧
      n.Keeps n'' ∧ n''.router.Own ∧ Leads P w n rxData offset offset' := by
  unfold GoesOn
  cases hhdr : headerAt w rxData offset with
  | none =>
    refine .inl ⟨⟨(n', .ok ()), ?_⟩, ?_⟩
    · simp only [parseTurn_of_none hhdr]
      exact .pure _
    · rintro offset' ⟨hdr, hsome, -⟩
      rw [hhdr] at hsome
      cases hsome
  | some hdr =>
    simp only [parseTurn_of_some hhdr]
    obtain ⟨n'', result, hreturns, hkeeps', hiff⟩ := visit_visitSpec hdec now parsing behind
      (hdr, payloadAt rxData offset (msgEnd w offset hdr)) n' hown
    rw [hkeeps.voiceFault_iff] at hiff
    cases result with
    | error e =>
      refine .inl ⟨⟨(n'', .error e), hreturns.map _⟩, ?_⟩
      rintro offset' ⟨hdr', hsome, hquiet, -⟩
      rw [hhdr] at hsome
      cases hsome
      cases hiff.mpr hquiet
    | ok u =>
      exact .inr ⟨_, n'', hreturns.map _, hkeeps.trans hkeeps', hkeeps'.own hown, hdr, hhdr,
        hiff.mp rfl, rfl⟩

theorem leads_of_goesOn (hdec : DecryptsPurely P.hsm) {parsing : ParsingLoop}
    (hown : n.router.Own) {s : ℕ × RadioNode σ κ Q}
    (h : ReflTransGen (GoesOn P w now parsing behind rxData) (0, n) s) :
    ReflTransGen (Leads P w n rxData) 0 s.1 ∧ n.Keeps s.2 ∧ s.2.router.Own := by
  induction h with
  | refl => exact ⟨.refl, .refl n, hown⟩
  | @tail s s' _ hnext ih =>
    obtain ⟨hleads, hkeeps, hown'⟩ := ih
    rcases parseTurn_cases hdec now parsing behind hkeeps hown' s.1 with
      ⟨⟨t, hends⟩, -⟩ | ⟨offset', n'', hgoes, hkeeps'', hown'', hlast⟩
    · cases hends.unique hnext
    · cases Sum.inl.inj (Returns.unique hgoes hnext)
      exact ⟨hleads.tail hlast, hkeeps'', hown''⟩

theorem exists_goesOn_of_leads (hdec : DecryptsPurely P.hsm) (now : ℕ) (parsing : ParsingLoop)
    (behind : Bytes) (hown : n.router.Own) (h : ReflTransGen (Leads P w n rxData) 0 offset) :
    ∃ n', ReflTransGen (GoesOn P w now parsing behind rxData) (0, n) (offset, n') := by
  induction h with
  | refl => exact ⟨n, .refl⟩
  | @tail offset offset' _ hnext ih =>
    obtain ⟨n', hway⟩ := ih
    obtain ⟨-, hkeeps, hown'⟩ := leads_of_goesOn hdec hown hway
    rcases parseTurn_cases hdec now parsing behind hkeeps hown' offset with
      ⟨-, hnone⟩ | ⟨offset'', n'', hgoes, -, -, hlast⟩
    · exact absurd hnext (hnone offset')
    · rw [hnext.unique hlast]
      exact ⟨n'', hway.tail hgoes⟩

/-- The slices are in range exactly if no end of one wraps around. -/
theorem inRange_iff (hdec : DecryptsPurely P.hsm) (now : ℕ) (parsing : ParsingLoop)
    (behind : Bytes) (hown : n.router.Own) (hw : 32 ≤ w) (hsize : rxData.length + 13 < 2 ^ w) :
    (∀ offset n' hdr, ReflTransGen (GoesOn P w now parsing behind rxData) (0, n) (offset, n') →
      headerAt w rxData offset = some hdr → n'.slices parsing hdr = true →
        offset + 13 ≤ msgEnd w offset hdr ∧ msgEnd w offset hdr ≤ rxData.length) ↔
      ∀ offset hdr, ReflTransGen (Leads P w n rxData) 0 offset →
        headerAt w rxData offset = some hdr → n.slices parsing hdr = true →
          offset + 13 + hdr.payloadLen.toNat < 2 ^ w := by
  have hexact : ∀ offset hdr, ReflTransGen (Leads P w n rxData) 0 offset →
      (offset + 13 ≤ msgEnd w offset hdr ↔ offset + 13 + hdr.payloadLen.toNat < 2 ^ w) := by
    intro offset hdr hleads
    have hle := le_length_of_leads hleads
    exact le_msgEnd_iff hw (by omega)
  constructor
  · intro h offset hdr hleads hhdr hslices
    obtain ⟨n', hgoes⟩ := exists_goesOn_of_leads hdec now parsing behind hown hleads
    obtain ⟨-, hkeeps, -⟩ := leads_of_goesOn hdec hown hgoes
    rw [← hkeeps.slices parsing] at hslices
    exact (hexact offset hdr hleads).mp (h offset n' hdr hgoes hhdr hslices).1
  · intro h offset n' hdr hgoes hhdr hslices
    obtain ⟨hleads, hkeeps, -⟩ := leads_of_goesOn hdec hown hgoes
    rw [hkeeps.slices parsing] at hslices
    exact ⟨(hexact offset hdr hleads).mpr (h offset hdr hleads hhdr hslices),
      (headerAt_eq_some hhdr).2⟩

/-- Where the lengths do not lead round, the loop ends. -/
theorem ends_of_noCycle (hdec : DecryptsPurely P.hsm) (now : ℕ) (parsing : ParsingLoop)
    (behind : Bytes) (hown : n.router.Own)
    (hcycle : ∀ offset, ReflTransGen (Leads P w n rxData) 0 offset →
      ¬ TransGen (Leads P w n rxData) offset offset) :
    ∃ r, Returns (fun limit => parseMessages w limit (parsing.visit P behind limit now) rxData n)
      r := by
  unfold parseMessages
  split
  · exact ⟨_, .pure _⟩
  · let Inv (s : ℕ × RadioNode σ κ Q) : Prop :=
      s.1 ≤ rxData.length ∧ n.Keeps s.2 ∧ s.2.router.Own
    have hturn : ∀ s, Inv s → (∃ t, Returns (fun limit =>
        parseTurn w (parsing.visit P behind limit now) rxData s) (.inr t)) ∨
        ∃ s', Returns (fun limit => parseTurn w (parsing.visit P behind limit now) rxData s)
          (.inl s') ∧ Inv s' ∧ Leads P w n rxData s.1 s'.1 := by
      rintro ⟨offset, n'⟩ ⟨-, hkeeps, hown'⟩
      rcases parseTurn_cases hdec now parsing behind hkeeps hown' offset with
        ⟨hends, -⟩ | ⟨offset', n'', hgoes, hkeeps'', hown'', hlead⟩
      · exact .inl hends
      · refine .inr ⟨_, hgoes, ⟨?_, hkeeps'', hown''⟩, hlead⟩
        obtain ⟨hdr, hhdr, -, rfl⟩ := hlead
        exact (headerAt_eq_some hhdr).2
    have hstart : Inv (0, n) := ⟨Nat.zero_le _, .refl n, hown⟩
    obtain ⟨r, hends⟩ := exists_ends_of_acyclic Inv (Finset.range (rxData.length + 1))
      (fun s hs => Finset.mem_range.mpr (Nat.lt_succ_of_le hs.1)) hturn hstart hcycle
    exact ⟨r, hends.returns⟩

/-- The loop survives the bytes read exactly if the lengths in them are harmless, and with 64
bits they always are. -/
theorem survives_iff (hdec : DecryptsPurely P.hsm) (haes : AesReturns P.aes)
    (hn : InFrame P n) (now : ℕ) (parsing : ParsingLoop) (behind : Bytes) (hw : w = 32 ∨ w = 64)
    (hsize : rxData.length < 2 ^ (w - 1)) :
    (w = 64 → Survives P w now parsing behind n rxData) ∧
      (Survives P w now parsing behind n rxData ↔ Harmless P w parsing n rxData) := by
  have hown := hn.own hdec haes
  have hwide : 32 ≤ w := by omega
  have hfits : rxData.length + 13 < 2 ^ w := by
    rcases hw with rfl | rfl <;> omega
  have hiff : Survives P w now parsing behind n rxData ↔ Harmless P w parsing n rxData := by
    constructor
    · rintro ⟨⟨r, hends⟩, hrange⟩
      exact ⟨fun offset hto => noCycle_of_ends hdec hends hto,
        (inRange_iff hdec now parsing behind hown hwide hfits).mp hrange⟩
    · rintro ⟨hcycle, hwrap⟩
      exact ⟨ends_of_noCycle hdec now parsing behind hown hcycle,
        (inRange_iff hdec now parsing behind hown hwide hfits).mpr hwrap⟩
  refine ⟨?_, hiff⟩
  rintro rfl
  exact hiff.mpr (harmless_of_wide parsing n hsize)

end Turns

/-- The loops survive all that is read, on either target. -/
def LoopsSurvive : Prop :=
  ∀ (S σ κ Q : Type) [Preorder Q] [WellFoundedGT Q] [DecidableLT Q] [One Q] [Mul Q] [Zero Q]
    (P : Platform S σ κ), DecryptsPurely P.hsm → AesReturns P.aes →
    ∀ n : RadioNode σ κ Q, InFrame P n → ∀ (now : ℕ) (parsing : ParsingLoop) (w : ℕ)
      (behind rxData : Bytes), w = 32 ∨ w = 64 → rxData.length < 2 ^ (w - 1) →
      Survives P w now parsing behind n rxData

end Loops

section Samples
open RadioNode

/-- A data message for node 3 of 2 ^ 32 - 13 bytes, of which only the header is there. -/
def hangingHeader : MessageHeader := ⟨kMsgTypeData, 1, 3, 4294967283⟩

/-- A beacon of 2 ^ 32 - 12 bytes, which with 32 bits ends behind its first byte. -/
def wrappedBeacon : MessageHeader := ⟨kMsgTypeBeacon, 1, 0, 4294967284⟩

/-- With 64 bits the header is that of a message which is cut, and with 32 bits a beacon is read
that is not there. -/
theorem survives_iff_hanging :
    Survives samplePlatform 64 0 .discovery [] (sampleNode 2) (serializeHeader hangingHeader) ∧
      ¬ Survives samplePlatform 32 0 .discovery [] (sampleNode 2)
        (serializeHeader wrappedBeacon) := by
  refine ⟨(survives_iff samplePlatform_decrypts samplePlatform_aes (sampleNode_inFrame 2) 0
    .discovery [] (.inr rfl) (by decide)).1 rfl, ?_⟩
  rw [(survives_iff samplePlatform_decrypts samplePlatform_aes (sampleNode_inFrame 2) 0
    .discovery [] (.inl rfl) (by decide)).2]
  intro hharmless
  have hnowrap := hharmless.noWrap 0 wrappedBeacon .refl (by decide) (by decide)
  exact absurd hnowrap (by decide)

/-- With 32 bits the message ends where it starts. -/
theorem not_loopsSurvive : ¬ LoopsSurvive := by
  intro h
  obtain ⟨⟨r, hends⟩, -⟩ := h _ _ _ _ samplePlatform samplePlatform_decrypts samplePlatform_aes
    (sampleNode 2) (sampleNode_inFrame 2) 0 .discovery 32 [] (serializeHeader hangingHeader)
    (.inl rfl) (by decide)
  have hstays : Leads samplePlatform 32 (sampleNode 2) (serializeHeader hangingHeader) 0 0 :=
    ⟨hangingHeader, by decide, fun hfault => absurd hfault.1 (by decide), by decide⟩
  exact noCycle_of_ends samplePlatform_decrypts hends .refl (.single hstays)

end Samples
end Cirradio.Node
