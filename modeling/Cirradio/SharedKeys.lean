import Cirradio.DataDelivery
import Cirradio.KeyMaterial

/-!
# Nodes with shared keys

A start of a provisioned node that does not fail installs the provisioned TEK, and the hop
sequence of the provisioned FHEK. One that fails leaves the node idle, and can be repeated.
-/

namespace Cirradio.Node
open Security Hal Network Tdma Voice Fhss Relation

/-- An exported key is the key of the object, and the objects stay as they are. -/
def ExportsKeys {σ : Type} {E : IHsmEngine σ} (K : KeyObjects E) : Prop :=
  ∀ s h, K.key (E.exportRaw s h).1 = K.key s ∧
    ∀ raw, (E.exportRaw s h).2 = .ok (some raw) → K.key s h = some raw

namespace RadioNode
variable {S σ κ Q : Type}

section Start
variable {E : IHsmEngine σ} {K : KeyObjects E} {m m' : KeyManager σ}

theorem fills_ok {slot : KeySlot} {values : Bytes → Prop}
    (h : KeyManager.Fills K m slot values (m', .ok ())) : KeyManager.Owns K m' ∧
      ∃ v, values v ∧ KeyManager.material K m' = (KeyManager.material K m).install slot v := by
  obtain ⟨howns, ⟨e, herror, -⟩ | ⟨-, hinstalled⟩⟩ := h
  · cases herror
  · exact ⟨howns, hinstalled⟩

theorem owns_inOrder {calls : List (KeyManager σ → KeyManager σ × Throws Unit)}
    (hcalls : ∀ call ∈ calls, ∀ m, KeyManager.Owns K m → KeyManager.Owns K (call m).1)
    (hm : KeyManager.Owns K m) : KeyManager.Owns K (inOrder calls m).1 := by
  induction calls generalizing m with
  | nil => exact hm
  | cons call calls ih =>
    have hfirst := hcalls call List.mem_cons_self m hm
    unfold inOrder
    rcases hresult : call m with ⟨m₁, e | u⟩
    · rw [hresult] at hfirst
      exact hfirst
    · rw [hresult] at hfirst
      exact ih (fun call' hcall' => hcalls call' (List.mem_cons_of_mem call hcall')) hfirst

theorem inOrder_cons_ok {call : KeyManager σ → KeyManager σ × Throws Unit}
    {calls : List (KeyManager σ → KeyManager σ × Throws Unit)}
    (h : inOrder (call :: calls) m = (m', .ok ())) :
    ∃ m₁, call m = (m₁, .ok ()) ∧ inOrder calls m₁ = (m', .ok ()) := by
  unfold inOrder at h
  rcases hresult : call m with ⟨m₁, e | u⟩
  · rw [hresult] at h
    cases h
  · rw [hresult] at h
    exact ⟨m₁, rfl, h⟩

/-- The calls of a provisioned start. -/
def provisionedCalls (E : IHsmEngine σ) (tek fhek : Bytes) :
    List (KeyManager σ → KeyManager σ × Throws Unit) :=
  [KeyManager.initializeKek E, KeyManager.setTekRaw E tek, KeyManager.setFhekRaw E fhek]

theorem owns_provisionedCalls (tek fhek : Bytes) (hm : KeyManager.Owns K m) :
    KeyManager.Owns K (inOrder (provisionedCalls E tek fhek) m).1 := by
  apply owns_inOrder _ hm
  intro call hcall m hm
  simp only [provisionedCalls, List.mem_cons, List.not_mem_nil, or_false] at hcall
  rcases hcall with rfl | rfl | rfl
  · exact (hm.generateInto .kek "kek").1
  · exact (hm.importInto .tek "tek" tek).1
  · exact (hm.importInto .fhek "fhek" fhek).1

/-- If none of them throws, every slot is filled, and the TEK and the FHEK are those
provisioned. -/
theorem provisionedCalls_ok {tek fhek : Bytes} (hm : KeyManager.Owns K m)
    (h : inOrder (provisionedCalls E tek fhek) m = (m', .ok ())) :
    ((KeyManager.material K m').key .kek).isSome ∧
      (KeyManager.material K m').key .tek = some tek ∧
      (KeyManager.material K m').key .fhek = some fhek := by
  obtain ⟨m₁, hkek, h⟩ := inOrder_cons_ok h
  obtain ⟨m₂, htek, h⟩ := inOrder_cons_ok h
  obtain ⟨m₃, hfhek, h⟩ := inOrder_cons_ok h
  cases h
  have hfills₁ := hm.generateInto .kek "kek"
  change KeyManager.Fills K m .kek _ (KeyManager.initializeKek E m) at hfills₁
  rw [hkek] at hfills₁
  obtain ⟨howns₁, kek, -, hmaterial₁⟩ := fills_ok hfills₁
  have hfills₂ := howns₁.importInto .tek "tek" tek
  change KeyManager.Fills K m₁ .tek _ (KeyManager.setTekRaw E tek m₁) at hfills₂
  rw [htek] at hfills₂
  obtain ⟨howns₂, _, rfl, hmaterial₂⟩ := fills_ok hfills₂
  have hfills₃ := howns₂.importInto .fhek "fhek" fhek
  change KeyManager.Fills K m₂ .fhek _ (KeyManager.setFhekRaw E fhek m₂) at hfills₃
  rw [hfhek] at hfills₃
  obtain ⟨-, _, rfl, hmaterial₃⟩ := fills_ok hfills₃
  rw [hmaterial₃, hmaterial₂, hmaterial₁]
  exact ⟨rfl, rfl, rfl⟩

theorem isInitialized_of_material (h : ∀ slot, ((KeyManager.material K m).key slot).isSome) :
    m.isInitialized = true := by
  have hheld : ∀ slot, (m.handle slot).isSome = true := by
    intro slot
    obtain ⟨v, hv⟩ := Option.isSome_iff_exists.mp (h slot)
    obtain ⟨held, hheld, -⟩ := Option.bind_eq_some_iff.mp hv
    rw [hheld]
    rfl
  unfold KeyManager.isInitialized
  rw [Bool.and_eq_true, Bool.and_eq_true]
  exact ⟨⟨hheld .kek, hheld .tek⟩, hheld .fhek⟩

/-- The export of the FHEK keeps the keys, and returns the FHEK. -/
theorem exportFhekForFpga_spec (hexport : ExportsKeys K) (hm : KeyManager.Owns K m) :
    KeyManager.Owns K (KeyManager.exportFhekForFpga E m).1 ∧
      KeyManager.material K (KeyManager.exportFhekForFpga E m).1 = KeyManager.material K m ∧
      ∀ raw, (KeyManager.exportFhekForFpga E m).2 = .ok raw →
        (KeyManager.material K m).key .fhek = some raw := by
  unfold KeyManager.exportFhekForFpga KeyManager.exportKey
  cases hheld : m.handle .fhek with
  | none => exact ⟨hm, rfl, fun raw hraw => nomatch hraw⟩
  | some h =>
    obtain ⟨hkeys, hvalue⟩ := hexport m.hsm h
    simp only
    generalize E.exportRaw m.hsm h = r at hkeys hvalue ⊢
    obtain ⟨howns, hmaterial⟩ := hm.engine_call fun _ h' _ => congrFun hkeys h'
    rcases r with ⟨hsm, e | _ | raw⟩
    · exact ⟨howns, hmaterial, fun raw hraw => nomatch hraw⟩
    · exact ⟨howns, hmaterial, fun raw hraw => nomatch hraw⟩
    · refine ⟨howns, hmaterial, fun raw' hraw' => ?_⟩
      cases hraw'
      change (m.handle .fhek).bind (K.key m.hsm) = some raw
      rw [hheld]
      exact hvalue raw rfl

end Start

section Nodes
variable {P : Platform S σ κ} (K : KeyObjects P.hsm) (tek fhek : Bytes)

/-- A node with provisioned keys that is not started. -/
structure Provisioned (n : RadioNode σ κ Q) : Prop where
  state : n.state = .idle
  keysProvisioned : n.keysProvisioned = true
  provisionedTek : n.provisionedTek = tek
  provisionedFhek : n.provisionedFhek = fhek
  owns : KeyManager.Owns K n.keyMgr
  peers : n.peers = []

/-- A started node with the keys. -/
structure Keyed (n : RadioNode σ κ Q) : Prop where
  state : n.state ≠ .idle
  isInitialized : n.keyMgr.isInitialized = true
  tekValue : n.tekValue K = some tek
  hopSeq : ∃ hopSeq, n.hopSeq = some hopSeq ∧
    HopSequencer.new fhek kMinFreq kMaxFreq kChannelSpacing = .ok hopSeq
  txEnabled : n.radio.txEnabled = true

/-- What the calls of a provisioned node keep. -/
structure Prepared (n : RadioNode σ κ Q) : Prop where
  own : n.router.Own
  keys : n.Provisioned K tek fhek ∨ n.Keyed K tek fhek

variable {K} {tek fhek}

theorem prepared_new (id : UInt32) (hsm : σ) (c : SimChannel S) :
    Prepared K tek fhek ((RadioNode.new P id hsm c (Q := Q)).2.provisionKeys tek fhek) :=
  ⟨MeshRouter.own_new id, .inl ⟨rfl, rfl, rfl, rfl, KeyManager.owns_new hsm, rfl⟩⟩

theorem Prepared.sound {n : RadioNode σ κ Q} (h : n.Prepared K tek fhek)
    (hstarted : n.state ≠ .idle) : n.Sound := by
  rcases h.keys with hkeys | hkeys
  · exact absurd hkeys.state hstarted
  · obtain ⟨hopSeq, hseq, hnew⟩ := hkeys.hopSeq
    refine ⟨h.own, fun hopSeq' hseq' => ?_⟩
    rw [hseq] at hseq'
    cases hseq'
    exact HopSequencer.new_fhek hnew

theorem Prepared.keyed {n : RadioNode σ κ Q} (h : n.Prepared K tek fhek)
    {peer : UInt32} (hpeer : peer ∈ n.peers) : n.Keyed K tek fhek := by
  rcases h.keys with hkeys | hkeys
  · rw [hkeys.peers] at hpeer
    exact absurd hpeer List.not_mem_nil
  · exact hkeys

/-- A start installs the keys, or fails and leaves the node to be started again. -/
theorem Provisioned.start (hexport : ExportsKeys K) {n : RadioNode σ κ Q}
    (h : n.Provisioned K tek fhek) :
    (n.start P).1.Provisioned K tek fhek ∨ (n.start P).1.Keyed K tek fhek := by
  have hcalls : n.startKeys P = provisionedCalls P.hsm tek fhek := by
    unfold startKeys provisionedCalls
    rw [if_pos h.keysProvisioned, h.provisionedTek, h.provisionedFhek]
  have hidle : ∀ keyMgr, KeyManager.Owns K keyMgr →
      Provisioned K tek fhek { n with keyMgr } := fun keyMgr howns =>
    ⟨h.state, h.keysProvisioned, h.provisionedTek, h.provisionedFhek, howns, h.peers⟩
  have howns := owns_provisionedCalls tek fhek h.owns
  have hstarts : ¬ n.state ≠ .idle := not_not.mpr h.state
  unfold RadioNode.start
  rw [if_neg hstarts, hcalls]
  rcases hresult : inOrder (provisionedCalls P.hsm tek fhek) n.keyMgr with ⟨m₁, e | u⟩
  · rw [hresult] at howns
    exact .inl (hidle m₁ howns)
  · rw [hresult] at howns
    obtain ⟨hkek, htek, hfhek⟩ := provisionedCalls_ok h.owns hresult
    obtain ⟨howns₂, hmaterial, hraw⟩ := exportFhekForFpga_spec hexport howns
    rcases hexported : KeyManager.exportFhekForFpga P.hsm m₁ with ⟨m₂, e | raw⟩
    · rw [hexported] at howns₂
      simp only [hexported]
      exact .inl (hidle m₂ howns₂)
    · rw [hexported] at howns₂ hmaterial hraw
      have hvalue := hraw raw rfl
      rw [hfhek] at hvalue
      cases hvalue
      simp only [hexported]
      cases hnew : HopSequencer.new fhek kMinFreq kMaxFreq kChannelSpacing with
      | error e => exact .inl (hidle m₂ howns₂)
      | ok hopSeq =>
        refine .inr ⟨(fun hstate => nomatch hstate), ?_, ?_, ⟨hopSeq, rfl, hnew⟩, rfl⟩
        · apply isInitialized_of_material (K := K)
          intro slot
          rw [hmaterial]
          cases slot with
          | kek => exact hkek
          | tek => rw [htek]; rfl
          | fhek => rw [hfhek]; rfl
        · change (KeyManager.material K m₂).key .tek = some tek
          rw [hmaterial]
          exact htek

theorem Prepared.start (hexport : ExportsKeys K) {n : RadioNode σ κ Q}
    (h : n.Prepared K tek fhek) : (n.start P).1.Prepared K tek fhek := by
  refine ⟨?_, ?_⟩
  · obtain ⟨keyMgr, hopSeq, radio, scheduler, state, hnode, -⟩ := start_node n (P := P)
    rw [hnode]
    exact h.own
  · rcases h.keys with hkeys | hkeys
    · exact hkeys.start hexport
    · unfold RadioNode.start
      rw [if_pos hkeys.state]
      exact .inr hkeys

theorem Keyed.hopSeq_eq {n n' : RadioNode σ κ Q} (h : n.Keyed K tek fhek)
    (h' : n'.Keyed K tek fhek) : n'.hopSeq = n.hopSeq := by
  obtain ⟨hopSeq, hseq, hnew⟩ := h.hopSeq
  obtain ⟨hopSeq', hseq', hnew'⟩ := h'.hopSeq
  rw [hnew] at hnew'
  cases hnew'
  exact hseq'.trans hseq.symm

theorem Keyed.of_stays (hdec : DecryptsPurely P.hsm) {n n' : RadioNode σ κ Q}
    (h : n.Keyed K tek fhek) (hstays : Stays P n n') : n'.Keyed K tek fhek where
  state := by
    rw [hstays.state]
    exact h.state
  isInitialized := by
    rw [hstays.keyMgr hdec]
    exact h.isInitialized
  tekValue := by
    unfold RadioNode.tekValue
    rw [hstays.keyMgr hdec]
    exact h.tekValue
  hopSeq := by
    rw [hstays.hopSeq]
    exact h.hopSeq
  txEnabled := hstays.txEnabled.trans h.txEnabled

section Frames
variable [LT Q] [DecidableLT Q] [One Q] [Mul Q] [Zero Q] {limit now : ℕ}
  {read : List (MessageHeader × Bytes)}

/-- The steps of a frame keep a router with its own links only. -/
theorem own_of_steps {n n' : RadioNode σ κ Q}
    (h : ReflTransGen (FrameStep P limit now read) n n') (hown : n.router.Own) :
    n'.router.Own := by
  induction h with
  | refl => exact hown
  | @tail n₁ n₂ _ hstep ih =>
    cases hstep with
    | tune freq => exact ih
    | @data hdr payload _ _ _ =>
      obtain ⟨keyMgr, dataInbox, hnode, -⟩ := openData_node hdr payload n₁ (P := P)
      rw [hnode]
      exact ih
    | @voice hdr payload _ _ _ =>
      obtain ⟨keyMgr, voiceCodec, voiceInbox, hnode, -⟩ := openVoice_node hdr payload n₁ (P := P)
      rw [hnode]
      exact ih
    | beacon _ _ hbeacon =>
      obtain ⟨discovery, router, rfl, hrouter⟩ := onBeacon_node hbeacon
      exact hrouter ih

theorem Prepared.tick (hdec : DecryptsPurely P.hsm) {n n' : RadioNode σ κ Q}
    {c c' : SimChannel S} {result : Throws Unit} (h : n.Prepared K tek fhek)
    (htick : n.tick P limit now c = some (n', c', result)) : n'.Prepared K tek fhek := by
  by_cases hidle : n.state = .idle
  · rw [tick_of_idle hidle] at htick
    cases htick
    exact h
  · obtain ⟨⟨n₁, hsteps, hn'⟩, -⟩ := tick_steps hidle htick
    have hkeys : n.Keyed K tek fhek := by
      rcases h.keys with hkeys | hkeys
      · exact absurd hkeys.state hidle
      · exact hkeys
    have hkeys₁ := hkeys.of_stays hdec (stays_of_steps hsteps)
    have hprepared : n₁.Prepared K tek fhek := ⟨own_of_steps hsteps h.own, .inr hkeys₁⟩
    rcases hn' with rfl | rfl
    · exact hprepared
    · exact ⟨hprepared.own, .inr ⟨hkeys₁.state, hkeys₁.isInitialized, hkeys₁.tekValue,
        hkeys₁.hopSeq, hkeys₁.txEnabled⟩⟩

end Frames
end Nodes
end RadioNode
end Cirradio.Node
