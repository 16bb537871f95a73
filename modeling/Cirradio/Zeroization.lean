import Cirradio.EmissionControl
import Cirradio.HsmShutdown
import Cirradio.KeyFillPort
import Cirradio.KeyIndependence
import Cirradio.NetJoin

/-!
# What a zeroize leaves

A zeroize is meant to leave nothing that depends on a key. It destroys the key objects and
forgets the fill session, but the node also keeps the keys it was provisioned with, the key
of its sequencer, its identity keys and what it has decrypted. Two nodes that do the same
with different keys are compared after it.
-/

namespace Cirradio.Security

/-- What a key fill port keeps of a session. -/
structure FillSession where
  state : FillState
  deviceNonce : Bytes
  gunNonce : Bytes
  deriving DecidableEq, Repr

def FillSession.cleared : FillSession := ⟨.idle, [], []⟩

namespace KeyFillPort
variable {σ : Type}

def fillSession (p : KeyFillPort σ) : FillSession := ⟨p.state, p.deviceNonce, p.gunNonce⟩

theorem fillSession_clearSession (p : KeyFillPort σ) : p.clearSession.fillSession = .cleared := rfl

end KeyFillPort
end Cirradio.Security

namespace Cirradio.Node
open Security Hal Network Tdma Voice Fhss Transec WhileLoops RadioNode

/-- A node with its identity keys and the other places that they are copied to. The handle
of the zeroize engine is one, that of the node itself another. -/
structure SecuredNode (σ κ Q : Type) extends EmconNode σ κ Q where
  identityPrivateKey : Bytes
  identityPublicKey : Bytes
  netJoin : NetJoin
  ownIkHandle : CkHandle
  fill : FillSession

section Calls
variable {S σ κ Q : Type} (P : Platform S σ κ) (nextEcHandle : σ → CkHandle)
  (shutdown : σ → σ)

namespace SecuredNode

/-- A new node, with the HSM as it is after the identity key, and the handle of that. -/
def new (id : UInt32) (hsm : σ) (ikHandle : CkHandle)
    (identityPrivateKey identityPublicKey : Bytes) (c : SimChannel S) : SecuredNode σ κ Q where
  toEmconNode := (EmconNode.new P id hsm ikHandle c).2
  identityPrivateKey := identityPrivateKey
  identityPublicKey := identityPublicKey
  netJoin := .new id identityPrivateKey identityPublicKey
  ownIkHandle := ikHandle
  fill := .cleared

def zeroizeImmediate (s : SecuredNode σ κ Q) : SecuredNode σ κ Q :=
  { s with
      toEmconNode := s.toEmconNode.zeroizeImmediate P shutdown
      fill := if s.zeroized then s.fill else .cleared }

variable [LT Q] [DecidableLT Q] [One Q] [Mul Q] [Zero Q]

def call (limit : ℕ) (s : SecuredNode σ κ Q) (c : SimChannel S) (call : EmconCall) :
    Option (SecuredNode σ κ Q × SimChannel S) :=
  match call with
  | .zeroizeImmediate => some (s.zeroizeImmediate P shutdown, c)
  | call => (s.toEmconNode.call P shutdown limit c call).map fun r =>
      ({ s with toEmconNode := r.1 }, r.2)

end SecuredNode

/-- The same call, or both provision keys. -/
inductive TwinCall : EmconCall → EmconCall → Prop
  | node {call call' : NodeCall} : SameCall call call' → TwinCall (.node call) (.node call')
  | setLevel (level : Int) (unlock : Bool) :
      TwinCall (.setLevel level unlock) (.setLevel level unlock)
  | cliExecute (input : String) : TwinCall (.cliExecute input) (.cliExecute input)
  | zeroizeImmediate : TwinCall .zeroizeImmediate .zeroizeImmediate

/-- A call of two nodes, the nodes before it, and the channel of the first. -/
structure TwinStep (S σ κ Q : Type) where
  call : EmconCall
  left : SecuredNode σ κ Q
  right : SecuredNode σ κ Q
  before : SimChannel S

/-- The runs of two nodes that do the same, with different keys, from HSMs with the same
number of identity keys. Others may change the channels in between, and put the same into
the queues of the nodes. -/
inductive TwinRun [LT Q] [DecidableLT Q] [One Q] [Mul Q] [Zero Q] :
    List (TwinStep S σ κ Q) → SecuredNode σ κ Q → SecuredNode σ κ Q → Prop
  | new (id : UInt32) (hsm hsm' : σ) (ikHandle : CkHandle)
      (privateKey privateKey' publicKey publicKey' : Bytes) (c : SimChannel S) :
      nextEcHandle hsm' = nextEcHandle hsm →
      TwinRun [] (SecuredNode.new P id hsm ikHandle privateKey publicKey c)
        (SecuredNode.new P id hsm' ikHandle privateKey' publicKey' c)
  | call {steps : List (TwinStep S σ κ Q)} {s s' t t' : SecuredNode σ κ Q}
      {c c' d d' : SimChannel S} {call call' : EmconCall} : TwinRun steps s s' →
      TwinCall call call' →
      (∀ freq, c'.buffered s.node.radio.radioId freq = c.buffered s.node.radio.radioId freq) →
      Returns (fun limit => s.call P shutdown limit c call) (t, d) →
      Returns (fun limit => s'.call P shutdown limit c' call') (t', d') →
      TwinRun (steps ++ [⟨call, s, s', c⟩]) t t'

/-- The keys of the nodes yield the same, and a start after a zeroize takes in the same
keys. -/
def TwinStep.Meets (t : TwinStep S σ κ Q) : Prop :=
  match t.call with
  | .node call => t.left.node.Agree P t.right.node t.before call ∧
      (call = .start → t.left.zeroized = true → t.left.node.keysProvisioned = true →
        t.right.node.provisionedTek = t.left.node.provisionedTek ∧
          t.right.node.provisionedFhek = t.left.node.provisionedFhek)
  | _ => True

end Calls

section Twins
variable {S σ κ Q : Type} {P : Platform S σ κ} {nextEcHandle : σ → CkHandle}
  {shutdown : σ → σ}

/-- What two nodes have in common that do the same. -/
structure Twins (nextEcHandle : σ → CkHandle) (s s' : SecuredNode σ κ Q) : Prop where
  node : SameButKeys s.node s'.node
  emcon : s'.emcon = s.emcon
  ikHandle : s'.ikHandle = s.ikHandle
  zeroized : s'.zeroized = s.zeroized
  ownIkHandle : s'.ownIkHandle = s.ownIkHandle
  fill : s'.fill = s.fill
  nextEcHandle : nextEcHandle s'.node.keyMgr.hsm = nextEcHandle s.node.keyMgr.hsm
  keys : s.zeroized = true → s'.node.keyMgr = s.node.keyMgr
  netJoin : ∃ id, s.netJoin = .new id s.identityPrivateKey s.identityPublicKey ∧
    s'.netJoin = .new id s'.identityPrivateKey s'.identityPublicKey

/-- After a zeroize they are equal exactly if the keys are that it leaves. -/
theorem Twins.eq_iff {s s' : SecuredNode σ κ Q} (h : Twins nextEcHandle s s')
    (hzeroized : s.zeroized = true) :
    s = s' ↔ s.identityPrivateKey = s'.identityPrivateKey ∧
      s.identityPublicKey = s'.identityPublicKey ∧
      s.node.provisionedTek = s'.node.provisionedTek ∧
      s.node.provisionedFhek = s'.node.provisionedFhek := by
  constructor
  · rintro rfl
    exact ⟨rfl, rfl, rfl, rfl⟩
  · rintro ⟨hprivate, hpublic, htek, hfhek⟩
    have hnode : s'.node = s.node := by
      refine h.node.trans ?_
      rw [h.keys hzeroized, ← htek, ← hfhek]
      rfl
    have hjoin : s'.netJoin = s.netJoin := by
      obtain ⟨id, hmine, hother⟩ := h.netJoin
      rw [hmine, hother, hprivate, hpublic]
    obtain ⟨-, hemcon, hik, hz, hown, hfill, -, -⟩ := h
    obtain ⟨⟨n, emcon, ik, z⟩, privateKey, publicKey, join, own, fill⟩ := s
    obtain ⟨⟨n', emcon', ik', z'⟩, privateKey', publicKey', join', own', fill'⟩ := s'
    simp only at hnode hemcon hik hz hprivate hpublic hjoin hown hfill
    rw [hnode, hemcon, hik, hz, hprivate, hpublic, hjoin, hown, hfill]

theorem SecuredNode.zeroizeImmediate_zeroized (s : SecuredNode σ κ Q) :
    (s.zeroizeImmediate P shutdown).zeroized = true := by
  unfold zeroizeImmediate EmconNode.zeroizeImmediate
  split
  · next h => exact h
  · rfl

theorem SecuredNode.zeroizeImmediate_node (P : Platform S σ κ) (shutdown : σ → σ)
    (s : SecuredNode σ κ Q) :
    ∃ keyMgr, (s.zeroizeImmediate P shutdown).node = { s.node with keyMgr } := by
  unfold zeroizeImmediate EmconNode.zeroizeImmediate
  split
  · exact ⟨s.node.keyMgr, rfl⟩
  · exact ⟨_, rfl⟩

theorem Twins.zeroizeImmediate (hforgets : Forgets P.hsm nextEcHandle shutdown)
    {s s' : SecuredNode σ κ Q} (h : Twins nextEcHandle s s') :
    Twins nextEcHandle (s.zeroizeImmediate P shutdown) (s'.zeroizeImmediate P shutdown) := by
  by_cases hz : s.zeroized = true
  · have hz' : s'.zeroized = true := h.zeroized.trans hz
    have hsame : s.zeroizeImmediate P shutdown = s := by
      simp only [SecuredNode.zeroizeImmediate, EmconNode.zeroizeImmediate, if_pos hz]
    have hsame' : s'.zeroizeImmediate P shutdown = s' := by
      simp only [SecuredNode.zeroizeImmediate, EmconNode.zeroizeImmediate, if_pos hz']
    rw [hsame, hsame']
    exact h
  · have hz' : ¬ s'.zeroized = true := by
      rw [h.zeroized]
      exact hz
    simp only [SecuredNode.zeroizeImmediate, EmconNode.zeroizeImmediate, if_neg hz, if_neg hz']
    obtain ⟨hsm, hnext, hrun⟩ := hforgets.zeroizeRun nullAxiRegs s.ikHandle s.emcon.regs
      s.node.keyMgr
    obtain ⟨hsm', hnext', hrun'⟩ := hforgets.zeroizeRun nullAxiRegs s'.ikHandle s'.emcon.regs
      s'.node.keyMgr
    have hsame : nextEcHandle hsm' = nextEcHandle hsm := by
      rw [hnext, hnext']
      exact h.nextEcHandle
    have hkeys : (zeroizeRun nullAxiRegs P.hsm shutdown s'.ikHandle s'.emcon.regs
        s'.node.keyMgr).2.1 = (zeroizeRun nullAxiRegs P.hsm shutdown s.ikHandle s.emcon.regs
          s.node.keyMgr).2.1 := by
      rw [hrun, hrun', hforgets.forgets hsm' hsm hsame]
    exact ⟨h.node.withKeyMgr _ _, rfl, rfl, rfl, h.ownIkHandle, rfl,
      congrArg (fun m : KeyManager σ => nextEcHandle m.hsm) hkeys, fun _ => hkeys, h.netJoin⟩

theorem RadioNode.startFhek_nextEcHandle (hforgets : Forgets P.hsm nextEcHandle shutdown)
    (n : RadioNode σ κ Q) :
    nextEcHandle (n.startFhek P).1.hsm = nextEcHandle n.keyMgr.hsm := by
  have hcalls : ∀ call ∈ n.startKeys P, ∀ m : KeyManager σ,
      nextEcHandle (call m).1.hsm = nextEcHandle m.hsm := by
    intro call hcall m
    unfold startKeys at hcall
    split at hcall
    · simp only [List.mem_cons, List.not_mem_nil, or_false] at hcall
      rcases hcall with rfl | rfl | rfl
      · exact hforgets.generateInto .kek "kek" m
      · exact hforgets.importInto .tek "tek" n.provisionedTek m
      · exact hforgets.importInto .fhek "fhek" n.provisionedFhek m
    · split at hcall
      · simp only [List.mem_cons, List.not_mem_nil, or_false] at hcall
        rcases hcall with rfl | rfl | rfl
        · exact hforgets.generateInto .kek "kek" m
        · exact hforgets.generateInto .tek "tek" m
        · exact hforgets.generateInto .fhek "fhek" m
      · exact (List.not_mem_nil hcall).elim
  have hkeys := Forgets.inOrder (n.startKeys P) hcalls n.keyMgr
  unfold startFhek
  generalize inOrder (n.startKeys P) n.keyMgr = r at hkeys ⊢
  rcases r with ⟨m, e | u⟩
  · exact hkeys
  · exact (hforgets.exportKey _ _ _ m).trans hkeys

section Run
variable [LT Q] [DecidableLT Q] [One Q] [Mul Q] [Zero Q]

/-- The calls of a node leave the counter of the identity handles alone. -/
theorem RadioNode.call_nextEcHandle (hdec : DecryptsPurely P.hsm)
    (hforgets : Forgets P.hsm nextEcHandle shutdown) {limit : ℕ} {n n' : RadioNode σ κ Q}
    {c c' : SimChannel S} {call : NodeCall} (h : n.call P limit c call = some (n', c')) :
    nextEcHandle n'.keyMgr.hsm = nextEcHandle n.keyMgr.hsm := by
  cases call with
  | tick now =>
    obtain ⟨⟨m, e, r⟩, hr, heq⟩ := Option.map_eq_some_iff.mp h
    cases heq
    rw [tick_keyMgr hdec hr]
  | start =>
    cases h
    rw [start_keyMgr]
    split
    · exact startFhek_nextEcHandle hforgets n
    · rfl
  | sendData dest payload =>
    cases h
    rw [sendData_keyMgr]
    split
    · rfl
    · exact hforgets.encryptWithTek payload n.keyMgr
  | voiceTx dest audio =>
    cases h
    rw [voiceTx_keyMgr]
    split
    · rfl
    · cases (n.voiceCodec.encode P.codec2 audio).2.toOption with
      | none => rfl
      | some encoded => exact hforgets.encryptWithTek encoded n.keyMgr
  | provisionKeys tek fhek => cases h; rfl
  | receiveData => cases h; rfl
  | voiceRx => cases h; rfl

/-- A call that meets the condition leaves them twins. -/
theorem Twins.call (hdec : DecryptsPurely P.hsm) (hforgets : Forgets P.hsm nextEcHandle shutdown)
    {limit : ℕ} {s s' t t' : SecuredNode σ κ Q} {c c' d d' : SimChannel S}
    {call call' : EmconCall} (h : Twins nextEcHandle s s') (hcalls : TwinCall call call')
    (hqueues : ∀ freq,
      c'.buffered s.node.radio.radioId freq = c.buffered s.node.radio.radioId freq)
    (hmeets : TwinStep.Meets P ⟨call, s, s', c⟩)
    (hcall : s.call P shutdown limit c call = some (t, d))
    (hcall' : s'.call P shutdown limit c' call' = some (t', d')) : Twins nextEcHandle t t' := by
  cases hcalls with
  | @node nodeCall nodeCall' hsame =>
    obtain ⟨hagree, hstart⟩ := hmeets
    obtain ⟨⟨e, d₁⟩, he, heq⟩ := Option.map_eq_some_iff.mp hcall
    obtain ⟨⟨e', d₁'⟩, he', heq'⟩ := Option.map_eq_some_iff.mp hcall'
    cases heq
    cases heq'
    obtain ⟨⟨n, d₂⟩, hn, heq⟩ := Option.map_eq_some_iff.mp he
    obtain ⟨⟨n', d₂'⟩, hn', heq'⟩ := Option.map_eq_some_iff.mp he'
    cases heq
    cases heq'
    exact
      { h with
        node := h.node.call hdec hsame hqueues hagree hn hn'
        nextEcHandle := by
          rw [call_nextEcHandle hdec hforgets hn, call_nextEcHandle hdec hforgets hn']
          exact h.nextEcHandle
        keys := fun hz => h.node.keyMgr_call hdec hsame (h.keys hz)
          (fun hcall => hstart hcall hz) hn hn' }
  | setLevel level unlock =>
    cases hcall
    cases hcall'
    exact { h with emcon := by simp only [h.emcon] }
  | cliExecute input =>
    cases hcall
    cases hcall'
    exact { h with emcon := by simp only [h.emcon] }
  | zeroizeImmediate =>
    cases hcall
    cases hcall'
    exact h.zeroizeImmediate hforgets

theorem TwinRun.twins (hdec : DecryptsPurely P.hsm)
    (hforgets : Forgets P.hsm nextEcHandle shutdown) {steps : List (TwinStep S σ κ Q)}
    {s s' : SecuredNode σ κ Q} (h : TwinRun P nextEcHandle shutdown steps s s')
    (hmeets : ∀ t ∈ steps, t.Meets P) : Twins nextEcHandle s s' := by
  induction h with
  | new id hsm hsm' ikHandle privateKey privateKey' publicKey publicKey' c hnext =>
    exact ⟨rfl, rfl, rfl, rfl, rfl, rfl, hnext, nofun, ⟨id, rfl, rfl⟩⟩
  | @call steps s s' t t' c c' d d' call call' _ hcalls hqueues hreturns hreturns' ih =>
    have htwins := ih fun t ht => hmeets t (List.mem_append_left _ ht)
    obtain ⟨limit, hlimit⟩ := hreturns
    obtain ⟨limit', hlimit'⟩ := hreturns'
    exact htwins.call hdec hforgets hcalls hqueues
      (hmeets _ (List.mem_append_right _ List.mem_cons_self))
      (hlimit _ (Nat.le_max_left limit limit')) (hlimit' _ (Nat.le_max_right limit limit'))

/-- When every call meets the condition, two nodes that do the same with different keys are
equal after a zeroize exactly if their identity keys and the keys they were last provisioned
with are the same. -/
theorem zeroized_eq_iff (hdec : DecryptsPurely P.hsm)
    (hforgets : Forgets P.hsm nextEcHandle shutdown) {steps : List (TwinStep S σ κ Q)}
    {s s' : SecuredNode σ κ Q} (h : TwinRun P nextEcHandle shutdown steps s s')
    (hmeets : ∀ t ∈ steps, t.Meets P) :
    s.zeroizeImmediate P shutdown = s'.zeroizeImmediate P shutdown ↔
      s.identityPrivateKey = s'.identityPrivateKey ∧
        s.identityPublicKey = s'.identityPublicKey ∧
        s.node.provisionedTek = s'.node.provisionedTek ∧
        s.node.provisionedFhek = s'.node.provisionedFhek := by
  have htwins := (h.twins hdec hforgets hmeets).zeroizeImmediate hforgets
  rw [htwins.eq_iff s.zeroizeImmediate_zeroized]
  obtain ⟨keyMgr, hnode⟩ := s.zeroizeImmediate_node P shutdown
  obtain ⟨keyMgr', hnode'⟩ := s'.zeroizeImmediate_node P shutdown
  rw [hnode, hnode']
  rfl

end Run
end Twins

/-- Whatever two nodes have done with different keys, they are equal after a zeroize, if the
HSM forgets at its shutdown. -/
def ZeroizationForgets : Prop :=
  ∀ (S σ κ Q : Type) [LT Q] [DecidableLT Q] [One Q] [Mul Q] [Zero Q] (P : Platform S σ κ)
    (nextEcHandle : σ → CkHandle) (shutdown : σ → σ), DecryptsPurely P.hsm →
    Forgets P.hsm nextEcHandle shutdown →
    ∀ (steps : List (TwinStep S σ κ Q)) (s s' : SecuredNode σ κ Q),
      TwinRun P nextEcHandle shutdown steps s s' →
        s.zeroizeImmediate P shutdown = s'.zeroizeImmediate P shutdown

abbrev SampleSecured := SecuredNode (List (Option Bytes)) Unit MeshRouter.Percent

abbrev SampleTwinStep := TwinStep UInt8 (List (Option Bytes)) Unit MeshRouter.Percent

/-- Node 1 with identity keys, new and after its keys are provisioned, started and
provisioned again. -/
def newSecured : SampleSecured := .new samplePlatform 1 [] 1 [1] [2] sharedChannel

def provisionedSecured (tek fhek : Bytes) (s : SampleSecured) : SampleSecured :=
  { s with node := s.node.provisionKeys tek fhek }

def startedSecured (s : SampleSecured) : SampleSecured :=
  { s with node := (s.node.start samplePlatform).1 }

section Samples
variable {nextEcHandle : List (Option Bytes) → CkHandle}
  {shutdown : List (Option Bytes) → List (Option Bytes)} {steps : List SampleTwinStep}
  {s s' : SampleSecured}

theorem tableHsm_forgets : Forgets tableHsm (fun _ => 0) fun _ => [] :=
  ⟨fun _ _ _ => rfl, fun _ => rfl, fun _ _ _ => rfl, fun _ _ _ => rfl, fun _ _ => rfl,
    fun _ _ _ => rfl, fun _ _ => rfl⟩

theorem TwinRun.provisioned (h : TwinRun samplePlatform nextEcHandle shutdown steps s s')
    (tek tek' fhek : Bytes) : TwinRun samplePlatform nextEcHandle shutdown
      (steps ++ [⟨.node (.provisionKeys tek fhek), s, s', sharedChannel⟩])
      (provisionedSecured tek fhek s) (provisionedSecured tek' fhek s') :=
  h.call (.node (.provisionKeys tek fhek tek' fhek)) (fun _ => rfl) ⟨0, fun _ _ => rfl⟩
    ⟨0, fun _ _ => rfl⟩

theorem TwinRun.started (h : TwinRun samplePlatform nextEcHandle shutdown steps s s') :
    TwinRun samplePlatform nextEcHandle shutdown (steps ++ [⟨.node .start, s, s', sharedChannel⟩])
      (startedSecured s) (startedSecured s') :=
  h.call (.node (.same .start)) (fun _ => rfl) ⟨0, fun _ _ => rfl⟩ ⟨0, fun _ _ => rfl⟩

end Samples

def sampleTek : Bytes := List.replicate 32 0xAA

def otherTek : Bytes := List.replicate 32 0xCC

def sampleFhek : Bytes := List.replicate 32 0xBB

/-- Two nodes that have been started with different TEKs are equal after a zeroize, if they
have then been provisioned with the same. -/
theorem zeroized_eq_iff_provisioned : ∃ (steps : List SampleTwinStep) (s s' : SampleSecured),
    TwinRun samplePlatform (fun _ => 0) (fun _ => []) steps s s' ∧
      s.node.keyMgr.hsm ≠ s'.node.keyMgr.hsm ∧
      s.zeroizeImmediate samplePlatform (fun _ => []) =
        s'.zeroizeImmediate samplePlatform (fun _ => []) := by
  have hnew : TwinRun samplePlatform (fun _ => 0) (fun _ => []) [] newSecured newSecured :=
    .new 1 [] [] 1 [1] [1] [2] [2] sharedChannel rfl
  have hrun := ((hnew.provisioned sampleTek otherTek sampleFhek).started).provisioned sampleTek
    sampleTek sampleFhek
  refine ⟨_, _, _, hrun, by decide, (zeroized_eq_iff samplePlatform_decrypts tableHsm_forgets
    hrun fun t ht => ?_).mpr ⟨rfl, rfl, rfl, rfl⟩⟩
  simp only [List.nil_append, List.cons_append, List.mem_cons, List.not_mem_nil,
    or_false] at ht
  rcases ht with rfl | rfl | rfl
  · exact ⟨trivial, nofun⟩
  · refine ⟨fun _ => by decide, fun _ hz => ?_⟩
    cases hz
  · exact ⟨trivial, nofun⟩

/-- The TEK that a node was provisioned with is still there after a zeroize. -/
theorem not_zeroizationForgets : ¬ ZeroizationForgets := by
  intro h
  have hnew : TwinRun samplePlatform (fun _ => 0) (fun _ => []) [] newSecured newSecured :=
    .new 1 [] [] 1 [1] [1] [2] [2] sharedChannel rfl
  have hrun := (hnew.provisioned sampleTek otherTek sampleFhek).started
  have heq := h _ _ _ _ samplePlatform (fun _ => 0) (fun _ => []) samplePlatform_decrypts
    tableHsm_forgets _ _ _ hrun
  have htek : sampleTek = otherTek := congrArg (fun s => s.node.provisionedTek) heq
  exact absurd htek (by decide)

end Cirradio.Node
