import Cirradio.NetJoin
import Cirradio.SingleUseSlots

/-!
# Sessions of the net-join responder

The responder is run on arbitrary sequences of its calls. Its pending challenges are
single-use slots keyed by the joiner id: a join request issues a nonce, and every
response redeems it, whether or not it is accepted.
-/

namespace Cirradio.Network
open Security CallRuns OrderedMaps

namespace NetJoin

inductive Call where
  | addTrustedNode (nodeId : UInt32) (publicKey : Bytes)
  | createChallenge (request : JoinRequest) (nonce : RandBytes kNonceSize)
  | verifyAndAccept (response : ChallengeResponse) (tek fhek : Bytes)
      (ivs : Option (RandBytes kIvSize) × Option (RandBytes kIvSize))

inductive Reply where
  | done
  | challenge (challenge : Challenge)
  | accept (result : JoinAccept)

/-- The joiner id in a request or response. -/
def Call.joiner : Call → Option UInt32
  | .addTrustedNode _ _ => none
  | .createChallenge request _ => some request.nodeId
  | .verifyAndAccept response _ _ _ => some response.joinerId

variable (ssl : OpenSsl)

def step (n : NetJoin) : Call → NetJoin × Reply
  | .addTrustedNode nodeId publicKey => (n.addTrustedNode nodeId publicKey, .done)
  | .createChallenge request nonce =>
    ((n.createChallenge request nonce).1, .challenge (n.createChallenge request nonce).2)
  | .verifyAndAccept response tek fhek ivs =>
    ((n.verifyAndAccept ssl ivs response tek fhek).1,
      .accept (n.verifyAndAccept ssl ivs response tek fhek).2)

/-- The call at a position is a response that is accepted. -/
def AcceptsAt (n : NetJoin) (calls : List Call) (i : ℕ) : Prop :=
  ∃ result, reply (step ssl) n calls i = some (.accept result) ∧ result.accepted = true

/-- The response at position `i` answers the challenge created at position `j`. -/
def Answers (n : NetJoin) (calls : List Call) (j i : ℕ) : Prop :=
  ∃ request nonce response tek fhek ivs,
    calls[j]? = some (.createChallenge request nonce) ∧
    calls[i]? = some (.verifyAndAccept response tek fhek ivs) ∧
    j < i ∧ request.nodeId = response.joinerId ∧ response.nonce = nonce.toList ∧
    (∀ m, j < m → m < i → ∀ c, calls[m]? = some c → c.joiner ≠ some response.joinerId) ∧
    ∃ key, (after (step ssl) n (calls.take i)).trustedKeys[response.joinerId]? = some key ∧
      ssl.ecVerify key response.nonce response.signature = true

/-- What a call does to the pending nonces. -/
def Call.toSlotOp : Call → SingleUseSlots.Op UInt32 Bytes
  | .addTrustedNode _ _ => .skip
  | .createChallenge request nonce => .issue request.nodeId nonce.toList
  | .verifyAndAccept response _ _ _ => .redeem response.joinerId

@[simp] theorem Call.key_toSlotOp (c : Call) : c.toSlotOp.key = c.joiner := by
  cases c <;> rfl

def pendingNonce (n : NetJoin) (joinerId : UInt32) : Option Bytes :=
  n.pendingChallenges[joinerId]?.map Challenge.nonce

theorem pendingNonce_step (n : NetJoin) (c : Call) :
    (step ssl n c).1.pendingNonce = (SingleUseSlots.step n.pendingNonce c.toSlotOp).1 := by
  funext id
  cases c with
  | addTrustedNode nodeId publicKey => rfl
  | createChallenge request nonce =>
    simp only [step, pendingNonce, createChallenge, Call.toSlotOp, SingleUseSlots.step,
      getElem?_insert_ite, Function.update_apply]
    split_ifs <;> rfl
  | verifyAndAccept response tek fhek ivs =>
    simp only [step, verifyAndAccept_state, pendingNonce, erasePending, Call.toSlotOp,
      SingleUseSlots.step, getElem?_erase_ite, Function.update_apply]
    split_ifs <;> rfl

theorem pendingNonce_after (n : NetJoin) (calls : List Call) :
    (after (step ssl) n calls).pendingNonce =
      after SingleUseSlots.step n.pendingNonce (calls.map Call.toSlotOp) := by
  induction calls generalizing n with
  | nil => rfl
  | cons c calls ih => rw [after_cons, ih, pendingNonce_step, List.map_cons, after_cons]

theorem pendingNonce_new (nodeId : UInt32) (privateKey publicKey : Bytes) :
    (new nodeId privateKey publicKey).pendingNonce = SingleUseSlots.empty := by
  funext id
  simp [new, pendingNonce, SingleUseSlots.empty]

variable {ssl}

theorem AcceptsAt.call {n : NetJoin} {calls : List Call} {i : ℕ}
    (h : AcceptsAt ssl n calls i) :
    ∃ response tek fhek ivs result,
      calls[i]? = some (.verifyAndAccept response tek fhek ivs) ∧
      Accepts ssl ivs (after (step ssl) n (calls.take i)) response tek fhek result := by
  obtain ⟨result, hr, hacc⟩ := h
  obtain ⟨c, hc, hstep⟩ := reply_eq_some.mp hr
  cases c with
  | addTrustedNode nodeId publicKey => cases hstep
  | createChallenge request nonce => cases hstep
  | verifyAndAccept response tek fhek ivs =>
    cases hstep
    exact ⟨response, tek, fhek, ivs, _, hc, accepts_of_accepted hacc⟩

theorem AcceptsAt.redeems {nodeId : UInt32} {privateKey publicKey : Bytes}
    {calls : List Call} {i : ℕ} {response : ChallengeResponse} {tek fhek : Bytes}
    {ivs : Option (RandBytes kIvSize) × Option (RandBytes kIvSize)} {result : JoinAccept}
    (hc : calls[i]? = some (.verifyAndAccept response tek fhek ivs))
    (h : Accepts ssl ivs (after (step ssl) (new nodeId privateKey publicKey) (calls.take i))
      response tek fhek result) :
    SingleUseSlots.Redeems (calls.map Call.toSlotOp) i response.joinerId response.nonce := by
  obtain ⟨challenge, hp, hn⟩ := h.pending
  refine ⟨by rw [List.getElem?_map, hc]; rfl, ?_⟩
  have hnonce := congrFun (pendingNonce_after ssl (new nodeId privateKey publicKey)
    (calls.take i)) response.joinerId
  rw [pendingNonce_new, List.map_take] at hnonce
  rw [← hnonce, pendingNonce, hp, hn]
  rfl

/-- Injective agreement of the responder: every accepted response has its own earlier
challenge for the same joiner and nonce, with no other request or response of that
joiner in between, and its signature verified under the key then trusted. -/
theorem accepts_injective_agreement (ssl : OpenSsl) (nodeId : UInt32)
    (privateKey publicKey : Bytes) (calls : List Call) :
    ∃ m : ℕ → ℕ,
      (∀ i, AcceptsAt ssl (new nodeId privateKey publicKey) calls i →
        Answers ssl (new nodeId privateKey publicKey) calls (m i) i) ∧
      Set.InjOn m {i | AcceptsAt ssl (new nodeId privateKey publicKey) calls i} := by
  obtain ⟨m, hm, hinj⟩ :=
    SingleUseSlots.injective_agreement (calls.map Call.toSlotOp)
  refine ⟨m, ?_, hinj.mono ?_⟩
  · intro i hi
    obtain ⟨response, tek, fhek, ivs, result, hc, hacc⟩ := hi.call
    obtain ⟨hlt, hissue, hquiet⟩ := hm i _ _ (AcceptsAt.redeems hc hacc)
    rw [List.getElem?_map] at hissue
    obtain ⟨c, hcall, hop⟩ := Option.map_eq_some_iff.mp hissue
    cases c with
    | addTrustedNode nodeId publicKey => cases hop
    | verifyAndAccept response tek fhek ivs => cases hop
    | createChallenge request nonce =>
      obtain ⟨hid, hnonce⟩ := SingleUseSlots.Op.issue.inj hop
      refine ⟨request, nonce, response, tek, fhek, ivs, hcall, hc, hlt, hid, hnonce.symm,
        ?_, hacc.trusted⟩
      intro k hjk hki c hck
      rw [← Call.key_toSlotOp]
      exact hquiet k hjk hki c.toSlotOp (by rw [List.getElem?_map, hck]; rfl)
  · intro i hi
    obtain ⟨response, tek, fhek, ivs, result, hc, hacc⟩ := AcceptsAt.call hi
    exact ⟨_, _, AcceptsAt.redeems hc hacc⟩

/-- A message on the air, whoever has sent it. -/
def Call.OnAir : Call → Prop
  | .addTrustedNode _ _ => False
  | .createChallenge _ _ => True
  | .verifyAndAccept _ _ _ _ => True

/-- A message of a party without keys: any request, or a response whose signature does not
verify under the key that is trusted for its id. -/
def Call.Injected (ssl : OpenSsl) (responder : NetJoin) : Call → Prop
  | .addTrustedNode _ _ => False
  | .createChallenge _ _ => True
  | .verifyAndAccept response _ _ _ => ∀ key, responder.trustedKeys[response.joinerId]? = some key →
    ssl.ecVerify key response.nonce response.signature = false

/-- A join of an honest node, with the calls that reach the responder before its
request and between its challenge and its response. -/
def joinOutcome (ssl : OpenSsl) (responder joiner : NetJoin) (before between : List Call)
    (nonce : RandBytes kNonceSize) (coins tek fhek : Bytes)
    (ivs : Option (RandBytes kIvSize) × Option (RandBytes kIvSize)) : JoinAccept :=
  let requested := after (step ssl) responder before
  let challenged := requested.createChallenge joiner.createJoinRequest nonce
  let answered := after (step ssl) challenged.1 between
  (answered.verifyAndAccept ssl ivs (joiner.signChallenge ssl coins challenged.2) tek fhek).2

/-- Every join of a trusted node that signs its challenge correctly succeeds, whatever
is injected. -/
def CancelResistant (ssl : OpenSsl) : Prop :=
  ∀ (responder joiner : NetJoin) (before between : List Call)
    (nonce : RandBytes kNonceSize) (coins tek fhek : Bytes) (ivTek ivFhek : RandBytes kIvSize),
    responder.trustedKeys[joiner.nodeId]? = some joiner.publicKey →
    (∀ c ∈ before, c.Injected ssl responder) → (∀ c ∈ between, c.Injected ssl responder) →
    ssl.ecVerify joiner.publicKey nonce.toList
      ((ssl.ecSign joiner.privateKey nonce.toList coins).getD []) = true →
    (joinOutcome ssl responder joiner before between nonce coins tek fhek
      (some ivTek, some ivFhek)).accepted = true

/-- One forged join request for the joiner's id, handled between its challenge and its
response, cancels the join. -/
theorem not_cancelResistant : ¬ CancelResistant xorSsl := by
  intro h
  have hacc := h ((new 1 [1] [1]).addTrustedNode 2 [2]) (new 2 [2] [2]) []
    [.createChallenge ⟨2, []⟩ (Vector.replicate kNonceSize 1)] (Vector.replicate kNonceSize 0)
    [] [] [] (Vector.replicate kIvSize 0) (Vector.replicate kIvSize 0)
    (by decide) (by simp) (by simp [Call.Injected]) (by decide)
  exact absurd hacc (by decide)

theorem trustedKeys_after {calls : List Call} (n : NetJoin)
    (h : ∀ c ∈ calls, c.OnAir) :
    (after (step ssl) n calls).trustedKeys = n.trustedKeys := by
  induction calls generalizing n with
  | nil => rfl
  | cons c calls ih =>
    rw [after_cons, ih _ (fun c' h' => h c' (List.mem_cons_of_mem _ h'))]
    cases c with
    | addTrustedNode nodeId publicKey => exact (h _ List.mem_cons_self).elim
    | createChallenge request nonce => rfl
    | verifyAndAccept response tek fhek ivs => simp [step, verifyAndAccept_state]

theorem pendingNonce_between (ssl : OpenSsl) (n joiner : NetJoin) (between : List Call)
    (nonce : RandBytes kNonceSize) :
    (after (step ssl) (n.createChallenge joiner.createJoinRequest nonce).1
        between).pendingNonce joiner.nodeId =
      after SingleUseSlots.step
        (Function.update n.pendingNonce joiner.nodeId (some nonce.toList))
        (between.map Call.toSlotOp) joiner.nodeId := by
  have hissue := pendingNonce_step ssl n (.createChallenge joiner.createJoinRequest nonce)
  rw [pendingNonce_after]
  exact congrArg (fun t => after SingleUseSlots.step t (between.map Call.toSlotOp)
    joiner.nodeId) hissue

/-- The honest response meets every check, whatever comes before its challenge, and whatever
comes under other ids until it arrives. -/
theorem accepts_honest_response {ssl : OpenSsl} (hgcm : ssl.GcmTotal)
    {responder joiner : NetJoin} (before between : List Call)
    {nonce : RandBytes kNonceSize} {coins : Bytes} (tek fhek : Bytes)
    (ivTek ivFhek : RandBytes kIvSize)
    (htrusted : responder.trustedKeys[joiner.nodeId]? = some joiner.publicKey)
    (hbefore : ∀ c ∈ before, c.OnAir) (hbetween : ∀ c ∈ between, c.OnAir)
    (hsigned : ssl.ecVerify joiner.publicKey nonce.toList
      ((ssl.ecSign joiner.privateKey nonce.toList coins).getD []) = true)
    (hothers : ∀ c ∈ between, c.joiner ≠ some joiner.nodeId) :
    ∃ result, Accepts ssl (some ivTek, some ivFhek)
      (after (step ssl) ((after (step ssl) responder before).createChallenge
        joiner.createJoinRequest nonce).1 between)
      (joiner.signChallenge ssl coins ((after (step ssl) responder before).createChallenge
        joiner.createJoinRequest nonce).2) tek fhek result := by
  have hnonce := pendingNonce_between ssl (after (step ssl) responder before) joiner between
    nonce
  have hquiet : ∀ op ∈ between.map Call.toSlotOp, op.key ≠ some joiner.nodeId := by
    intro op hop
    obtain ⟨c, hc, rfl⟩ := List.mem_map.mp hop
    rw [Call.key_toSlotOp]
    exact hothers c hc
  rw [SingleUseSlots.after_of_keys_ne _ _ hquiet, Function.update_self] at hnonce
  obtain ⟨challenge, hp, hn⟩ := Option.map_eq_some_iff.mp hnonce
  obtain ⟨ctTek, tagTek, -, ht⟩ := aesGcmEncrypt_nonce hgcm ivTek nonce tek
  obtain ⟨ctFhek, tagFhek, -, hf⟩ := aesGcmEncrypt_nonce hgcm ivFhek nonce fhek
  refine ⟨⟨true, ivTek.toList ++ ctTek ++ tagTek.toList,
    ivFhek.toList ++ ctFhek ++ tagFhek.toList⟩, ⟨challenge, hp, hn.symm⟩,
    ⟨joiner.publicKey, ?_, hsigned⟩, ht, hf⟩
  rw [trustedKeys_after _ hbetween, createChallenge_trustedKeys, trustedKeys_after _ hbefore]
  exact htrusted

/-- An honest join succeeds whatever messages come before its challenge, and whatever come under
other ids until its response, signed or not. -/
theorem honest_join_accepted (ssl : OpenSsl) (hgcm : ssl.GcmTotal)
    (responder joiner : NetJoin) (before between : List Call)
    (nonce : RandBytes kNonceSize) (coins tek fhek : Bytes) (ivTek ivFhek : RandBytes kIvSize)
    (htrusted : responder.trustedKeys[joiner.nodeId]? = some joiner.publicKey)
    (hbefore : ∀ c ∈ before, c.OnAir) (hbetween : ∀ c ∈ between, c.OnAir)
    (hsigned : ssl.ecVerify joiner.publicKey nonce.toList
      ((ssl.ecSign joiner.privateKey nonce.toList coins).getD []) = true)
    (hothers : ∀ c ∈ between, c.joiner ≠ some joiner.nodeId) :
    (joinOutcome ssl responder joiner before between nonce coins tek fhek
      (some ivTek, some ivFhek)).accepted = true := by
  obtain ⟨result, hacc⟩ := accepts_honest_response hgcm before between tek fhek ivTek
    ivFhek htrusted hbefore hbetween hsigned hothers
  exact congrArg JoinAccept.accepted hacc.result_eq

/-- Another party answers under the key 9, which nobody trusts. -/
theorem honest_join_accepted_beside_other :
    (joinOutcome xorSsl ((new 1 [1] [1]).addTrustedNode 2 [2]) (new 2 [2] [2])
      [.createChallenge ⟨2, []⟩ (Vector.replicate kNonceSize 1)]
      [.createChallenge ⟨3, []⟩ (Vector.replicate kNonceSize 1),
        .verifyAndAccept ⟨3, [1], [9, 1]⟩ [] [] (none, none)]
      (Vector.replicate kNonceSize 0) [] [5] [6]
      (some (Vector.replicate kIvSize 0), some (Vector.replicate kIvSize 0))).accepted = true :=
  honest_join_accepted xorSsl (fun _ _ _ _ => rfl) _ _ _ _ _ _ _ _ _ _
    (by decide) (by simp [Call.OnAir]) (by simp [Call.OnAir]) (by decide) (by decide)

/-- Any message under the joiner's id, handled between its challenge and its response,
cancels the join, unless it is a request that draws the same nonce again. -/
theorem honest_join_cancelled (ssl : OpenSsl) (responder joiner : NetJoin)
    (before between : List Call) (nonce : RandBytes kNonceSize) (coins tek fhek : Bytes)
    (ivs : Option (RandBytes kIvSize) × Option (RandBytes kIvSize))
    (hhit : ∃ c ∈ between, c.joiner = some joiner.nodeId)
    (hfresh : ∀ request nonce', .createChallenge request nonce' ∈ between →
      request.nodeId = joiner.nodeId → nonce'.toList ≠ nonce.toList) :
    (joinOutcome ssl responder joiner before between nonce coins tek fhek ivs).accepted =
      false := by
  apply Bool.eq_false_iff.mpr
  intro hacc
  obtain ⟨challenge, hp, hn⟩ := (accepts_of_accepted hacc).pending
  have hheld : (after (step ssl) ((after (step ssl) responder before).createChallenge
      joiner.createJoinRequest nonce).1 between).pendingNonce joiner.nodeId =
        some nonce.toList := by
    have hn' : nonce.toList = challenge.nonce := hn
    rw [hn']
    exact Option.map_eq_some_iff.mpr ⟨challenge, hp, rfl⟩
  rw [pendingNonce_between] at hheld
  rcases SingleUseSlots.after_cases
    (Function.update (after (step ssl) responder before).pendingNonce joiner.nodeId
      (some nonce.toList)) (between.map Call.toSlotOp) joiner.nodeId
    with hquiet | ⟨v, hissue, hv⟩ | ⟨-, hnone⟩
  · obtain ⟨c, hc, hid⟩ := hhit
    exact hquiet c.toSlotOp (List.mem_map.mpr ⟨c, hc, rfl⟩) (by rw [Call.key_toSlotOp, hid])
  · obtain ⟨c, hc, hop⟩ := List.mem_map.mp hissue
    cases c with
    | addTrustedNode nodeId publicKey => cases hop
    | verifyAndAccept response tek fhek ivs => cases hop
    | createChallenge request nonce' =>
      obtain ⟨hid, hval⟩ := SingleUseSlots.Op.issue.inj hop
      exact hfresh request nonce' hc hid (hval.trans (Option.some.inj (hv.symm.trans hheld)))
  · rw [hnone] at hheld
    cases hheld

end NetJoin
end Cirradio.Network
