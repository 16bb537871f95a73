import Cirradio.NetJoinSessions
import Cirradio.ProjectedRuns

/-!
# Join sessions of different nodes

A joiner's view of the responder is its own pending challenge and its own trusted key.
Requests and responses of other nodes leave it alone.
-/

namespace Cirradio.Network
open Security CallRuns OrderedMaps

namespace NetJoin

/-- A request or response of the joiner. -/
def Call.isOf (joinerId : UInt32) (c : Call) : Bool := c.joiner == some joinerId

/-- The call carries no other node's id. -/
def Call.concerns (joinerId : UInt32) (c : Call) : Bool := c.joiner.all (· == joinerId)

theorem Call.concerns_of_isOf {joinerId : UInt32} {c : Call} (h : c.isOf joinerId = true) :
    c.concerns joinerId = true := by
  have hid : c.joiner = some joinerId := eq_of_beq h
  rw [Call.concerns, hid, Option.all_some, beq_self_eq_true]

/-- What the responder holds for the joiner is the same. -/
structure SameFor (joinerId : UInt32) (n n' : NetJoin) : Prop where
  nodeId : n.nodeId = n'.nodeId
  pending : n.pendingChallenges[joinerId]? = n'.pendingChallenges[joinerId]?
  trusted : n.trustedKeys[joinerId]? = n'.trustedKeys[joinerId]?

variable {joinerId : UInt32} {n n' : NetJoin}

theorem SameFor.refl (joinerId : UInt32) (n : NetJoin) : SameFor joinerId n n := ⟨rfl, rfl, rfl⟩

theorem SameFor.addTrustedNode (h : SameFor joinerId n n') (nodeId : UInt32) (publicKey : Bytes) :
    SameFor joinerId (n.addTrustedNode nodeId publicKey) (n'.addTrustedNode nodeId publicKey) := by
  refine ⟨h.nodeId, h.pending, ?_⟩
  simp only [NetJoin.addTrustedNode, getElem?_insert_ite, h.trusted]

theorem SameFor.createChallenge (h : SameFor joinerId n n') (request : JoinRequest)
    (nonce : RandBytes kNonceSize) :
    SameFor joinerId (n.createChallenge request nonce).1 (n'.createChallenge request nonce).1 := by
  refine ⟨h.nodeId, ?_, h.trusted⟩
  simp only [NetJoin.createChallenge, getElem?_insert_ite, h.pending, h.nodeId]

theorem SameFor.erasePending (h : SameFor joinerId n n') (nodeId : UInt32) :
    SameFor joinerId (n.erasePending nodeId) (n'.erasePending nodeId) := by
  refine ⟨h.nodeId, ?_, h.trusted⟩
  simp only [NetJoin.erasePending, getElem?_erase_ite, h.pending]

theorem SameFor.createChallenge_other (h : SameFor joinerId n n') {request : JoinRequest}
    (hother : request.nodeId ≠ joinerId) (nonce : RandBytes kNonceSize) :
    SameFor joinerId (n.createChallenge request nonce).1 n' := by
  refine ⟨h.nodeId, ?_, h.trusted⟩
  simp only [NetJoin.createChallenge, getElem?_insert_ite]
  rw [if_neg hother.symm, h.pending]

theorem SameFor.erasePending_other (h : SameFor joinerId n n') {nodeId : UInt32}
    (hother : nodeId ≠ joinerId) : SameFor joinerId (n.erasePending nodeId) n' := by
  refine ⟨h.nodeId, ?_, h.trusted⟩
  simp only [NetJoin.erasePending, getElem?_erase_ite]
  rw [if_neg hother.symm, h.pending]

/-- A response is judged by what is held for its joiner. -/
theorem SameFor.verifyAndAccept {response : ChallengeResponse}
    (h : SameFor response.joinerId n n') (ssl : OpenSsl)
    (ivs : Option (RandBytes kIvSize) × Option (RandBytes kIvSize)) (tek fhek : Bytes) :
    (n.verifyAndAccept ssl ivs response tek fhek).2 =
      (n'.verifyAndAccept ssl ivs response tek fhek).2 := by
  unfold NetJoin.verifyAndAccept
  rw [h.pending, h.trusted]
  cases n'.pendingChallenges[response.joinerId]? with
  | none => rfl
  | some challenge =>
    dsimp only
    split_ifs
    · rfl
    · cases n'.trustedKeys[response.joinerId]? with
      | none => rfl
      | some key =>
        dsimp only
        split_ifs
        · rfl
        · split <;> rfl

/-- The responder keeps the sessions of its joiners apart. -/
theorem isolates_step (ssl : OpenSsl) (joinerId : UInt32) :
    Isolates (step ssl) (Call.isOf joinerId) (Call.concerns joinerId) (SameFor joinerId) := by
  refine ⟨?_, ?_, ?_⟩
  · intro n n' c h _
    cases c with
    | addTrustedNode nodeId publicKey => exact h.addTrustedNode nodeId publicKey
    | createChallenge request nonce => exact h.createChallenge request nonce
    | verifyAndAccept response tek fhek ivs =>
      simp only [step, verifyAndAccept_state]
      exact h.erasePending response.joinerId
  · intro n n' c h hown
    have hid : c.joiner = some joinerId := eq_of_beq hown
    cases c with
    | addTrustedNode nodeId publicKey => cases hid
    | createChallenge request nonce =>
      simp only [step, NetJoin.createChallenge, h.nodeId]
    | verifyAndAccept response tek fhek ivs =>
      cases hid
      simp only [step, h.verifyAndAccept ssl ivs tek fhek]
  · intro n n' c h hother
    cases c with
    | addTrustedNode nodeId publicKey => cases hother
    | createChallenge request nonce =>
      exact h.createChallenge_other (ne_of_beq_false hother) nonce
    | verifyAndAccept response tek fhek ivs =>
      simp only [step, verifyAndAccept_state]
      exact h.erasePending_other (ne_of_beq_false hother)

/-- Join sessions of different nodes do not interfere: without the requests and responses
of the other nodes, the joiner gets the same challenges and the same answers. The draws
of the random generator travel with the calls. -/
theorem sessions_do_not_interfere (ssl : OpenSsl) (n : NetJoin) (calls : List Call)
    (joinerId : UInt32) :
    repliesTo (step ssl) (Call.isOf joinerId) n calls =
      repliesTo (step ssl) (Call.isOf joinerId) n (calls.filter (Call.concerns joinerId)) :=
  (isolates_step ssl joinerId).repliesTo_filter (fun _ => Call.concerns_of_isOf)
    (SameFor.refl joinerId n) calls

end NetJoin
end Cirradio.Network
