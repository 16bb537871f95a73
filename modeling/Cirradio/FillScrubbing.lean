import Cirradio.KeyFillHonestGun

/-!
# What a fill session leaves behind

A session that refuses a frame scrubs its nonces. One that cannot write its nonce or its
attestation, or in which an exception comes from the engine, ends with the nonces of the
session still in the port.
-/

namespace Cirradio.Security
namespace KeyFillPort
open EarlyExit

variable {σ : Type} {ssl : OpenSsl} {E : IHsmEngine σ} {p p' : KeyFillPort σ}
  {deviceNonce : RandBytes 32}

/-- No session is under way, and no nonce is kept. -/
structure Scrubbed (p : KeyFillPort σ) : Prop where
  state : p.state = .idle
  deviceNonce : p.deviceNonce = []
  gunNonce : p.gunNonce = []

theorem scrubbed_clearSession (p : KeyFillPort σ) : p.clearSession.Scrubbed := ⟨rfl, rfl, rfl⟩

/-- The write at a place is not failed, and takes all the bytes if there are so many. -/
def Takes (writes : List (Option ℕ)) (i n : ℕ) : Prop :=
  ∀ w, writes[i]? = some w → ∃ m, w = some m ∧ n ≤ m

theorem takes_drop {writes : List (Option ℕ)} {i j n : ℕ} :
    Takes (writes.drop i) j n ↔ Takes writes (i + j) n := by
  unfold Takes
  rw [List.getElem?_drop]

theorem safeWrite_of_takes {buf : Bytes} (h : Takes p.writes 0 buf.length) :
    safeWrite buf p =
      (some buf.length, { p with writes := p.writes.drop 1, sent := p.sent ++ buf }) := by
  unfold safeWrite
  split
  · rename_i hw
    simp [hw]
  · rename_i writes hw
    obtain ⟨m, hm, -⟩ := h none (by rw [hw]; rfl)
    cases hm
  · rename_i n writes hw
    obtain ⟨m, hm, hle⟩ := h (some n) (by rw [hw]; rfl)
    cases hm
    simp [hw, Nat.min_eq_right hle]

theorem safeWrite_of_not {buf : Bytes} (h : ¬ Takes p.writes 0 buf.length) :
    (safeWrite buf p).1 ≠ some buf.length := by
  unfold safeWrite
  split
  · rename_i hw
    refine absurd (fun w hw' => ?_) h
    rw [hw] at hw'
    cases hw'
  · exact fun he => by cases he
  · rename_i n writes hw
    intro he
    have hmin : min n buf.length = buf.length := Option.some.inj he
    refine h fun w hw' => ⟨n, ?_, by omega⟩
    rw [hw] at hw'
    exact (Option.some.inj hw').symm

/-- What is left of the results of writes after a frame. An empty payload is not written. -/
def writesLeft (payload : Bytes) (writes : List (Option ℕ)) : List (Option ℕ) :=
  writes.drop (if payload.isEmpty then 1 else 2)

/-- A frame gets through if its writes are complete. -/
def GetsThrough (writes : List (Option ℕ)) (payload : Bytes) : Prop :=
  Takes writes 0 3 ∧ (payload = [] ∨ Takes writes 1 payload.length)

/-- The port after the header of a frame. -/
def headerSent (type : FillMsgType) (payload : Bytes) (p : KeyFillPort σ) : KeyFillPort σ :=
  { p with writes := p.writes.drop 1, sent := p.sent ++ frameHeader type payload }

theorem sendFrame_of_header (hopen : 0 ≤ p.fd) (type : FillMsgType) {payload : Bytes}
    (h : Takes p.writes 0 3) : sendFrame type payload p =
      if payload.isEmpty then (true, headerSent type payload p)
      else ((safeWrite payload (headerSent type payload p)).1 == some payload.length,
        (safeWrite payload (headerSent type payload p)).2) := by
  have hwrite : safeWrite (frameHeader type payload) p = (some 3, headerSent type payload p) :=
    safeWrite_of_takes h
  unfold sendFrame
  rw [if_neg (Int.not_lt.mpr hopen), hwrite]
  rfl

theorem sendFrame_of_getsThrough (hopen : 0 ≤ p.fd) (type : FillMsgType) {payload : Bytes}
    (h : GetsThrough p.writes payload) :
    sendFrame type payload p = (true, { p with
      writes := writesLeft payload p.writes, sent := p.sent ++ wire ⟨type, payload⟩ }) := by
  rw [sendFrame_of_header hopen type h.1]
  split_ifs with hempty
  · have hnil : payload = [] := List.isEmpty_iff.mp hempty
    subst hnil
    simp [writesLeft, wire, headerSent]
  · have hne : payload ≠ [] := fun hnil => hempty (List.isEmpty_iff.mpr hnil)
    have htakes : Takes (headerSent type payload p).writes 0 payload.length :=
      takes_drop.mpr (h.2.resolve_left hne)
    rw [safeWrite_of_takes htakes]
    simp [writesLeft, wire, headerSent, hempty]

theorem sendFrame_of_not (hopen : 0 ≤ p.fd) (type : FillMsgType) {payload : Bytes}
    (h : ¬ GetsThrough p.writes payload) : (sendFrame type payload p).1 = false := by
  by_cases hfirst : Takes p.writes 0 3
  · rw [sendFrame_of_header hopen type hfirst]
    split_ifs with hempty
    · exact absurd ⟨hfirst, .inl (List.isEmpty_iff.mp hempty)⟩ h
    · have hsecond : ¬ Takes (headerSent type payload p).writes 0 payload.length :=
        fun hs => h ⟨hfirst, .inr (takes_drop.mp hs)⟩
      exact beq_eq_false_iff_ne.mpr (safeWrite_of_not hsecond)
  · have hcount : (safeWrite (frameHeader type payload) p).1 ≠ some 3 := safeWrite_of_not hfirst
    unfold sendFrame
    rw [if_neg (Int.not_lt.mpr hopen)]
    split
    · rename_i hw
      rw [hw] at hcount
      exact absurd rfl hcount
    · rfl

theorem sendOrRefuse_ok_iff (hopen : 0 ≤ p.fd) (type : FillMsgType) (payload : Bytes)
    ⦃q : KeyFillPort σ⦄ : sendOrRefuse type payload p = .ok () q ↔
      GetsThrough p.writes payload ∧ q = { p with
        writes := writesLeft payload p.writes, sent := p.sent ++ wire ⟨type, payload⟩ } := by
  unfold sendOrRefuse
  by_cases h : GetsThrough p.writes payload
  · rw [sendFrame_of_getsThrough hopen type h]
    constructor
    · rintro ⟨⟩
      exact ⟨h, rfl⟩
    · rintro ⟨-, rfl⟩
      rfl
  · have hfalse := sendFrame_of_not hopen type h
    rcases hsend : sendFrame type payload p with ⟨b, p'⟩
    rw [hsend] at hfalse
    subst hfalse
    exact iff_of_false (fun he => by cases he) fun he => h he.1

theorem exitsIn_sendOrRefuse (hopen : 0 ≤ p.fd) (hnonce : p.deviceNonce ≠ [])
    (type : FillMsgType) (payload : Bytes) :
    ExitsIn (¬ Scrubbed ·) (sendOrRefuse type payload) p ↔ ¬ GetsThrough p.writes payload := by
  constructor
  · rintro ⟨e, q, herror, -⟩ h
    have hok := (sendOrRefuse_ok_iff hopen type payload).mpr ⟨h, rfl⟩
    cases hok.symm.trans herror
  · intro h
    have hfalse := sendFrame_of_not hopen type h
    obtain ⟨writes, sent, hport⟩ := sendFrame_eq type payload p
    rcases hsend : sendFrame type payload p with ⟨b, q⟩
    rw [hsend] at hfalse hport
    subst hfalse
    refine ⟨.refused, q, ?_, fun hs => hnonce ?_⟩
    · unfold sendOrRefuse
      rw [hsend]
    · have hkept := hs.deviceNonce
      rwa [show q = _ from hport] at hkept

/-- Every early exit of the part is scrubbed. -/
def Tidy {α : Type} (x : Fill σ α) : Prop := ∀ p, ¬ ExitsIn (¬ Scrubbed ·) x p

section Tidy
variable {α β : Type}

theorem Tidy.bind {x : Fill σ α} {f : α → Fill σ β} (hx : Tidy x) (hf : ∀ a, Tidy (f a)) :
    Tidy (x >>= f) := fun p => not_exitsIn_bind (hx p) fun a p' _ => hf a p'

theorem Tidy.ite {c : Prop} [Decidable c] {x y : Fill σ α} (hx : Tidy x) (hy : Tidy y) :
    Tidy (if c then x else y) := by
  split
  · exact hx
  · exact hy

theorem tidy_nak : Tidy (nak : Fill σ α) := by
  rintro p ⟨e, p', h, hnot⟩
  cases h
  exact hnot (scrubbed_clearSession _)

theorem tidy_pure (a : α) : Tidy (pure a : Fill σ α) := fun _ => not_exitsIn_of_ok rfl

theorem tidy_get : Tidy (get : Fill σ (KeyFillPort σ)) := fun _ => not_exitsIn_of_ok rfl

theorem tidy_set (q : KeyFillPort σ) : Tidy (set q : Fill σ PUnit) :=
  fun _ => not_exitsIn_of_ok rfl

theorem tidy_modify (f : KeyFillPort σ → KeyFillPort σ) : Tidy (modify f : Fill σ PUnit) :=
  fun _ => not_exitsIn_of_ok rfl

theorem tidy_expectFrame (type : FillMsgType) : Tidy (expectFrame type : Fill σ Bytes) := by
  refine tidy_get.bind fun p => ?_
  generalize (if p.fd < 0 then (none, p.incoming) else recvFrame p.incoming) = r
  rcases r with ⟨frame | frame, incoming⟩
  · exact (tidy_set _).bind fun _ => tidy_nak
  · exact (tidy_set _).bind fun _ => .ite tidy_nak (tidy_pure _)

theorem tidy_receiveHello : Tidy (receiveHello : Fill σ Unit) :=
  (tidy_expectFrame _).bind fun _ => .ite tidy_nak ((tidy_modify _).bind fun _ => tidy_modify _)

theorem tidy_receiveIdentity : Tidy (receiveIdentity : Fill σ Bytes) :=
  (tidy_expectFrame _).bind fun _ => tidy_get.bind fun _ =>
    .ite tidy_nak ((tidy_modify _).bind fun _ => tidy_pure _)

theorem tidy_receiveGunAttest (gunPubkeyDer : Bytes) :
    Tidy (receiveGunAttest ssl gunPubkeyDer : Fill σ Unit) :=
  (tidy_expectFrame _).bind fun _ => tidy_get.bind fun _ => .ite tidy_nak (tidy_modify _)

theorem tidy_receiveKeyBlock (gunPubkeyDer : Bytes) :
    Tidy (receiveKeyBlock ssl gunPubkeyDer : Fill σ Bytes) :=
  (tidy_expectFrame _).bind fun _ => .ite tidy_nak (.ite tidy_nak (tidy_pure _))

end Tidy

theorem receivedFrames_eq_cons {n : ℕ} {incoming : Incoming} {f : FillFrame}
    {frames : List FillFrame} : receivedFrames (n + 1) incoming = f :: frames ↔
      ∃ later, recvFrame incoming = (some f, later) ∧ receivedFrames n later = frames := by
  rw [receivedFrames]
  rcases recvFrame incoming with ⟨_ | f', later⟩
  · simp
  · simp [eq_comm]

/-- A `HELLO` that is long enough has arrived. -/
def Greeted (p : KeyFillPort σ) : Prop :=
  ∃ hello, receivedFrames 1 p.incoming = [⟨.hello, hello⟩] ∧ 32 ≤ hello.length

/-- The identity of a trusted gun has arrived behind it. -/
def Identified (p : KeyFillPort σ) : Prop :=
  ∃ hello identity, receivedFrames 2 p.incoming = [⟨.hello, hello⟩, ⟨.identity, identity⟩] ∧
    32 ≤ hello.length ∧ identity ∈ p.trustedGunPubkeys

/-- All four frames have arrived and pass the checks. -/
structure Delivered (ssl : OpenSsl) (deviceNonce : RandBytes 32) (p : KeyFillPort σ)
    (g : GunFrames) : Prop where
  frames : receivedFrames 4 p.incoming = g.toList
  hello : 32 ≤ g.hello.length
  trusted : g.identity ∈ p.trustedGunPubkeys
  attest : g.attest = [] ∨ ssl.ecVerify g.identity deviceNonce.toList g.attest = true
  blockSig : g.blockSig.length = kSigLen
  block : g.eciesPayload ≠ []
  signed : (∀ b ∈ g.blockSig, b = 0) ∨
    ssl.ecVerify g.identity g.eciesPayload g.blockSig = true

/-- The decryption of the block throws, or the import of one of its keys. -/
def Throwing (E : IHsmEngine σ) (p : KeyFillPort σ) (eciesPayload : Bytes) : Prop :=
  (∃ hsm what, E.eciesDecrypt p.km.hsm p.ikHandle eciesPayload = (hsm, .error what)) ∨
    ∃ hsm plaintext, E.eciesDecrypt p.km.hsm p.ikHandle eciesPayload = (hsm, .ok (some plaintext)) ∧
      plaintext.length = 96 ∧ ¬ ∃ km, KeysSet E plaintext { p.km with hsm } km

/-- The `NONCE` frame gets through. -/
def NonceSent (deviceNonce : RandBytes 32) (p : KeyFillPort σ) : Prop :=
  GetsThrough p.writes deviceNonce.toList

/-- The `DEV_ATTEST` frame gets through; its writes are those behind the two of `NONCE`. -/
def AttestSent (p : KeyFillPort σ) : Prop := GetsThrough (p.writes.drop 2) []

/-- The exits of a session that no clean-up precedes. -/
inductive Abandoned (ssl : OpenSsl) (E : IHsmEngine σ) (deviceNonce : RandBytes 32)
    (p : KeyFillPort σ) : Prop where
  | nonceLost (harrived : Greeted p) (hlost : ¬ NonceSent deviceNonce p)
  | attestLost (harrived : Identified p) (hsent : NonceSent deviceNonce p)
    (hlost : ¬ AttestSent p)
  | threw {g : GunFrames} (harrived : Delivered ssl deviceNonce p g)
    (hsent : NonceSent deviceNonce p) (hattest : AttestSent p)
    (hthrows : Throwing E p g.eciesPayload)

section Exchange
variable (hopen : 0 ≤ p.fd)
include hopen

theorem sendNonce_ok_iff : sendNonce deviceNonce p = .ok () p' ↔
    NonceSent deviceNonce p ∧ p' = { p with
      deviceNonce := deviceNonce.toList, writes := p.writes.drop 2,
      sent := p.sent ++ wire ⟨.nonce, deviceNonce.toList⟩, state := .nonceSent } := by
  have hleft : writesLeft deviceNonce.toList p.writes = p.writes.drop 2 := by
    have hne : deviceNonce.toList.isEmpty = false := by
      rw [← Bool.not_eq_true, List.isEmpty_iff, ← List.length_eq_zero_iff, Vector.length_toList]
      decide
    simp [writesLeft, hne]
  have hsend := sendOrRefuse_ok_iff (p := { p with deviceNonce := deviceNonce.toList }) hopen
    .nonce deviceNonce.toList
  constructor
  · intro h
    obtain ⟨⟨⟩, q, hset, h⟩ := bind_eq_ok.mp h
    cases hset
    obtain ⟨⟨⟩, q, hq, h⟩ := bind_eq_ok.mp h
    obtain ⟨hthrough, rfl⟩ := hsend.mp hq
    cases h
    exact ⟨hthrough, by rw [hleft]⟩
  · rintro ⟨hthrough, rfl⟩
    refine bind_eq_ok.mpr ⟨⟨⟩, _, rfl, bind_eq_ok.mpr ⟨⟨⟩, _, hsend.mpr ⟨hthrough, rfl⟩, ?_⟩⟩
    rw [hleft]
    rfl

theorem exitsIn_sendNonce :
    ExitsIn (¬ Scrubbed ·) (sendNonce deviceNonce) p ↔ ¬ NonceSent deviceNonce p := by
  have hne : deviceNonce.toList ≠ [] := by
    rw [Ne, ← List.length_eq_zero_iff, Vector.length_toList]
    decide
  have hsend := exitsIn_sendOrRefuse (p := { p with deviceNonce := deviceNonce.toList }) hopen hne
    .nonce deviceNonce.toList
  unfold sendNonce
  rw [exitsIn_bind_of_not (tidy_modify _ p)]
  constructor
  · rintro ⟨a, q, hset, hexit⟩
    cases hset
    rcases exitsIn_bind.mp hexit with hexit | ⟨b, q, -, hexit⟩
    · exact hsend.mp hexit
    · exact absurd hexit (not_exitsIn_of_ok rfl)
  · intro hlost
    exact ⟨⟨⟩, _, rfl, exitsIn_bind.mpr (.inl (hsend.mpr hlost))⟩

theorem sendDevAttest_ok_iff : sendDevAttest p = .ok () p' ↔
    GetsThrough p.writes [] ∧ p' = { p with
      writes := p.writes.drop 1, sent := p.sent ++ wire ⟨.devAttest, []⟩
      state := .devAttestSent } := by
  have hsend := sendOrRefuse_ok_iff hopen .devAttest []
  constructor
  · intro h
    obtain ⟨q, q', hget, h⟩ := bind_eq_ok.mp h
    cases hget
    obtain ⟨⟨⟩, q, hq, h⟩ := bind_eq_ok.mp h
    obtain ⟨hthrough, rfl⟩ := hsend.mp hq
    cases h
    exact ⟨hthrough, rfl⟩
  · rintro ⟨hthrough, rfl⟩
    exact bind_eq_ok.mpr ⟨p, p, rfl, bind_eq_ok.mpr ⟨⟨⟩, _, hsend.mpr ⟨hthrough, rfl⟩, rfl⟩⟩

theorem exitsIn_sendDevAttest (hnonce : p.deviceNonce ≠ []) :
    ExitsIn (¬ Scrubbed ·) sendDevAttest p ↔ ¬ GetsThrough p.writes [] := by
  have hsend := exitsIn_sendOrRefuse hopen hnonce .devAttest []
  unfold sendDevAttest
  rw [exitsIn_bind_of_not (tidy_get p)]
  constructor
  · rintro ⟨a, q, hget, hexit⟩
    cases hget
    rcases exitsIn_bind.mp hexit with hexit | ⟨b, q, -, hexit⟩
    · exact hsend.mp hexit
    · exact absurd hexit (not_exitsIn_of_ok rfl)
  · intro hlost
    exact ⟨p, p, rfl, exitsIn_bind.mpr (.inl (hsend.mpr hlost))⟩

/-- What the first three parts leave, if they get so far. -/
theorem identified_iff {identity : Bytes} :
    (∃ p₁ p₂, receiveHello p = .ok () p₁ ∧ sendNonce deviceNonce p₁ = .ok () p₂ ∧
      receiveIdentity p₂ = .ok identity p') ↔
    ∃ hello in₁ in₂, recvFrame p.incoming = (some ⟨.hello, hello⟩, in₁) ∧ 32 ≤ hello.length ∧
      NonceSent deviceNonce p ∧ recvFrame in₁ = (some ⟨.identity, identity⟩, in₂) ∧
      identity ∈ p.trustedGunPubkeys ∧ p' = { p with
        incoming := in₂, gunNonce := hello.take 32, deviceNonce := deviceNonce.toList
        writes := p.writes.drop 2, sent := p.sent ++ wire ⟨.nonce, deviceNonce.toList⟩
        state := .identityVerified } := by
  constructor
  · rintro ⟨p₁, p₂, hhello, hnonce, hidentity⟩
    obtain ⟨hello, in₁, hframe, hlen, rfl⟩ := receiveHello_ok hhello
    obtain ⟨hsent, rfl⟩ := (sendNonce_ok_iff (by exact hopen)).mp hnonce
    obtain ⟨in₂, hframe', htrusted, rfl⟩ := receiveIdentity_ok hidentity
    exact ⟨hello, in₁, in₂, hframe, hlen, hsent, hframe', htrusted, rfl⟩
  · rintro ⟨hello, in₁, in₂, hframe, hlen, hsent, hframe', htrusted, rfl⟩
    exact ⟨_, _, receiveHello_recv hopen hlen hframe,
      (sendNonce_ok_iff (by exact hopen)).mpr ⟨hsent, rfl⟩,
      receiveIdentity_recv (by exact hopen) htrusted hframe'⟩

theorem exitsIn_exchange : ExitsIn (¬ Scrubbed ·) (exchange ssl deviceNonce) p ↔
    Greeted p ∧ ¬ NonceSent deviceNonce p ∨
      Identified p ∧ NonceSent deviceNonce p ∧ ¬ AttestSent p := by
  have hne : deviceNonce.toList ≠ [] := by
    rw [Ne, ← List.length_eq_zero_iff, Vector.length_toList]
    decide
  unfold exchange
  rw [exitsIn_bind_of_not (tidy_receiveHello p)]
  constructor
  · rintro ⟨a, p₁, hhello, hexit⟩
    obtain ⟨hello, in₁, hframe, hlen, rfl⟩ := receiveHello_ok hhello
    have hgreeted : Greeted p :=
      ⟨hello, receivedFrames_eq_cons.mpr ⟨in₁, hframe, rfl⟩, hlen⟩
    rcases exitsIn_bind.mp hexit with hlost | ⟨b, p₂, hnonce, hexit⟩
    · have hnot := (exitsIn_sendNonce (by exact hopen)).mp hlost
      exact .inl ⟨hgreeted, hnot⟩
    · obtain ⟨identity, p₃, hidentity, hexit⟩ :=
        (exitsIn_bind_of_not (tidy_receiveIdentity p₂)).mp hexit
      obtain ⟨_, _, in₂, hframe₁, -, hsent, hframe', htrusted, rfl⟩ :=
        (identified_iff hopen).mp ⟨_, p₂, hhello, hnonce, hidentity⟩
      cases hframe.symm.trans hframe₁
      refine .inr ⟨⟨hello, identity, ?_, hlen, htrusted⟩, hsent, ?_⟩
      · exact receivedFrames_eq_cons.mpr
          ⟨in₁, hframe, receivedFrames_eq_cons.mpr ⟨in₂, hframe', rfl⟩⟩
      · rcases exitsIn_bind.mp hexit with hlost | ⟨c, p₄, -, hexit⟩
        · exact (exitsIn_sendDevAttest (by exact hopen) (by exact hne)).mp hlost
        · refine absurd hexit ?_
          exact ((tidy_receiveGunAttest identity).bind fun _ => tidy_receiveKeyBlock identity) p₄
  · rintro (⟨⟨hello, hframes, hlen⟩, hlost⟩ | ⟨⟨hello, identity, hframes, hlen, htrusted⟩,
      hsent, hlost⟩)
    · obtain ⟨in₁, hframe, -⟩ := receivedFrames_eq_cons.mp hframes
      exact ⟨⟨⟩, _, receiveHello_recv hopen hlen hframe,
        exitsIn_bind.mpr (.inl ((exitsIn_sendNonce (by exact hopen)).mpr hlost))⟩
    · obtain ⟨in₁, hframe, hrest⟩ := receivedFrames_eq_cons.mp hframes
      obtain ⟨in₂, hframe', -⟩ := receivedFrames_eq_cons.mp hrest
      obtain ⟨p₁, p₂, hhello, hnonce, hidentity⟩ := (identified_iff hopen).mpr
        ⟨hello, in₁, in₂, hframe, hlen, hsent, hframe', htrusted, rfl⟩
      refine ⟨⟨⟩, p₁, hhello, exitsIn_bind.mpr (.inr ⟨⟨⟩, p₂, hnonce, ?_⟩)⟩
      refine exitsIn_bind.mpr (.inr ⟨identity, _, hidentity, ?_⟩)
      refine exitsIn_bind.mpr (.inl ?_)
      exact (exitsIn_sendDevAttest (by exact hopen) (by exact hne)).mpr hlost

/-- The block is received in the ports in which all frames arrive and both sends get through. -/
theorem exchange_ok_iff {eciesPayload : Bytes} :
    (∃ p', exchange ssl deviceNonce p = .ok eciesPayload p') ↔
      ∃ g, Delivered ssl deviceNonce p g ∧ NonceSent deviceNonce p ∧ AttestSent p ∧
        g.eciesPayload = eciesPayload := by
  constructor
  · rintro ⟨p', h⟩
    obtain ⟨⟨⟩, p₁, hhello, h⟩ := bind_eq_ok.mp h
    obtain ⟨⟨⟩, p₂, hnonce, h⟩ := bind_eq_ok.mp h
    obtain ⟨identity, p₃, hidentity, h⟩ := bind_eq_ok.mp h
    obtain ⟨⟨⟩, p₄, hdev, h⟩ := bind_eq_ok.mp h
    obtain ⟨⟨⟩, p₅, hattest, hblock⟩ := bind_eq_ok.mp h
    obtain ⟨hello, in₁, in₂, hframe₁, hlen, hsent, hframe₂, htrusted, rfl⟩ :=
      (identified_iff hopen).mp ⟨p₁, p₂, hhello, hnonce, hidentity⟩
    obtain ⟨hthrough, rfl⟩ := (sendDevAttest_ok_iff (by exact hopen)).mp hdev
    obtain ⟨attest, in₃, hframe₃, hattested, rfl⟩ := receiveGunAttest_ok hattest
    obtain ⟨blockSig, in₄, hframe₄, hsigLen, hne, hsigned, -⟩ := receiveKeyBlock_ok hblock
    refine ⟨⟨hello, identity, attest, eciesPayload, blockSig⟩, ?_, hsent, hthrough, rfl⟩
    refine ⟨?_, hlen, htrusted, hattested, hsigLen, hne, hsigned⟩
    exact receivedFrames_eq_cons.mpr ⟨in₁, hframe₁, receivedFrames_eq_cons.mpr ⟨in₂, hframe₂,
      receivedFrames_eq_cons.mpr ⟨in₃, hframe₃, receivedFrames_eq_cons.mpr ⟨in₄, hframe₄, rfl⟩⟩⟩⟩
  · rintro ⟨g, hg, hsent, hthrough, rfl⟩
    obtain ⟨in₁, hframe₁, hrest⟩ := receivedFrames_eq_cons.mp hg.frames
    obtain ⟨in₂, hframe₂, hrest⟩ := receivedFrames_eq_cons.mp hrest
    obtain ⟨in₃, hframe₃, hrest⟩ := receivedFrames_eq_cons.mp hrest
    obtain ⟨in₄, hframe₄, -⟩ := receivedFrames_eq_cons.mp hrest
    obtain ⟨p₁, p₂, hhello, hnonce, hidentity⟩ := (identified_iff hopen).mpr
      ⟨g.hello, in₁, in₂, hframe₁, hg.hello, hsent, hframe₂, hg.trusted, rfl⟩
    refine exists_bind_ok hhello (exists_bind_ok hnonce (exists_bind_ok hidentity ?_))
    refine exists_bind_ok ((sendDevAttest_ok_iff (by exact hopen)).mpr ⟨hthrough, rfl⟩) ?_
    refine exists_bind_ok
      (receiveGunAttest_recv (by exact hopen) (by exact hg.attest) (by exact hframe₃)) ?_
    exact ⟨_, receiveKeyBlock_recv (by exact hopen) hg.blockSig hg.block hg.signed
      (by exact hframe₄)⟩

end Exchange

section Install
variable {eciesPayload plaintext : Bytes}

theorem exitsIn_decryptKeyBlock (hnonce : p.deviceNonce ≠ []) :
    ExitsIn (¬ Scrubbed ·) (decryptKeyBlock E eciesPayload) p ↔
      ∃ hsm what, E.eciesDecrypt p.km.hsm p.ikHandle eciesPayload = (hsm, .error what) := by
  unfold decryptKeyBlock
  rw [exitsIn_bind_of_not (tidy_get p)]
  constructor
  · rintro ⟨q, q', hget, hexit⟩
    cases hget
    rcases hdec : E.eciesDecrypt p.km.hsm p.ikHandle eciesPayload with ⟨hsm, what | plain⟩
    · exact ⟨hsm, what, rfl⟩
    · rw [hdec] at hexit
      refine absurd hexit (((tidy_set _).bind fun _ => ?_) p)
      cases plain with
      | none => exact tidy_nak
      | some plain => exact .ite tidy_nak (tidy_pure _)
  · rintro ⟨hsm, what, hdec⟩
    refine ⟨p, p, rfl, ?_⟩
    rw [hdec]
    exact exitsIn_bind.mpr (.inr ⟨⟨⟩, _, rfl, .threw what, _, rfl, fun hs => hnonce hs.deviceNonce⟩)

/-- The nonce of the session is kept. -/
def SameNonce (p p' : KeyFillPort σ) : Prop := p'.deviceNonce = p.deviceNonce

theorem SameNonce.trans {p'' : KeyFillPort σ} (h : SameNonce p p') (h' : SameNonce p' p'') :
    SameNonce p p'' := Eq.trans h' h

theorem keeps_callKeyManager (call : KeyManager σ → KeyManager σ × Throws Unit) :
    Keeps SameNonce (callKeyManager call) := by
  intro p
  unfold callKeyManager
  rcases call p.km with ⟨km, what | ⟨⟩⟩
  · rfl
  · rfl

theorem keeps_loadKeys : Keeps SameNonce (loadKeys E plaintext) := by
  have hthen : ∀ {x y : Fill σ Unit}, Keeps SameNonce x → Keeps SameNonce y →
      Keeps SameNonce (x >>= fun _ => y) := fun hx hy =>
    hx.bind (fun h h' => h.trans h') fun _ => hy
  refine hthen (keeps_callKeyManager _) (hthen (keeps_callKeyManager _) ?_)
  exact hthen (keeps_callKeyManager _) fun _ => rfl

theorem loadKeys_of_keysSet {km : KeyManager σ} (h : KeysSet E plaintext p.km km) :
    loadKeys E plaintext p = .ok () { p with km, state := .keysReceived } := by
  obtain ⟨km₁, km₂, hkek, htek, hfhek⟩ := h
  have hcall : ∀ {call : KeyManager σ → KeyManager σ × Throws Unit} {q : KeyFillPort σ}
      {km : KeyManager σ}, call q.km = (km, .ok ()) →
      callKeyManager call q = .ok () { q with km } := by
    intro call q km hq
    unfold callKeyManager
    rw [hq]
  exact bind_eq_ok.mpr ⟨⟨⟩, _, hcall hkek, bind_eq_ok.mpr ⟨⟨⟩, _, hcall htek,
    bind_eq_ok.mpr ⟨⟨⟩, _, hcall hfhek, rfl⟩⟩⟩

theorem exitsIn_loadKeys (hnonce : p.deviceNonce ≠ []) :
    ExitsIn (¬ Scrubbed ·) (loadKeys E plaintext) p ↔ ¬ ∃ km, KeysSet E plaintext p.km km := by
  constructor
  · rintro ⟨e, q, herror, -⟩ ⟨km, hset⟩
    cases (loadKeys_of_keysSet hset).symm.trans herror
  · intro hnot
    cases hload : loadKeys E plaintext p with
    | ok u q =>
      obtain ⟨km, hset, -⟩ := loadKeys_ok hload
      exact absurd ⟨km, hset⟩ hnot
    | error e q =>
      exact ⟨e, q, hload, fun hs => hnonce ((keeps_loadKeys.error hload).symm.trans hs.deviceNonce)⟩

theorem exitsIn_installBlock (hnonce : p.deviceNonce ≠ []) :
    ExitsIn (¬ Scrubbed ·) (installBlock E eciesPayload) p ↔ Throwing E p eciesPayload := by
  unfold installBlock Throwing
  rw [exitsIn_bind, exitsIn_decryptKeyBlock hnonce]
  refine or_congr_right ?_
  constructor
  · rintro ⟨plaintext, q, hdecrypt, hexit⟩
    obtain ⟨hsm, heq, hlen, rfl⟩ := decryptKeyBlock_ok hdecrypt
    rcases exitsIn_bind.mp hexit with hload | ⟨⟨⟩, q, -, hack⟩
    · exact ⟨hsm, plaintext, heq, hlen, (exitsIn_loadKeys (by exact hnonce)).mp hload⟩
    · refine absurd hack (((tidy_modify _).bind fun _ => ?_) q)
      exact (tidy_modify _).bind fun _ => tidy_modify _
  · rintro ⟨hsm, plaintext, heq, hlen, hnot⟩
    refine ⟨plaintext, _, decryptKeyBlock_of heq hlen, exitsIn_bind.mpr (.inl ?_)⟩
    exact (exitsIn_loadKeys (by exact hnonce)).mpr hnot

end Install

theorem exchange_deviceNonce {eciesPayload : Bytes}
    (h : exchange ssl deviceNonce p = .ok eciesPayload p') : p'.deviceNonce ≠ [] := by
  obtain ⟨⟨⟩, p₁, hhello, h⟩ := bind_eq_ok.mp h
  obtain ⟨⟨⟩, p₂, hnonce, h⟩ := bind_eq_ok.mp h
  obtain ⟨identity, p₃, hidentity, h⟩ := bind_eq_ok.mp h
  obtain ⟨⟨⟩, p₄, hdev, h⟩ := bind_eq_ok.mp h
  obtain ⟨⟨⟩, p₅, hattest, hblock⟩ := bind_eq_ok.mp h
  obtain ⟨writes, sent, rfl⟩ := sendNonce_ok hnonce
  obtain ⟨_, _, _, rfl⟩ := receiveIdentity_ok hidentity
  obtain ⟨_, _, rfl⟩ := sendDevAttest_ok hdev
  obtain ⟨_, _, _, _, rfl⟩ := receiveGunAttest_ok hattest
  obtain ⟨_, _, _, _, _, _, rfl⟩ := receiveKeyBlock_ok hblock
  change deviceNonce.toList ≠ []
  rw [Ne, ← List.length_eq_zero_iff, Vector.length_toList]
  decide

theorem receiveBlock_eq_exchange (hopen : 0 ≤ p.fd) :
    receiveBlock ssl deviceNonce p = exchange ssl deviceNonce p.clearSession := by
  have hget : (get : Fill σ (KeyFillPort σ)) p = .ok p p := rfl
  have hclear : (modify clearSession : Fill σ Unit) p = .ok ⟨⟩ p.clearSession := rfl
  unfold receiveBlock
  rw [bind_of_ok hget]
  rw [if_neg (Int.not_lt.mpr hopen)]
  exact bind_of_ok hclear

theorem exitsIn_session (hopen : 0 ≤ p.fd) :
    ExitsIn (¬ Scrubbed ·) (session ssl E deviceNonce) p ↔ Abandoned ssl E deviceNonce p := by
  have hblock : ExitsIn (¬ Scrubbed ·) (receiveBlock ssl deviceNonce) p ↔
      ExitsIn (¬ Scrubbed ·) (exchange ssl deviceNonce) p.clearSession := by
    unfold ExitsIn
    rw [receiveBlock_eq_exchange hopen]
  rw [session_eq, exitsIn_bind, hblock, exitsIn_exchange (by exact hopen)]
  constructor
  · rintro ((⟨harrived, hlost⟩ | ⟨harrived, hsent, hlost⟩) | ⟨eciesPayload, q, hreceived, hexit⟩)
    · exact .nonceLost harrived hlost
    · exact .attestLost harrived hsent hlost
    · obtain ⟨hkm, hik⟩ := (keeps_receiveBlock deviceNonce).ok hreceived
      rw [receiveBlock_eq_exchange hopen] at hreceived
      obtain ⟨g, hg, hsent, hattest, rfl⟩ := (exchange_ok_iff (by exact hopen)).mp ⟨q, hreceived⟩
      have hthrows := (exitsIn_installBlock (exchange_deviceNonce hreceived)).mp hexit
      unfold Throwing at hthrows
      rw [hkm, hik] at hthrows
      have hdelivered : Delivered ssl deviceNonce p g := ⟨hg.frames, hg.hello, hg.trusted,
        hg.attest, hg.blockSig, hg.block, hg.signed⟩
      exact .threw hdelivered hsent hattest hthrows
  · rintro (⟨harrived, hlost⟩ | ⟨harrived, hsent, hlost⟩ | ⟨hg, hsent, hattest, hthrows⟩)
    · exact .inl (.inl ⟨harrived, hlost⟩)
    · exact .inl (.inr ⟨harrived, hsent, hlost⟩)
    · have hdelivered : Delivered ssl deviceNonce p.clearSession _ := ⟨hg.frames, hg.hello,
        hg.trusted, hg.attest, hg.blockSig, hg.block, hg.signed⟩
      obtain ⟨q, hreceived⟩ := (exchange_ok_iff (by exact hopen)).mpr
        ⟨_, hdelivered, hsent, hattest, rfl⟩
      have hnonce := exchange_deviceNonce hreceived
      rw [← receiveBlock_eq_exchange hopen] at hreceived
      obtain ⟨hkm, hik⟩ := (keeps_receiveBlock deviceNonce).ok hreceived
      refine .inr ⟨_, q, hreceived, (exitsIn_installBlock hnonce).mpr ?_⟩
      unfold Throwing
      rw [hkm, hik]
      exact hthrows

theorem scrubbed_of_ok (h : session ssl E deviceNonce p = .ok () p') : p'.Scrubbed := by
  rw [session_eq] at h
  obtain ⟨_, _, -, h⟩ := bind_eq_ok.mp h
  obtain ⟨_, _, -, h⟩ := bind_eq_ok.mp h
  obtain ⟨⟨⟩, q, -, hack⟩ := bind_eq_ok.mp h
  cases hack
  exact scrubbed_clearSession _

theorem runSession_closed (hclosed : p.fd < 0) :
    runSession ssl E deviceNonce p = (p, .ok false) := by
  have hget : (get : Fill σ (KeyFillPort σ)) p = .ok p p := rfl
  have herror : session ssl E deviceNonce p = .error .refused p := by
    unfold session
    rw [bind_of_ok hget]
    rw [if_pos hclosed]
    exact bind_eq_error.mpr (.inl rfl)
  unfold runSession
  rw [herror]

theorem runSession_endState :
    (runSession ssl E deviceNonce p).1 = endState (session ssl E deviceNonce p) := by
  unfold runSession
  rcases session ssl E deviceNonce p with q | ⟨_ | what, q⟩
  · rfl
  · rfl
  · rfl

theorem scrubbed_iff_of_open (hopen : 0 ≤ p.fd) :
    (runSession ssl E deviceNonce p).1.Scrubbed ↔ ¬ Abandoned ssl E deviceNonce p := by
  rw [← exitsIn_session hopen, runSession_endState]
  cases hsession : session ssl E deviceNonce p with
  | ok u q => exact iff_of_true (scrubbed_of_ok hsession) (not_exitsIn_of_ok hsession)
  | error e q =>
    constructor
    · rintro hs ⟨e', q', herror, hnot⟩
      cases hsession.symm.trans herror
      exact hnot hs
    · intro hnot
      by_contra hs
      exact hnot ⟨e, q, hsession, hs⟩

/-- A session on an open port ends, whether it returns or throws, with the port idle and without
nonces, unless a `NONCE` or a `DEV_ATTEST` did not get through or the decryption of the block
or the import of a key threw. On a closed port nothing happens. -/
theorem scrubbed_iff_not_abandoned (ssl : OpenSsl) (E : IHsmEngine σ) (deviceNonce : RandBytes 32)
    (p : KeyFillPort σ) :
    (runSession ssl E deviceNonce p).1.Scrubbed ↔
      (p.fd < 0 → p.Scrubbed) ∧ (0 ≤ p.fd → ¬ Abandoned ssl E deviceNonce p) := by
  rcases Int.lt_or_le p.fd 0 with hclosed | hopen
  · have hnot : ¬ 0 ≤ p.fd := Int.not_le.mpr hclosed
    rw [runSession_closed hclosed]
    exact ⟨fun h => ⟨fun _ => h, fun h' => absurd h' hnot⟩, fun h => h.1 hclosed⟩
  · have hnot : ¬ p.fd < 0 := Int.not_lt.mpr hopen
    rw [scrubbed_iff_of_open hopen]
    exact ⟨fun h => ⟨fun h' => absurd h' hnot, fun _ => h⟩, fun h => h.2 hopen⟩

/-- A scrubbed port is scrubbed after a session, however that ends. -/
def ScrubbedOnExit : Prop :=
  ∀ (σ : Type) (ssl : OpenSsl) (E : IHsmEngine σ) (deviceNonce : RandBytes 32)
    (p : KeyFillPort σ), p.Scrubbed → (runSession ssl E deviceNonce p).1.Scrubbed

/-- A line that breaks after the `HELLO` of the peer. -/
def brokenLine : KeyFillPort (List (Option Bytes)) := { unsignedPeer with writes := [none] }

/-- The session returns false, and the nonce of the radio is still in the port. -/
theorem not_scrubbedOnExit : ¬ ScrubbedOnExit := by
  intro h
  have hscrubbed := h _ xorSsl tableHsm (Vector.replicate 32 5) brokenLine ⟨rfl, rfl, rfl⟩
  have hkept : (runSession xorSsl tableHsm (Vector.replicate 32 5) brokenLine).1.deviceNonce =
      List.replicate 32 5 := rfl
  rw [hscrubbed.deviceNonce] at hkept
  cases hkept

end KeyFillPort
end Cirradio.Security
