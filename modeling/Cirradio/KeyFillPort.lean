import Cirradio.KeyManager
import Mathlib.Algebra.Group.Nat.Defs

/-!
# The key fill port

One fill session over a serial line: the fill gun and the radio exchange nonces and
attestations, and the gun delivers the three keys in one encrypted block. The line is
given by what each wait for input finds and by how many bytes each write takes.
-/

namespace Cirradio.Security

/-- The type byte of a frame; any byte may arrive. -/
structure FillMsgType where
  code : UInt8
  deriving DecidableEq, Repr

namespace FillMsgType

def hello : FillMsgType := ⟨0x01⟩
def nonce : FillMsgType := ⟨0x02⟩
def identity : FillMsgType := ⟨0x03⟩
def devAttest : FillMsgType := ⟨0x04⟩
def gunAttest : FillMsgType := ⟨0x05⟩
def keyBlock : FillMsgType := ⟨0x06⟩
def ack : FillMsgType := ⟨0x07⟩
def nak : FillMsgType := ⟨0x08⟩

end FillMsgType

inductive FillState where
  | idle
  | helloRcvd
  | nonceSent
  | identityVerified
  | devAttestSent
  | gunAttestVerified
  | keysReceived
  | ack
  deriving DecidableEq, Repr

structure FillFrame where
  type : FillMsgType
  payload : Bytes
  deriving DecidableEq, Repr

/-- What successive waits for input find: some bytes to read, or a timeout, an error or
the end of the input. -/
abbrev Incoming := List (Option Bytes)

/-- Read until the count is reached. What a read leaves of the bytes found is found by
the next one. -/
def readExact : ℕ → Incoming → Option Bytes × Incoming
  | 0, incoming => (some [], incoming)
  | _ + 1, [] => (none, [])
  | _ + 1, none :: rest => (none, rest)
  | _ + 1, some [] :: rest => (none, rest)
  | n + 1, some found :: rest =>
    if n + 1 < found.length then (some (found.take (n + 1)), some (found.drop (n + 1)) :: rest)
    else
      match readExact (n + 1 - found.length) rest with
      | (none, rest) => (none, rest)
      | (some bytes, rest) => (some (found ++ bytes), rest)

/-- `recv_frame` on an open port. A length over 4096 is refused before the payload is
read. -/
def recvFrame (incoming : Incoming) : Option FillFrame × Incoming :=
  match readExact 3 incoming with
  | (some [type, high, low], incoming) =>
    let len := high.toNat <<< 8 ||| low.toNat
    if 4096 < len then (none, incoming)
    else
      match readExact len incoming with
      | (some payload, incoming) => (some ⟨⟨type⟩, payload⟩, incoming)
      | (none, incoming) => (none, incoming)
  | (_, incoming) => (none, incoming)

/-- How a session ends early: it returns false, or throws. -/
inductive FillExit where
  | refused
  | threw (what : String)
  deriving DecidableEq, Repr

structure KeyFillPort (σ : Type) where
  km : KeyManager σ
  ikHandle : CkHandle
  fd : Int
  state : FillState
  deviceNonce : Bytes
  gunNonce : Bytes
  trustedGunPubkeys : List Bytes
  incoming : Incoming
  /-- What successive writes return, a failed one nothing; later writes are complete. -/
  writes : List (Option ℕ)
  sent : Bytes

namespace KeyFillPort
variable {σ : Type}

/-- A part of a session, with its early exits. -/
abbrev Fill (σ : Type) := EStateM FillExit (KeyFillPort σ)

def clearSession (p : KeyFillPort σ) : KeyFillPort σ :=
  { p with deviceNonce := [], gunNonce := [], state := .idle }

def safeWrite (buf : Bytes) (p : KeyFillPort σ) : Option ℕ × KeyFillPort σ :=
  match p.writes with
  | [] => (some buf.length, { p with sent := p.sent ++ buf })
  | none :: writes => (none, { p with writes })
  | some n :: writes =>
    let n := min n buf.length
    (some n, { p with writes, sent := p.sent ++ buf.take n })

/-- Type byte and 16-bit length, high byte first. -/
def frameHeader (type : FillMsgType) (payload : Bytes) : Bytes :=
  let len := payload.length % 2 ^ 16
  [type.code, UInt8.ofNat (len >>> 8), UInt8.ofNat len]

def sendFrame (type : FillMsgType) (payload : Bytes) (p : KeyFillPort σ) :
    Bool × KeyFillPort σ :=
  if p.fd < 0 then (false, p)
  else
    match safeWrite (frameHeader type payload) p with
    | (some 3, p) =>
      if payload.isEmpty then (true, p)
      else
        match safeWrite payload p with
        | (n, p) => (n == some payload.length, p)
    | (_, p) => (false, p)

/-- Refuse and scrub; whether the frame gets through is not looked at. -/
def nak {α : Type} : Fill σ α := fun p =>
  .error .refused (sendFrame .nak [0xFF] p).2.clearSession

def setState (state : FillState) : Fill σ Unit := modify fun p => { p with state }

/-- Receive a frame of the given type, or refuse. -/
def expectFrame (type : FillMsgType) : Fill σ Bytes := do
  let p ← get
  let (frame, incoming) := if p.fd < 0 then (none, p.incoming) else recvFrame p.incoming
  set { p with incoming }
  match frame with
  | some frame => if frame.type ≠ type then nak else return frame.payload
  | none => nak

/-- Send a frame; a failed send leaves the session as it is. -/
def sendOrRefuse (type : FillMsgType) (payload : Bytes) : Fill σ Unit := fun p =>
  match sendFrame type payload p with
  | (true, p) => .ok () p
  | (false, p) => .error .refused p

def verifyGunCert (p : KeyFillPort σ) (certDer : Bytes) : Bool :=
  p.trustedGunPubkeys.any fun trusted => certDer == trusted

/-- The identity key signs nothing yet. -/
def signWithIk (_msg : Bytes) : Bytes := []

def receiveHello : Fill σ Unit := do
  let payload ← expectFrame .hello
  if payload.length < 32 then nak
  else
    modify fun p => { p with gunNonce := payload.take 32 }
    setState .helloRcvd

/-- The nonce is what the buffer holds after `RAND_bytes`, whose result is not checked. -/
def sendNonce (deviceNonce : RandBytes 32) : Fill σ Unit := do
  modify fun p => { p with deviceNonce := deviceNonce.toList }
  sendOrRefuse .nonce deviceNonce.toList
  setState .nonceSent

def receiveIdentity : Fill σ Bytes := do
  let payload ← expectFrame .identity
  if !(← get).verifyGunCert payload then nak
  else
    setState .identityVerified
    return payload

def sendDevAttest : Fill σ Unit := do
  let p ← get
  sendOrRefuse .devAttest (signWithIk p.gunNonce)
  setState .devAttestSent

variable (ssl : OpenSsl) (E : IHsmEngine σ)

/-- An empty attestation is not verified. -/
def receiveGunAttest (gunPubkeyDer : Bytes) : Fill σ Unit := do
  let payload ← expectFrame .gunAttest
  let p ← get
  if !payload.isEmpty && !ssl.ecVerify gunPubkeyDer p.deviceNonce payload then nak
  else setState .gunAttestVerified

def kSigLen : ℕ := 96

/-- The block without its signature, if that is all zero or verifies. -/
def receiveKeyBlock (gunPubkeyDer : Bytes) : Fill σ Bytes := do
  let payload ← expectFrame .keyBlock
  if payload.length ≤ kSigLen then nak
  else
    let eciesPayload := payload.take (payload.length - kSigLen)
    let blockSig := payload.drop eciesPayload.length
    let allZero := blockSig.all (· == 0)
    let sigOk := allZero || ssl.ecVerify gunPubkeyDer eciesPayload blockSig
    if !sigOk then nak else return eciesPayload

def decryptKeyBlock (eciesPayload : Bytes) : Fill σ Bytes := do
  let p ← get
  let (hsm, result) := E.eciesDecrypt p.km.hsm p.ikHandle eciesPayload
  set { p with km := { p.km with hsm } }
  match result with
  | .error what => throw (.threw what)
  | .ok none => nak
  | .ok (some plaintext) => if plaintext.length ≠ 96 then nak else return plaintext

/-- A call of the key manager; what it throws ends the session. -/
def callKeyManager (call : KeyManager σ → KeyManager σ × Throws Unit) : Fill σ Unit := fun p =>
  match call p.km with
  | (km, .ok ()) => .ok () { p with km }
  | (km, .error what) => .error (.threw what) { p with km }

def loadKeys (plaintext : Bytes) : Fill σ Unit := do
  callKeyManager (KeyManager.setKekRaw E (plaintext.take 32))
  callKeyManager (KeyManager.setTekRaw E ((plaintext.drop 32).take 32))
  callKeyManager (KeyManager.setFhekRaw E (plaintext.drop 64))
  setState .keysReceived

/-- Whether the acknowledgement gets through is not looked at. -/
def sendAck : Fill σ Unit := do
  modify fun p => (sendFrame .ack [0x00] p).2
  setState .ack
  modify clearSession

/-- The session; it returns true if it runs to its end. -/
def session (deviceNonce : RandBytes 32) : Fill σ Unit := do
  if (← get).fd < 0 then throw .refused
  modify clearSession
  receiveHello
  sendNonce deviceNonce
  let gunPubkeyDer ← receiveIdentity
  sendDevAttest
  receiveGunAttest ssl gunPubkeyDer
  let eciesPayload ← receiveKeyBlock ssl gunPubkeyDer
  let plaintext ← decryptKeyBlock E eciesPayload
  loadKeys E plaintext
  sendAck

def runSession (deviceNonce : RandBytes 32) (p : KeyFillPort σ) :
    KeyFillPort σ × Throws Bool :=
  match session ssl E deviceNonce p with
  | .ok () p => (p, .ok true)
  | .error .refused p => (p, .ok false)
  | .error (.threw what) p => (p, .error what)

end KeyFillPort
end Cirradio.Security
