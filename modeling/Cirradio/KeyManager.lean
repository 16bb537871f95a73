import Cirradio.HsmEngine

/-!
# The key manager

Three optional key handles, the key epoch, and the engine that keeps the key objects.
A radio owns its engine, so the engine state is part of the manager's. Assigning a
handle destroys the object of the handle it replaces.
-/

namespace Cirradio.Security

universe u

structure OtarMessage where
  keyEpoch : UInt32
  wrappedTek : Bytes
  wrappedFhek : Bytes
  deriving DecidableEq, Repr

inductive KeySlot where
  | kek
  | tek
  | fhek
  deriving DecidableEq, Repr

structure KeyManager (σ : Type u) where
  hsm : σ
  kek : Option CkHandle
  tek : Option CkHandle
  fhek : Option CkHandle
  keyEpoch : UInt32

namespace KeyManager
variable {σ : Type u} (E : IHsmEngine σ)

def new (hsm : σ) : KeyManager σ := ⟨hsm, none, none, none, 0⟩

def handle (m : KeyManager σ) : KeySlot → Option CkHandle
  | .kek => m.kek
  | .tek => m.tek
  | .fhek => m.fhek

def setHandle (m : KeyManager σ) (slot : KeySlot) (h : Option CkHandle) : KeyManager σ :=
  match slot with
  | .kek => { m with kek := h }
  | .tek => { m with tek := h }
  | .fhek => { m with fhek := h }

/-- Assignment of a handle to one of the optionals. -/
def assign (m : KeyManager σ) (slot : KeySlot) (h : CkHandle) : KeyManager σ :=
  { m.setHandle slot (some h) with hsm := E.reset m.hsm (m.handle slot) }

/-- `std::optional::reset` of one of the handles. -/
def resetHandle (m : KeyManager σ) (slot : KeySlot) : KeyManager σ :=
  { m.setHandle slot none with hsm := E.reset m.hsm (m.handle slot) }

def importRawOrThrow (m : KeyManager σ) (key : Bytes) (label : String) :
    KeyManager σ × Throws CkHandle :=
  match E.importRaw m.hsm key label with
  | (hsm, .error e) => ({ m with hsm }, .error e)
  | (hsm, .ok none) =>
    ({ m with hsm }, .error "HSM does not support import_raw (production HSM path)")
  | (hsm, .ok (some h)) => ({ m with hsm }, .ok h)

def generateInto (slot : KeySlot) (label : String) (m : KeyManager σ) :
    KeyManager σ × Throws Unit :=
  match E.generateKey m.hsm .aes256 label with
  | (hsm, .error e) => ({ m with hsm }, .error e)
  | (hsm, .ok h) => (assign E { m with hsm } slot h, .ok ())

def importInto (slot : KeySlot) (label : String) (key : Bytes) (m : KeyManager σ) :
    KeyManager σ × Throws Unit :=
  match m.importRawOrThrow E key label with
  | (m, .error e) => (m, .error e)
  | (m, .ok h) => (m.assign E slot h, .ok ())

def initializeKek : KeyManager σ → KeyManager σ × Throws Unit := generateInto E .kek "kek"

def setKekRaw (kek : Bytes) : KeyManager σ → KeyManager σ × Throws Unit :=
  importInto E .kek "kek" kek

def generateTek : KeyManager σ → KeyManager σ × Throws Unit := generateInto E .tek "tek"

def generateFhek : KeyManager σ → KeyManager σ × Throws Unit := generateInto E .fhek "fhek"

def rotateTek (m : KeyManager σ) : KeyManager σ × Throws Unit :=
  match generateInto E .tek "tek" m with
  | (m, .error e) => (m, .error e)
  | (m, .ok ()) => ({ m with keyEpoch := m.keyEpoch + 1 }, .ok ())

def setTekRaw (tek : Bytes) : KeyManager σ → KeyManager σ × Throws Unit :=
  importInto E .tek "tek" tek

def setFhekRaw (fhek : Bytes) : KeyManager σ → KeyManager σ × Throws Unit :=
  importInto E .fhek "fhek" fhek

def encryptWithTek (plaintext : Bytes) (m : KeyManager σ) :
    KeyManager σ × Throws (Option Bytes) :=
  match m.tek with
  | none => (m, .error "TEK not initialized")
  | some tek =>
    let (hsm, result) := E.encrypt m.hsm tek plaintext
    ({ m with hsm }, result)

def decryptWithTek (ciphertext : Bytes) (m : KeyManager σ) :
    KeyManager σ × Throws (Option Bytes) :=
  match m.tek with
  | none => (m, .error "TEK not initialized")
  | some tek =>
    let (hsm, result) := E.decrypt m.hsm tek ciphertext
    ({ m with hsm }, result)

def exportKey (slot : KeySlot) (missing declined : String) (m : KeyManager σ) :
    KeyManager σ × Throws Bytes :=
  match m.handle slot with
  | none => (m, .error missing)
  | some h =>
    match E.exportRaw m.hsm h with
    | (hsm, .error e) => ({ m with hsm }, .error e)
    | (hsm, .ok none) => ({ m with hsm }, .error declined)
    | (hsm, .ok (some raw)) => ({ m with hsm }, .ok raw)

def exportFhekForFpga : KeyManager σ → KeyManager σ × Throws Bytes :=
  exportKey E .fhek "FHEK not initialized" "HSM declined FHEK export"

def exportTekForDistribution : KeyManager σ → KeyManager σ × Throws Bytes :=
  exportKey E .tek "TEK not initialized" "HSM declined TEK export"

def generateOtarMessage (m : KeyManager σ) : KeyManager σ × Throws OtarMessage :=
  match m.kek, m.tek, m.fhek with
  | some kek, some tek, some fhek =>
    match E.wrapKey m.hsm kek tek with
    | (hsm, .error e) => ({ m with hsm }, .error e)
    | (hsm, .ok wt) =>
      match E.wrapKey hsm kek fhek with
      | (hsm, .error e) => ({ m with hsm }, .error e)
      | (hsm, .ok wf) =>
        match wt, wf with
        | some wt, some wf =>
          ({ m with hsm, keyEpoch := m.keyEpoch + 1 }, .ok ⟨m.keyEpoch + 1, wt, wf⟩)
        | _, _ => ({ m with hsm }, .error "Key wrap failed")
  | _, _, _ => (m, .error "Keys not initialized")

/-- A handle that is not moved into a slot is destroyed on the way out. -/
def processOtarMessage (msg : OtarMessage) (m : KeyManager σ) :
    KeyManager σ × Throws Bool :=
  match m.kek with
  | none => (m, .ok false)
  | some kek =>
    if msg.keyEpoch ≤ m.keyEpoch then (m, .ok false)
    else
      match E.unwrapKey m.hsm kek msg.wrappedTek with
      | (hsm, .error e) => ({ m with hsm }, .error e)
      | (hsm, .ok tek) =>
        match E.unwrapKey hsm kek msg.wrappedFhek with
        | (hsm, .error e) => ({ m with hsm := E.reset hsm tek }, .error e)
        | (hsm, .ok fhek) =>
          match tek, fhek with
          | some tek, some fhek =>
            ({ assign E (assign E { m with hsm } .tek tek) .fhek fhek with
                keyEpoch := msg.keyEpoch }, .ok true)
          | tek, fhek => ({ m with hsm := E.reset (E.reset hsm fhek) tek }, .ok false)

def zeroize (m : KeyManager σ) : KeyManager σ :=
  { ((m.resetHandle E .kek).resetHandle E .tek).resetHandle E .fhek with keyEpoch := 0 }

def isInitialized (m : KeyManager σ) : Bool := m.kek.isSome && m.tek.isSome && m.fhek.isSome

@[simp] theorem handle_setHandle (m : KeyManager σ) (slot : KeySlot) (h : Option CkHandle) :
    (m.setHandle slot h).handle = Function.update m.handle slot h := by
  funext slot'
  cases slot <;> cases slot' <;> rfl

@[simp] theorem setHandle_keyEpoch (m : KeyManager σ) (slot : KeySlot)
    (h : Option CkHandle) : (m.setHandle slot h).keyEpoch = m.keyEpoch := by
  cases slot <;> rfl

variable {E}

@[simp] theorem handle_assign (m : KeyManager σ) (slot : KeySlot) (h : CkHandle) :
    (m.assign E slot h).handle = Function.update m.handle slot (some h) :=
  m.handle_setHandle slot (some h)

@[simp] theorem assign_keyEpoch (m : KeyManager σ) (slot : KeySlot) (h : CkHandle) :
    (m.assign E slot h).keyEpoch = m.keyEpoch := m.setHandle_keyEpoch slot (some h)

@[simp] theorem handle_resetHandle (m : KeyManager σ) (slot : KeySlot) :
    (m.resetHandle E slot).handle = Function.update m.handle slot none :=
  m.handle_setHandle slot none

@[simp] theorem resetHandle_hsm (m : KeyManager σ) (slot : KeySlot) :
    (m.resetHandle E slot).hsm = E.reset m.hsm (m.handle slot) := rfl

end KeyManager
end Cirradio.Security
