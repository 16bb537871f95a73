import Cirradio.EmconManager
import Cirradio.RadioNode

/-!
# The shutdown of the HSM

A shutdown clears the identity keys and closes the session, and with the session go its key
objects. Only the counter of the identity handles stays, which the calls of the key manager
leave alone.
-/

namespace Cirradio.Security

/-- The shutdown of an engine forgets all but the counter of its identity handles, which the
calls of a node leave alone. -/
structure Forgets {σ : Type} (E : IHsmEngine σ) (nextEcHandle : σ → CkHandle)
    (shutdown : σ → σ) : Prop where
  forgets (s s' : σ) : nextEcHandle s = nextEcHandle s' → shutdown s = shutdown s'
  shutdown (s : σ) : nextEcHandle (shutdown s) = nextEcHandle s
  generateKey (s : σ) (type : KeyType) (label : String) :
    nextEcHandle (E.generateKey s type label).1 = nextEcHandle s
  importRaw (s : σ) (bytes : Bytes) (label : String) :
    nextEcHandle (E.importRaw s bytes label).1 = nextEcHandle s
  exportRaw (s : σ) (h : CkHandle) : nextEcHandle (E.exportRaw s h).1 = nextEcHandle s
  encrypt (s : σ) (h : CkHandle) (plaintext : Bytes) :
    nextEcHandle (E.encrypt s h plaintext).1 = nextEcHandle s
  destroyKey (s : σ) (h : CkHandle) : nextEcHandle (E.destroyKey s h).1 = nextEcHandle s

namespace Forgets
variable {σ : Type} {E : IHsmEngine σ} {nextEcHandle : σ → CkHandle} {shutdown : σ → σ}

theorem reset (h : Forgets E nextEcHandle shutdown) (s : σ) (held : Option CkHandle) :
    nextEcHandle (E.reset s held) = nextEcHandle s := by
  cases held with
  | none => rfl
  | some handle =>
    simp only [IHsmEngine.reset]
    split
    · rfl
    · exact h.destroyKey s handle

theorem generateInto (h : Forgets E nextEcHandle shutdown) (slot : KeySlot) (label : String)
    (m : KeyManager σ) :
    nextEcHandle (KeyManager.generateInto E slot label m).1.hsm = nextEcHandle m.hsm := by
  have hcall := h.generateKey m.hsm .aes256 label
  unfold KeyManager.generateInto
  generalize E.generateKey m.hsm .aes256 label = r at hcall ⊢
  rcases r with ⟨hsm, e | handle⟩
  · exact hcall
  · exact (h.reset hsm _).trans hcall

theorem importInto (h : Forgets E nextEcHandle shutdown) (slot : KeySlot) (label : String)
    (key : Bytes) (m : KeyManager σ) :
    nextEcHandle (KeyManager.importInto E slot label key m).1.hsm = nextEcHandle m.hsm := by
  have hcall := h.importRaw m.hsm key label
  unfold KeyManager.importInto KeyManager.importRawOrThrow
  generalize E.importRaw m.hsm key label = r at hcall ⊢
  rcases r with ⟨hsm, e | _ | handle⟩
  · exact hcall
  · exact hcall
  · exact (h.reset hsm _).trans hcall

theorem exportKey (h : Forgets E nextEcHandle shutdown) (slot : KeySlot)
    (missing declined : String) (m : KeyManager σ) :
    nextEcHandle (KeyManager.exportKey E slot missing declined m).1.hsm =
      nextEcHandle m.hsm := by
  unfold KeyManager.exportKey
  cases m.handle slot with
  | none => rfl
  | some handle =>
    have hcall := h.exportRaw m.hsm handle
    simp only
    generalize E.exportRaw m.hsm handle = r at hcall ⊢
    rcases r with ⟨hsm, e | _ | raw⟩
    · exact hcall
    · exact hcall
    · exact hcall

theorem encryptWithTek (h : Forgets E nextEcHandle shutdown) (plaintext : Bytes)
    (m : KeyManager σ) :
    nextEcHandle (KeyManager.encryptWithTek E plaintext m).1.hsm = nextEcHandle m.hsm := by
  unfold KeyManager.encryptWithTek
  cases m.tek with
  | none => rfl
  | some tek => exact h.encrypt m.hsm tek plaintext

theorem inOrder (calls : List (KeyManager σ → KeyManager σ × Throws Unit))
    (hcalls : ∀ call ∈ calls, ∀ m : KeyManager σ,
      nextEcHandle (call m).1.hsm = nextEcHandle m.hsm) (m : KeyManager σ) :
    nextEcHandle (Node.RadioNode.inOrder calls m).1.hsm = nextEcHandle m.hsm := by
  induction calls generalizing m with
  | nil => rfl
  | cons call calls ih =>
    have hfirst := hcalls call List.mem_cons_self m
    unfold Node.RadioNode.inOrder
    generalize call m = r at hfirst ⊢
    rcases r with ⟨m', e | u⟩
    · exact hfirst
    · exact (ih (fun c hc => hcalls c (List.mem_cons_of_mem _ hc)) m').trans hfirst

theorem zeroizeRun (h : Forgets E nextEcHandle shutdown) {τ : Type}
    (R : Transec.IAxiRegs τ) (ikHandle : CkHandle) (regs : τ) (m : KeyManager σ) :
    ∃ hsm, nextEcHandle hsm = nextEcHandle m.hsm ∧
      (Transec.zeroizeRun R E shutdown ikHandle regs m).2.1 =
        ⟨shutdown hsm, none, none, none, 0⟩ := by
  refine ⟨_, ?_, rfl⟩
  have hkek := h.reset m.hsm m.kek
  have htek := h.reset (E.reset m.hsm m.kek) m.tek
  have hfhek := h.reset (E.reset (E.reset m.hsm m.kek) m.tek) m.fhek
  exact ((h.reset _ (some ikHandle)).trans hfhek).trans (htek.trans hkek)

end Forgets

end Cirradio.Security
