import Cirradio.OpenSsl
import Mathlib.Logic.Function.Basic

/-!
# The HSM interface

An engine is known through its calls, each of which may fail by returning nothing or
by throwing. `KeyObjects` states what a working engine does with the key objects
behind its handles: a call that creates one hands out a fresh handle, a failed call
creates none, and wrapping depends on the key values alone.
-/

namespace Cirradio.Security

universe u

/-- An opaque object handle. Zero refers to no object. -/
abbrev CkHandle := ℕ

inductive KeyType where
  | aes256
  deriving DecidableEq, Repr

/-- The text of a thrown `std::runtime_error`, or the value returned. -/
abbrev Throws (α : Type) := Except String α

structure IHsmEngine (σ : Type u) where
  generateKey : σ → KeyType → String → σ × Throws CkHandle
  encrypt : σ → CkHandle → Bytes → σ × Throws (Option Bytes)
  decrypt : σ → CkHandle → Bytes → σ × Throws (Option Bytes)
  /-- The wrapping key, then the key to wrap. -/
  wrapKey : σ → CkHandle → CkHandle → σ × Throws (Option Bytes)
  unwrapKey : σ → CkHandle → Bytes → σ × Throws (Option CkHandle)
  exportRaw : σ → CkHandle → σ × Throws (Option Bytes)
  importRaw : σ → Bytes → String → σ × Throws (Option CkHandle)
  destroyKey : σ → CkHandle → σ × Bool
  eciesDecrypt : σ → CkHandle → Bytes → σ × Throws (Option Bytes)

variable {σ : Type u}

/-- `HsmKeyHandle::reset` on the handle that an optional holds. -/
def IHsmEngine.reset (E : IHsmEngine σ) (s : σ) : Option CkHandle → σ
  | none => s
  | some h => if h = 0 then s else (E.destroyKey s h).1

/-- A call that may create a key object: it hands out a fresh handle to an object with
one of the values, or leaves every object as it is. -/
def Creates (key : σ → CkHandle → Option Bytes) (s : σ) (values : Bytes → Prop) (s' : σ) :
    Option CkHandle → Prop
  | some h => h ≠ 0 ∧ key s h = none ∧
      ∃ v, values v ∧ key s' = Function.update (key s) h (some v)
  | none => key s' = key s

/-- The handle that a call returned, if it neither threw nor returned nothing. -/
def Throws.handle : Throws (Option CkHandle) → Option CkHandle
  | .ok h => h
  | .error _ => none

/-- The key objects of an engine, and what its calls do to them. -/
structure KeyObjects (E : IHsmEngine σ) where
  key : σ → CkHandle → Option Bytes
  /-- AES key wrap: wrapping key, then wrapped key. -/
  wrap : Bytes → Bytes → Bytes
  unwrap : Bytes → Bytes → Option Bytes
  generateKey_creates (s : σ) (type : KeyType) (label : String) :
    Creates key s (fun _ => True) (E.generateKey s type label).1
      (E.generateKey s type label).2.toOption
  importRaw_creates (s : σ) (bytes : Bytes) (label : String) :
    Creates key s (fun v => v = bytes) (E.importRaw s bytes label).1
      (E.importRaw s bytes label).2.handle
  unwrapKey_creates (s : σ) (kek : CkHandle) (wrapped : Bytes) :
    Creates key s (fun v => ∃ k, key s kek = some k ∧ unwrap k wrapped = some v)
      (E.unwrapKey s kek wrapped).1 (E.unwrapKey s kek wrapped).2.handle
  wrapKey_key (s : σ) (kek h : CkHandle) : key (E.wrapKey s kek h).1 = key s
  wrapKey_value {s : σ} {kek h : CkHandle} {wrapped : Bytes} :
    (E.wrapKey s kek h).2 = .ok (some wrapped) →
      ∃ k v, key s kek = some k ∧ key s h = some v ∧ wrapped = wrap k v
  destroyKey_key (s : σ) (h : CkHandle) :
    key (E.destroyKey s h).1 = Function.update (key s) h none

namespace KeyObjects
variable {E : IHsmEngine σ}

/-- Unwrapping undoes wrapping, and an engine that can unwrap does. -/
structure Unwraps (K : KeyObjects E) : Prop where
  unwrap_wrap (k v : Bytes) : K.unwrap k (K.wrap k v) = some v
  unwrapKey_isSome {s : σ} {kek : CkHandle} {wrapped k v : Bytes} :
    K.key s kek = some k → K.unwrap k wrapped = some v →
      (E.unwrapKey s kek wrapped).2.handle.isSome

theorem reset_key (K : KeyObjects E) (s : σ) {held : Option CkHandle} {h : CkHandle}
    (hne : held ≠ some h) : K.key (E.reset s held) h = K.key s h := by
  cases held with
  | none => rfl
  | some h' =>
    have hh : h ≠ h' := fun he => hne (congrArg some he.symm)
    simp only [IHsmEngine.reset]
    split_ifs
    · rfl
    · rw [K.destroyKey_key, Function.update_of_ne hh]

end KeyObjects

/-- The value behind a handle of `tableHsm`. -/
def tableKey (s : List (Option Bytes)) : CkHandle → Option Bytes
  | 0 => none
  | i + 1 => s[i]?.join

/-- Key wrap of `tableHsm`: the wrapped key behind the wrapping key. -/
def tableUnwrap (k wrapped : Bytes) : Option Bytes :=
  if wrapped.take k.length = k then some (wrapped.drop k.length) else none

/-- An engine for runs on fixed inputs. Its state lists the objects ever created, the
destroyed ones emptied, and the handle of an object is its place counted from one. -/
def tableHsm : IHsmEngine (List (Option Bytes)) where
  generateKey s _ _ :=
    (s ++ [some (List.replicate 32 (UInt8.ofNat s.length))], .ok (s.length + 1))
  encrypt s h plaintext := (s, .ok ((tableKey s h).map fun k => k ++ plaintext))
  decrypt s h wire := (s, .ok ((tableKey s h).bind fun k => tableUnwrap k wire))
  wrapKey s kek h :=
    (s, .ok ((tableKey s kek).bind fun k => (tableKey s h).map fun v => k ++ v))
  unwrapKey s kek wrapped :=
    match (tableKey s kek).bind fun k => tableUnwrap k wrapped with
    | none => (s, .ok none)
    | some v => (s ++ [some v], .ok (some (s.length + 1)))
  exportRaw s h := (s, .ok (tableKey s h))
  importRaw s bytes _ :=
    if bytes.length ≠ 32 then (s, .ok none)
    else (s ++ [some bytes], .ok (some (s.length + 1)))
  destroyKey s h :=
    match h with
    | 0 => (s, false)
    | i + 1 => (s.set i none, true)
  eciesDecrypt s _ payload :=
    if payload.length < 125 then (s, .ok none)
    else (s, .ok (some ((payload.drop 109).take (payload.length - 125))))

theorem tableKey_fresh (s : List (Option Bytes)) : tableKey s (s.length + 1) = none := by
  simp [tableKey]

theorem tableKey_append (s : List (Option Bytes)) (v : Bytes) :
    tableKey (s ++ [some v]) = Function.update (tableKey s) (s.length + 1) (some v) := by
  funext h
  cases h with
  | zero => rfl
  | succ i =>
    rcases Nat.lt_trichotomy i s.length with hi | hi | hi
    · have hne : i + 1 ≠ s.length + 1 := by omega
      rw [Function.update_of_ne hne]
      simp [tableKey, List.getElem?_append_left hi]
    · subst hi
      simp [tableKey]
    · have hne : i + 1 ≠ s.length + 1 := by omega
      rw [Function.update_of_ne hne]
      have hge : s.length ≤ i := Nat.le_of_lt hi
      have hge' : (s ++ [some v]).length ≤ i := by
        rw [List.length_append, List.length_singleton]
        exact hi
      simp [tableKey, List.getElem?_eq_none hge, List.getElem?_eq_none hge']

theorem tableKey_creates (s : List (Option Bytes)) (values : Bytes → Prop) {v : Bytes}
    (hv : values v) : Creates tableKey s values (s ++ [some v]) (some (s.length + 1)) :=
  ⟨Nat.succ_ne_zero _, tableKey_fresh s, v, hv, tableKey_append s v⟩

/-- The key objects of `tableHsm`. -/
def tableKeys : KeyObjects tableHsm where
  key := tableKey
  wrap k v := k ++ v
  unwrap := tableUnwrap
  generateKey_creates s _ _ := tableKey_creates s _ trivial
  importRaw_creates s bytes _ := by
    by_cases h : bytes.length = 32
    · have hc := tableKey_creates s (fun v => v = bytes) rfl
      simpa [tableHsm, h, Throws.handle] using hc
    · simp [tableHsm, h, Throws.handle, Creates]
  unwrapKey_creates s kek wrapped := by
    cases hk : tableKey s kek with
    | none => simp [tableHsm, hk, Throws.handle, Creates]
    | some k =>
      cases hu : tableUnwrap k wrapped with
      | none => simp [tableHsm, hk, hu, Throws.handle, Creates]
      | some v =>
        have hc := tableKey_creates s
          (fun v => ∃ k, tableKey s kek = some k ∧ tableUnwrap k wrapped = some v) ⟨k, hk, hu⟩
        simpa [tableHsm, hk, hu, Throws.handle] using hc
  wrapKey_key _ _ _ := rfl
  wrapKey_value {s kek h wrapped} hw := by
    cases hk : tableKey s kek with
    | none => simp [tableHsm, hk] at hw
    | some k =>
      cases hv : tableKey s h with
      | none => simp [tableHsm, hk, hv] at hw
      | some v => exact ⟨k, v, rfl, rfl, by simpa [tableHsm, hk, hv] using hw.symm⟩
  destroyKey_key s h := by
    cases h with
    | zero =>
      funext h'
      by_cases hz : h' = 0
      · subst hz
        simp [tableKey]
      · simp [tableHsm, Function.update_of_ne hz]
    | succ i =>
      funext h'
      cases h' with
      | zero => simp [tableKey, Function.update_of_ne]
      | succ j =>
        by_cases hij : i = j
        · subst hij
          by_cases hi : i < s.length
          · simp [tableHsm, tableKey, hi]
          · simp [tableHsm, tableKey, hi]
        · have hne : j + 1 ≠ i + 1 := fun h => hij (Nat.succ.inj h).symm
          simp [tableHsm, tableKey, Function.update_of_ne hne, List.getElem?_set_ne hij]

theorem tableKeys_unwraps : tableKeys.Unwraps where
  unwrap_wrap k v := by simp [tableKeys, tableUnwrap]
  unwrapKey_isSome {s kek wrapped k v} hk hu := by
    have hk : tableKey s kek = some k := hk
    have hu : tableUnwrap k wrapped = some v := hu
    simp [tableHsm, hk, hu, Throws.handle]

end Cirradio.Security
