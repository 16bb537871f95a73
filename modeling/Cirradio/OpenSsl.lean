import Mathlib.Data.List.Basic
import Mathlib.Tactic.Common

/-!
# The OpenSSL calls of the security code

The library itself is outside the repository. Its calls are functions of exactly
the bytes handed to them; what randomness they draw is an argument. `none` is a
call that reports failure.
-/

namespace Cirradio.Security

/-- `std::vector<uint8_t>`. -/
abbrev Bytes := List UInt8

/-- Bytes drawn by `RAND_bytes` into a buffer of fixed size. -/
abbrev RandBytes (n : ℕ) := Vector UInt8 n

structure OpenSsl where
  /-- `ec_sign`: DER private key, data, and the randomness of the signature. -/
  ecSign : Bytes → Bytes → Bytes → Option Bytes
  /-- `ec_verify`: DER public key, data, signature. -/
  ecVerify : Bytes → Bytes → Bytes → Bool
  /-- The `EVP_aes_256_gcm` encryption sequence: key, IV, plaintext to ciphertext and tag. -/
  gcmEncrypt : Bytes → Bytes → Bytes → Option (Bytes × Vector UInt8 16)

/-- AES-256-GCM encryption succeeds under every key of the right size. -/
def OpenSsl.GcmTotal (ssl : OpenSsl) : Prop :=
  ∀ key iv plaintext, key.length = 32 → (ssl.gcmEncrypt key iv plaintext).isSome

/-- The key stream of `xorSsl`: the key, repeated. -/
def xorStream (key data : Bytes) : Bytes :=
  data.mapIdx fun i b => b ^^^ key.getD (i % 32) 0

/-- A small library for runs on fixed inputs. A signature is the key followed by the
data; encryption adds the key to the plaintext bit by bit, and the tag depends on the
key alone. -/
def xorSsl : OpenSsl where
  ecSign key data _ := some (key ++ data)
  ecVerify key data signature := signature == key ++ data
  gcmEncrypt key _ plaintext :=
    some (xorStream key plaintext, Vector.ofFn fun i => key.getD i 0)

/-- Decryption for `xorSsl` of IV, ciphertext and tag, refused when the tag does not
match the key. -/
def xorDecrypt (key wire : Bytes) : Option Bytes :=
  let body := wire.drop 12
  let ciphertext := body.take (body.length - 16)
  let tag := body.drop (body.length - 16)
  if tag = (Vector.ofFn fun i : Fin 16 => key.getD i 0).toList then
    some (xorStream key ciphertext)
  else none

theorem xorStream_xorStream (key data : Bytes) : xorStream key (xorStream key data) = data := by
  apply List.ext_getElem?
  intro i
  simp only [xorStream, List.getElem?_mapIdx, Option.map_map]
  cases data[i]? with
  | none => rfl
  | some b => simp [UInt8.xor_assoc]

theorem xorDecrypt_encrypt (key plaintext : Bytes) (iv : RandBytes 12) :
    xorDecrypt key (iv.toList ++ xorStream key plaintext ++
      (Vector.ofFn fun i : Fin 16 => key.getD i 0).toList) = some plaintext := by
  have hiv : iv.toList.length = 12 := Vector.length_toList
  have htag : (Vector.ofFn fun i : Fin 16 => key.getD i 0).toList.length = 16 :=
    Vector.length_toList
  simp only [xorDecrypt, List.append_assoc, List.drop_left' hiv, List.length_append, htag,
    Nat.add_sub_cancel, List.drop_left, List.take_left, if_true, xorStream_xorStream]

end Cirradio.Security
