import Mathlib.Tactic.Common
import Mathlib.Tactic.NormNum
import Mathlib.Tactic.Ring

/-!
# Words as byte strings

The value of a byte string read from either end. What the last bytes of a string
contribute to its value is the remainder by a power of 256.
-/

namespace Cirradio.ByteWords

/-- The value with the first byte the least significant. -/
def littleEndian : List UInt8 → ℕ
  | [] => 0
  | b :: bytes => b.toNat + 256 * littleEndian bytes

/-- The value with the first byte the most significant. -/
def bigEndian (bytes : List UInt8) : ℕ := littleEndian bytes.reverse

@[simp] theorem littleEndian_nil : littleEndian [] = 0 := rfl

@[simp] theorem littleEndian_cons (b : UInt8) (bytes : List UInt8) :
    littleEndian (b :: bytes) = b.toNat + 256 * littleEndian bytes := rfl

theorem littleEndian_lt (bytes : List UInt8) : littleEndian bytes < 256 ^ bytes.length := by
  induction bytes with
  | nil => exact Nat.one_pos
  | cons b bytes ih =>
    have hb : b.toNat < 256 := b.toNat_lt
    rw [littleEndian_cons, List.length_cons, Nat.pow_succ]
    omega

theorem bigEndian_lt (bytes : List UInt8) : bigEndian bytes < 256 ^ bytes.length := by
  have h := littleEndian_lt bytes.reverse
  rwa [List.length_reverse] at h

theorem littleEndian_append (low high : List UInt8) :
    littleEndian (low ++ high) = littleEndian low + 256 ^ low.length * littleEndian high := by
  induction low with
  | nil => simp
  | cons b low ih =>
    rw [List.cons_append, littleEndian_cons, littleEndian_cons, ih, List.length_cons]
    ring

/-- The bits of a value are those of its bytes. -/
theorem testBit_littleEndian (bytes : List UInt8) (j : ℕ) :
    (littleEndian bytes).testBit j = (bytes.getD (j / 8) 0).toNat.testBit (j % 8) := by
  induction bytes generalizing j with
  | nil => simp
  | cons b bytes ih =>
    have hb : b.toNat < 2 ^ 8 := b.toNat_lt
    have hsplit : littleEndian (b :: bytes) = 2 ^ 8 * littleEndian bytes + b.toNat := by
      rw [littleEndian_cons]
      omega
    rw [hsplit, Nat.testBit_two_pow_mul_add _ hb]
    split
    · next hlow => rw [Nat.div_eq_of_lt hlow, Nat.mod_eq_of_lt hlow, List.getD_cons_zero]
    · next hhigh =>
      have hdiv : j / 8 = (j - 8) / 8 + 1 := by omega
      have hmod : j % 8 = (j - 8) % 8 := by omega
      rw [ih, hdiv, hmod, List.getD_cons_succ]

theorem bigEndian_drop (bytes : List UInt8) (n : ℕ) :
    bigEndian (bytes.drop n) = bigEndian bytes % 256 ^ (bytes.length - n) := by
  have hlen : (bytes.drop n).reverse.length = bytes.length - n := by
    rw [List.length_reverse, List.length_drop]
  have hsplit : bigEndian bytes = bigEndian (bytes.drop n) +
      256 ^ (bytes.length - n) * littleEndian (bytes.take n).reverse := by
    conv_lhs => rw [← List.take_append_drop n bytes]
    rw [bigEndian, List.reverse_append, littleEndian_append, hlen]
    rfl
  have hlt : bigEndian (bytes.drop n) < 256 ^ (bytes.length - n) := by
    have h := bigEndian_lt (bytes.drop n)
    rwa [List.length_drop] at h
  rw [hsplit, Nat.add_mul_mod_self_left, Nat.mod_eq_of_lt hlt]

theorem littleEndian_replicate_zero (n : ℕ) : littleEndian (List.replicate n 0) = 0 := by
  induction n with
  | zero => rfl
  | succ n ih => rw [List.replicate_succ, littleEndian_cons, ih]; rfl

/-- The sixteen bytes of a 128-bit word, most significant first. -/
def wordBytes (w : BitVec 128) : Vector UInt8 16 :=
  Vector.ofFn fun i => UInt8.ofNat (w.toNat >>> (8 * (15 - i.val)))

/-- The 128-bit word of sixteen bytes, most significant first. -/
def bytesWord (bytes : Vector UInt8 16) : BitVec 128 :=
  BitVec.ofNat 128 (bigEndian bytes.toList)

theorem bytesWord_low (bytes : Vector UInt8 16) :
    ((bytesWord bytes).setWidth 64).toNat = bigEndian (bytes.toList.drop 8) := by
  have hlen : bytes.toList.length = 16 := Vector.length_toList
  rw [bigEndian_drop bytes.toList 8, hlen, bytesWord, BitVec.toNat_setWidth,
    BitVec.toNat_ofNat]
  exact Nat.mod_mod_of_dvd _ (by norm_num)

end Cirradio.ByteWords
