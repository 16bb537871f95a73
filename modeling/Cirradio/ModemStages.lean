import Cirradio.Modem
import Mathlib.Data.Nat.Basic

/-!
# The stages of the modem

What each stage makes of the sequence of bits that enters it, however long it takes: one
sequence as a function of the other, and counts of what has gone in and come out.
-/

namespace Cirradio.Fpga
open Transposers

/-- A register after `n` bits of a sequence have been shifted in. -/
def shifted {w : ℕ} (start : BitVec w) (f : ℕ → Bool) : ℕ → BitVec w
  | 0 => start
  | n + 1 => (shifted start f n).shiftConcat (f n)

theorem getLsbD_shifted {w : ℕ} (start : BitVec w) (f : ℕ → Bool) (n : ℕ) {d : ℕ} (hd : d < w) :
    (shifted start f n).getLsbD d = if d < n then f (n - 1 - d) else start.getLsbD (d - n) := by
  induction n generalizing d with
  | zero => rfl
  | succ n ih =>
    rw [shifted, BitVec.getLsbD_shiftConcat, decide_eq_true hd, Bool.true_and]
    cases d with
    | zero => rfl
    | succ d =>
      rw [if_neg (Nat.succ_ne_zero d), Nat.add_sub_cancel, ih (Nat.lt_of_succ_lt hd),
        Nat.add_sub_cancel, Nat.add_sub_add_right]
      by_cases hn : d < n
      · rw [if_pos hn, if_pos (Nat.succ_lt_succ hn), Nat.sub_sub, Nat.add_comm 1 d]
      · rw [if_neg hn, if_neg fun h => hn (Nat.lt_of_succ_lt_succ h)]

/-- The value of a sequence some places back, and zero before its start. -/
def back (f : ℕ → Bool) (n d : ℕ) : Bool := decide (d ≤ n) && f (n - d)

theorem getLsbD_shifted_zero {w : ℕ} (f : ℕ → Bool) (n : ℕ) {d : ℕ} (hd : d < w) :
    (shifted 0#w f (n + 1)).getLsbD d = back f n d := by
  rw [getLsbD_shifted _ _ _ hd, BitVec.getLsbD_zero, back, Nat.add_sub_cancel]
  by_cases hn : d ≤ n
  · rw [if_pos (Nat.lt_succ_of_le hn), decide_eq_true hn, Bool.true_and]
  · rw [if_neg fun h => hn (Nat.le_of_lt_succ h), decide_eq_false hn, Bool.false_and]

/-- The register of the scrambler runs on its own. -/
def lfsrAt : ℕ → BitVec 7
  | 0 => 0x7F
  | n + 1 => (lfsrAt n).shiftConcat (lfsrBit (lfsrAt n))

def scrambled (b : ℕ → Bool) (n : ℕ) : Bool := b n ^^ lfsrBit (lfsrAt n)

/-- The bit of the first generator. -/
def coded (b : ℕ → Bool) (n : ℕ) : Bool :=
  back (scrambled b) n 0 ^^ back (scrambled b) n 1 ^^ back (scrambled b) n 3 ^^
    back (scrambled b) n 4 ^^ back (scrambled b) n 6

theorem encOut0_shifted (b : ℕ → Bool) (n : ℕ) :
    encOut0 (shifted 0#7 (scrambled b) (n + 1)) = coded b n := by
  rw [encOut0, coded]
  iterate 5 rw [getLsbD_shifted_zero _ _ (by decide)]

namespace Serializer

/-- Of a sequence of bits, the first `t` bytes have been accepted and `m` bits have been
passed on. -/
structure Sends (b : ℕ → Bool) (t m : ℕ) (s : Serializer) : Prop where
  lfsrTx : s.lfsrTx = lfsrAt (m + s.txBitValid.toNat)
  encShift : s.encShift = shifted 0#7 (scrambled b) (m + s.txBitValid.toNat)
  done : s.txActive = false → m + s.txBitValid.toNat = 8 * t
  begun : s.txActive = true → m + s.txBitValid.toNat + 8 = 8 * t + s.txBitCnt.toNat
  left : s.txActive = true → ∀ z, s.txBitCnt.toNat + z < 8 →
    s.txByte.getLsbD (7 - z) = b (m + s.txBitValid.toNat + z)

/-- A byte is not accepted in place of the last bit of the byte before. -/
def Whole (s : Serializer) (tx : Option (BitVec 8)) : Prop :=
  tx.isSome = true → s.txActive = true → s.txBitCnt ≠ 7

instance (s : Serializer) (tx : Option (BitVec 8)) : Decidable (s.Whole tx) :=
  inferInstanceAs (Decidable (_ = true → _ = true → _))

theorem next_cases (s : Serializer) {tx : Option (BitVec 8)} (hwhole : s.Whole tx) :
    (∃ data, s.accepts tx = some data ∧ s.txActive = false ∧ s.next tx =
      { s with txByte := data, txActive := true, txBitCnt := 0, txBitValid := false }) ∨
    (s.accepts tx = none ∧ s.txActive = true ∧ s.next tx = s.shiftOut) ∨
    (s.accepts tx = none ∧ s.txActive = false ∧ s.next tx = { s with txBitValid := false }) := by
  unfold Serializer.next
  cases haccepts : s.accepts tx with
  | some data =>
    refine .inl ⟨data, rfl, ?_, rfl⟩
    rw [accepts] at haccepts
    split at haccepts
    · next hready =>
      rw [txReady, Bool.or_eq_true, Bool.not_eq_true', beq_iff_eq] at hready
      by_contra hactive
      rw [Bool.not_eq_false] at hactive
      have hseven := hwhole (by rw [haccepts]; rfl) hactive
      rcases hready with hoff | hcnt
      · exact absurd (hoff.symm.trans hactive) Bool.false_ne_true
      · exact hseven hcnt
    · cases haccepts
  | none =>
    dsimp only
    by_cases hactive : s.txActive = true
    · rw [if_pos hactive]
      exact .inr (.inl ⟨rfl, hactive, rfl⟩)
    · rw [if_neg hactive]
      exact .inr (.inr ⟨rfl, Bool.eq_false_iff.mpr hactive, rfl⟩)

theorem toNat_succ_of_ne {cnt : BitVec 3} (hne : cnt ≠ 7) : (cnt + 1).toNat = cnt.toNat + 1 := by
  have hval : cnt.toNat ≠ 7 := fun h => hne (BitVec.eq_of_toNat_eq h)
  have hlt := cnt.isLt
  rw [BitVec.toNat_add]
  change (cnt.toNat + 1) % 8 = _
  omega

theorem isSome_bit (s : Serializer) : s.bit.isSome = s.txBitValid := by
  unfold bit
  cases s.txBitValid <;> rfl

namespace Sends
variable {b : ℕ → Bool} {t m : ℕ} {s : Serializer}

theorem reset (b : ℕ → Bool) : Serializer.reset.Sends b 0 0 where
  lfsrTx := rfl
  encShift := rfl
  done _ := rfl
  begun h := absurd h Bool.false_ne_true
  left h := absurd h Bool.false_ne_true

theorem bit_eq (h : s.Sends b t m) : ∀ v ∈ s.bit, v = coded b m := by
  intro v hv
  unfold bit at hv
  split at hv
  · next hvalid =>
    have hshift := h.encShift
    rw [hvalid] at hshift
    cases hv
    rw [hshift]
    exact encOut0_shifted b m
  · cases hv

theorem accept (h : s.Sends b t m) (hidle : s.txActive = false) {data : BitVec 8}
    (hdata : ∀ z < 8, data.getLsbD (7 - z) = b (8 * t + z)) :
    Sends b (t + 1) (m + s.txBitValid.toNat)
      { s with txByte := data, txActive := true, txBitCnt := 0, txBitValid := false } where
  lfsrTx := h.lfsrTx
  encShift := h.encShift
  done hno := absurd hno.symm Bool.false_ne_true
  begun _ := by
    have := h.done hidle
    change m + s.txBitValid.toNat + 0 + 8 = 8 * (t + 1) + 0
    omega
  left _ z hz := by
    rw [Bool.toNat_false, Nat.add_zero, h.done hidle]
    exact hdata z (by simpa using hz)

theorem shiftOut (h : s.Sends b t m) (hactive : s.txActive = true) :
    s.shiftOut.Sends b t (m + s.txBitValid.toNat) where
  lfsrTx := by
    rw [Serializer.shiftOut, h.lfsrTx]
    rfl
  encShift := by
    have hbit := h.left hactive 0 s.txBitCnt.isLt
    rw [Nat.sub_zero, Nat.add_zero] at hbit
    rw [Serializer.shiftOut, h.lfsrTx, h.encShift, hbit]
    rfl
  done hlast := by
    have hcnt : s.txBitCnt.toNat = 7 := congrArg BitVec.toNat (bne_eq_false_iff_eq.mp hlast)
    have hbegun := h.begun hactive
    change m + s.txBitValid.toNat + 1 = _
    omega
  begun hmore := by
    have hcnt := toNat_succ_of_ne (bne_iff_ne.mp hmore)
    have hbegun := h.begun hactive
    change m + s.txBitValid.toNat + 1 + 8 = 8 * t + (s.txBitCnt + 1).toNat
    omega
  left hmore z hz := by
    have hcnt := toNat_succ_of_ne (bne_iff_ne.mp hmore)
    change (s.txBitCnt + 1).toNat + z < 8 at hz
    change (s.txByte.shiftConcat false).getLsbD (7 - z) = b (m + s.txBitValid.toNat + 1 + z)
    have hbit := h.left hactive (z + 1) (by omega)
    rw [BitVec.getLsbD_shiftConcat, decide_eq_true (by omega), Bool.true_and,
      if_neg (by omega), Nat.sub_sub, hbit]
    congr 1
    omega

theorem next (h : s.Sends b t m) {tx : Option (BitVec 8)} (hwhole : s.Whole tx)
    (htx : ∀ data ∈ s.accepts tx, ∀ z < 8, data.getLsbD (7 - z) = b (8 * t + z)) :
    (s.next tx).Sends b (t + (s.accepts tx).isSome.toNat) (m + s.txBitValid.toNat) := by
  rcases s.next_cases hwhole with ⟨data, haccepts, hidle, hnext⟩ | ⟨hnone, hactive, hnext⟩ |
    ⟨hnone, hidle, hnext⟩
  · rw [hnext, haccepts]
    exact h.accept hidle (htx data haccepts)
  · rw [hnext, hnone]
    exact h.shiftOut hactive
  · rw [hnext, hnone]
    exact {
      lfsrTx := h.lfsrTx
      encShift := h.encShift
      done := h.done
      begun := fun hyes => absurd (hidle.symm.trans hyes) Bool.false_ne_true
      left := fun hyes => absurd (hidle.symm.trans hyes) Bool.false_ne_true }

theorem le (h : s.Sends b t m) : m ≤ 8 * t := by
  have hlt := s.txBitCnt.isLt
  cases hactive : s.txActive with
  | false =>
    have := h.done hactive
    omega
  | true =>
    have := h.begun hactive
    omega

end Sends
end Serializer

/-- The signs of a symbol are two bits in a row. -/
def symbolAt (g : ℕ → Bool) (k : ℕ) : Bool × Bool := (g (2 * k), g (2 * k + 1))

namespace Mapper

theorem msb_ite (bit : Bool) : (if bit then neg else pos).msb = bit := by
  cases bit <;> rfl

theorem gotFirstBit_of_next {s : Mapper} {x : Option Bool} (h : (s.next x).qpskValid = true) :
    s.gotFirstBit = true ∧ (s.next x).gotFirstBit = false := by
  cases x with
  | none => exact absurd h Bool.false_ne_true
  | some bit =>
    unfold next at h ⊢
    dsimp only at h ⊢
    by_cases hgot : s.gotFirstBit = true
    · rw [if_pos hgot]
      exact ⟨hgot, rfl⟩
    · rw [if_neg hgot] at h
      exact absurd h Bool.false_ne_true

theorem isSome_symbol (s : Mapper) : s.symbol.isSome = s.qpskValid := by
  unfold symbol
  cases s.qpskValid <;> rfl

/-- Of a sequence of bits, `p` have gone in and `k` symbols have come out. -/
structure Maps (g : ℕ → Bool) (p k : ℕ) (s : Mapper) : Prop where
  paired : p = 2 * (k + s.qpskValid.toNat) + s.gotFirstBit.toNat
  first : s.gotFirstBit = true → s.firstBit = g (2 * (k + s.qpskValid.toNat))
  held : s.qpskValid = true → (s.qpskI.msb, s.qpskQ.msb) = symbolAt g k

namespace Maps
variable {g : ℕ → Bool} {p k : ℕ} {s : Mapper}

theorem reset (g : ℕ → Bool) (s : Mapper) : s.reset.Maps g 0 0 where
  paired := rfl
  first h := absurd h Bool.false_ne_true
  held h := absurd h Bool.false_ne_true

theorem symbol_eq (h : s.Maps g p k) : ∀ v ∈ s.symbol, v = symbolAt g k := by
  intro v hv
  unfold symbol at hv
  split at hv
  · next hvalid =>
    cases hv
    exact h.held hvalid
  · cases hv

theorem next (h : s.Maps g p k) {x : Option Bool} (hx : ∀ v ∈ x, v = g p) :
    (s.next x).Maps g (p + x.isSome.toNat) (k + s.qpskValid.toNat) := by
  have hpaired := h.paired
  cases x with
  | none => exact ⟨hpaired, h.first, fun hno => absurd hno Bool.false_ne_true⟩
  | some bit =>
    rw [hx bit rfl]
    unfold Mapper.next
    dsimp only
    by_cases hgot : s.gotFirstBit = true
    · rw [hgot, Bool.toNat_true] at hpaired
      rw [if_pos hgot]
      refine ⟨?_, fun hno => absurd hno Bool.false_ne_true, fun _ => ?_⟩
      · change p + 1 = 2 * (k + s.qpskValid.toNat + 1) + 0
        omega
      · rw [msb_ite, msb_ite, h.first hgot, hpaired, symbolAt]
    · rw [Bool.eq_false_iff.mpr hgot, Bool.toNat_false] at hpaired
      rw [if_neg hgot]
      refine ⟨?_, fun _ => congrArg g hpaired, fun hno => absurd hno Bool.false_ne_true⟩
      change p + 1 = 2 * (k + s.qpskValid.toNat + 0) + 1
      omega

end Maps
end Mapper

/-- The symbols from one place up to another are in flight. -/
def InFlight (sym : ℕ → Bool × Bool) (k c : ℕ) (inFlight : List (Bool × Bool)) : Prop :=
  c + inFlight.length = k ∧ inFlight = (List.range' c inFlight.length).map sym

namespace InFlight
variable {sym : ℕ → Bool × Bool} {k c : ℕ} {inFlight : List (Bool × Bool)}

theorem nil (sym : ℕ → Bool × Bool) : InFlight sym 0 0 [] := ⟨rfl, rfl⟩

theorem append (h : InFlight sym k c inFlight) {x : Option (Bool × Bool)}
    (hx : ∀ v ∈ x, v = sym k) :
    InFlight sym (k + x.isSome.toNat) c (inFlight ++ x.toList) := by
  cases x with
  | none => rwa [Option.toList_none, List.append_nil]
  | some v =>
    obtain ⟨hlen, hmap⟩ := h
    rw [Option.toList_some, hx v rfl]
    refine ⟨?_, ?_⟩
    · rw [List.length_append, List.length_singleton, ← Nat.add_assoc, hlen]
      rfl
    · rw [List.length_append, List.length_singleton, List.range'_1_concat, List.map_append,
        ← hmap, hlen]
      rfl

theorem tail (h : InFlight sym k c inFlight) :
    InFlight sym k (c + inFlight.head?.isSome.toNat) inFlight.tail := by
  cases inFlight with
  | nil => exact h
  | cons v rest =>
    obtain ⟨hlen, hmap⟩ := h
    rw [List.length_cons, List.range'_succ, List.map_cons, List.cons.injEq] at hmap
    refine ⟨?_, hmap.2⟩
    rw [List.length_cons] at hlen
    change c + 1 + rest.length = k
    omega

theorem head_eq (h : InFlight sym k c inFlight) : ∀ v ∈ inFlight.head?, v = sym c := by
  intro v hv
  cases inFlight with
  | nil => cases hv
  | cons first rest =>
    have hmap := h.2
    rw [List.length_cons, List.range'_succ, List.map_cons, List.cons.injEq] at hmap
    cases hv
    exact hmap.1

end InFlight

/-- A bit is added to the bits six and seven places before, which are ones at first. -/
def descrambled (r : ℕ → Bool) (n : ℕ) : Bool := r n ^^ lfsrBit (shifted 0x7F#7 r n)

theorem descrambled_eq (r : ℕ → Bool) {n : ℕ} (hn : 7 ≤ n) :
    descrambled r n = (r n ^^ (r (n - 7) ^^ r (n - 6))) := by
  rw [descrambled, lfsrBit, getLsbD_shifted _ _ _ (by decide), getLsbD_shifted _ _ _ (by decide),
    if_pos (by omega), if_pos (by omega), Nat.sub_sub, Nat.sub_sub]

namespace Descrambler

theorem isSome_byte (s : Descrambler) : s.byte.isSome = s.rxValid := by
  unfold byte
  cases s.rxValid <;> rfl

/-- Of a sequence of bits, `n` have gone in and `k` bytes have come out. -/
structure Collects (r : ℕ → Bool) (n k : ℕ) (s : Descrambler) : Prop where
  rxByte : s.rxByte = shifted 0#8 (descrambled r) n
  rxBitCnt : s.rxBitCnt.toNat = n % 8
  lfsrRx : s.lfsrRx = shifted 0x7F#7 r n
  rxSymCount : s.rxSymCount.toNat = min n 200
  taken : k + s.rxValid.toNat = n / 8 - 25
  held : s.rxValid = true → s.rxData = shifted 0#8 (descrambled r) (8 * (25 + k) + 8)

namespace Collects
variable {r : ℕ → Bool} {n k : ℕ} {s : Descrambler}

theorem reset (r : ℕ → Bool) : Descrambler.reset.Collects r 0 0 where
  rxByte := rfl
  rxBitCnt := rfl
  lfsrRx := rfl
  rxSymCount := rfl
  taken := rfl
  held h := absurd h Bool.false_ne_true

theorem byte_eq (h : s.Collects r n k) :
    ∀ data ∈ s.byte, ∀ z < 8, data.getLsbD (7 - z) = descrambled r (8 * (25 + k) + z) := by
  intro data hdata z hz
  unfold byte at hdata
  split at hdata
  · next hvalid =>
    cases hdata
    rw [h.held hvalid, getLsbD_shifted _ _ _ (by omega), if_pos (by omega)]
    congr 1
    omega
  · cases hdata

theorem full_iff (h : s.Collects r n k) :
    (s.rxBitCnt == 7 && decide (200 ≤ s.rxSymCount)) = true ↔ n % 8 = 7 ∧ 200 ≤ n := by
  have hcnt : s.rxBitCnt = 7 ↔ n % 8 = 7 := by
    rw [← h.rxBitCnt, ← BitVec.toNat_inj]
    rfl
  have hsym : 200 ≤ s.rxSymCount ↔ 200 ≤ n := by
    rw [BitVec.le_def, h.rxSymCount]
    change 200 ≤ min n 200 ↔ _
    omega
  rw [Bool.and_eq_true, beq_iff_eq, decide_eq_true_iff, hcnt, hsym]

theorem next (h : s.Collects r n k) {x : Option Bool} (hx : ∀ v ∈ x, v = r n) :
    (s.next x).Collects r (n + x.isSome.toNat) (k + s.rxValid.toNat) := by
  have htaken := h.taken
  cases x with
  | none =>
    exact {
      rxByte := h.rxByte
      rxBitCnt := h.rxBitCnt
      lfsrRx := h.lfsrRx
      rxSymCount := h.rxSymCount
      taken := htaken
      held := fun hno => absurd hno Bool.false_ne_true }
  | some bit =>
    rw [hx bit rfl]
    have hbyte : s.rxByte.shiftConcat (r n ^^ lfsrBit s.lfsrRx) =
        shifted 0#8 (descrambled r) (n + 1) := by
      rw [h.rxByte, h.lfsrRx]
      rfl
    have hcnt := h.rxBitCnt
    have hsym := h.rxSymCount
    refine ⟨hbyte, ?_, ?_, ?_, ?_, fun hfull => ?_⟩
    · change (s.rxBitCnt.toNat + 1) % 8 = (n + 1) % 8
      omega
    · change s.lfsrRx.shiftConcat (r n) = _
      rw [h.lfsrRx]
      rfl
    · change (if s.rxSymCount < 200 then s.rxSymCount + 1 else s.rxSymCount).toNat = min (n + 1) 200
      have hlt : s.rxSymCount < 200 ↔ n < 200 := by
        rw [BitVec.lt_def, hsym]
        change min n 200 < 200 ↔ _
        omega
      by_cases hn : n < 200
      · rw [if_pos (hlt.mpr hn)]
        change (s.rxSymCount.toNat + 1) % 256 = _
        omega
      · rw [if_neg fun hless => hn (hlt.mp hless)]
        omega
    · change k + s.rxValid.toNat + Bool.toNat (s.rxBitCnt == 7 && decide (200 ≤ s.rxSymCount)) =
        (n + 1) / 8 - 25
      have hfull := h.full_iff
      cases hlast : s.rxBitCnt == 7 && decide (200 ≤ s.rxSymCount) with
      | true =>
        have := hfull.mp hlast
        rw [Bool.toNat_true]
        omega
      | false =>
        have : ¬(n % 8 = 7 ∧ 200 ≤ n) := fun hn =>
          Bool.false_ne_true (hlast.symm.trans (hfull.mpr hn))
        rw [Bool.toNat_false]
        omega
    · obtain ⟨hlast, hn⟩ := h.full_iff.mp hfull
      change (if _ then _ else s.rxData) = _
      rw [if_pos (h.full_iff.mpr ⟨hlast, hn⟩), hbyte, htaken]
      congr 1
      omega

end Collects
end Descrambler
end Cirradio.Fpga
