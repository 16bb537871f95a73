import Cirradio.CallRuns
import Cirradio.ModemStages
import Mathlib.Tactic.Ring

/-!
# Runs of the modem

Through all stages a sent bit takes a way that depends on its place only. As long as no bit is
cut off or written over, the bytes that have come out are the descrambled sums of coded bits,
and how many there are follows from how many were accepted.
-/

namespace Cirradio.Fpga
open Transposers CallRuns

/-- The bits of a list of bytes, from the most significant one of each. -/
def bitAt (bytes : List (BitVec 8)) (n : ℕ) : Bool :=
  (bytes.getD (n / 8) 0).getLsbD (7 - n % 8)

theorem bitAt_eq {bytes : List (BitVec 8)} {i : ℕ} {data : BitVec 8} (hi : bytes[i]? = some data)
    {z : ℕ} (hz : z < 8) : bitAt bytes (8 * i + z) = data.getLsbD (7 - z) := by
  rw [bitAt, Nat.mul_add_div (by decide), Nat.div_eq_of_lt hz, Nat.add_zero, Nat.mul_add_mod,
    Nat.mod_eq_of_lt hz, List.getD_eq_getElem?_getD, hi, Option.getD_some]

theorem byte_ext {data data' : BitVec 8}
    (h : ∀ z < 8, data.getLsbD (7 - z) = data'.getLsbD (7 - z)) : data = data' := by
  apply BitVec.eq_of_getLsbD_eq
  intro i hi
  have hbit := h (7 - i) (by omega)
  rwa [show 7 - (7 - i) = i by omega] at hbit

def interleaved (depth : ℕ) (b : ℕ → Bool) (p : ℕ) : Bool :=
  coded b (transposedIndex depth ilCols p)

/-- One bit of a symbol is kept. -/
def sliced (depth : ℕ) (b : ℕ → Bool) (c : ℕ) : Bool := interleaved depth b (2 * c)

/-- Which coded bit comes out of the deinterleaver at a place. -/
def source (depth n : ℕ) : ℕ :=
  transposedIndex depth ilCols (2 * transposedIndex ilCols depth n)

def rawBit (depth : ℕ) (b : ℕ → Bool) (n : ℕ) : Bool := coded b (source depth n)

/-- The bits that come out once some bytes have gone through: one block for two. -/
def receivedBits (depth t : ℕ) : ℕ := t / (128 * depth) * (512 * depth)

theorem eight_dvd_receivedBits (depth t : ℕ) : 8 ∣ receivedBits depth t := by
  refine Dvd.dvd.mul_left ?_ _
  exact ⟨64 * depth, by ring⟩

theorem receivedBits_eq {depth : ℕ} (hdepth : 0 < depth) (t : ℕ) :
    8 * t / ilCols / depth * (ilCols * depth) / 2 / depth / ilCols * (depth * ilCols) =
      receivedBits depth t := by
  have hblocks : 8 * t / ilCols / depth = t / (64 * depth) := by
    rw [Nat.div_div_eq_div_mul, show ilCols * depth = 8 * (64 * depth) by unfold ilCols; ring,
      Nat.mul_div_mul_left _ _ (by decide)]
  have hhalf : t / (64 * depth) * (ilCols * depth) / 2 / depth / ilCols =
      t / (128 * depth) := by
    rw [show t / (64 * depth) * (ilCols * depth) = t / (64 * depth) * 256 * depth * 2 by
        unfold ilCols; ring, Nat.mul_div_cancel _ (by decide), Nat.mul_div_cancel _ hdepth,
      show ilCols = 256 * 2 from rfl, ← Nat.div_div_eq_div_mul, Nat.mul_div_cancel _ (by decide),
      Nat.div_div_eq_div_mul, show 64 * depth * 2 = 128 * depth by ring]
  rw [hblocks, hhalf, receivedBits, Nat.mul_comm depth]
  rfl

namespace Modem

/-- No byte is accepted in place of a bit, and no bit is written over one that is still to be
read. -/
structure Unhurried (depth : ℕ) (s : Modem) (x : ModemIn) : Prop where
  whole : s.serializer.Whole x.tx
  interleaver : s.interleaver.Clear depth s.serializer.bit
  deinterleaver : s.deinterleaver.Clear ilCols (s.sliced x)

/-- Every stage has made of what has gone in what it should. -/
def Carries (depth : ℕ) (b : ℕ → Bool) (t k : ℕ) (s : Modem) : Prop :=
  ∃ m p y c n, s.serializer.Sends b t m ∧
    (∃ K J, s.interleaver.Carries depth ilCols (coded b) m p K J) ∧
    s.mapper.Maps (interleaved depth b) p y ∧
    InFlight (symbolAt (interleaved depth b)) y c s.inFlight ∧
    (∃ K J, s.deinterleaver.Carries ilCols depth (Fpga.sliced depth b) c n K J) ∧
    s.descrambler.Collects (rawBit depth b) n k

namespace Carries
variable {depth : ℕ} {b : ℕ → Bool} {t k : ℕ} {s : Modem}

theorem reset (hdepth : 0 < depth) (b : ℕ → Bool) (s : Modem) :
    s.reset.Carries depth b 0 0 :=
  ⟨0, 0, 0, 0, 0, .reset b, ⟨0, 0, .reset hdepth (by decide) _ _⟩, .reset _ _, .nil _,
    ⟨0, 0, .reset (by decide) hdepth _ _⟩, .reset _⟩

theorem byte_eq (h : s.Carries depth b t k) : ∀ data ∈ s.descrambler.byte, ∀ z < 8,
    data.getLsbD (7 - z) = descrambled (rawBit depth b) (8 * (25 + k) + z) := by
  obtain ⟨m, p, y, c, n, -, -, -, -, -, hcollects⟩ := h
  exact hcollects.byte_eq

theorem next (h : s.Carries depth b t k) {x : ModemIn} (hx : Unhurried depth s x)
    (htx : ∀ data ∈ s.serializer.accepts x.tx, ∀ z < 8, data.getLsbD (7 - z) = b (8 * t + z)) :
    (s.next depth x).Carries depth b (t + (s.serializer.accepts x.tx).isSome.toNat)
      (k + s.descrambler.byte.isSome.toNat) := by
  obtain ⟨m, p, y, c, n, hsends, hinter, hmaps, hflight, hdeinter, hcollects⟩ := h
  have hserial := hsends.next hx.whole htx
  have hinter' := Transposer.Carries.next hinter hsends.bit_eq hx.interleaver
  have hmaps' := hmaps.next (x := s.interleaver.output) fun v hv => by
    obtain ⟨K, J, hinter⟩ := hinter
    exact hinter.output_eq v hv
  have harrived := hflight.append hmaps.symbol_eq
  have hsliced : ∀ v ∈ s.sliced x, v = Fpga.sliced depth b c := by
    intro v hv
    unfold Modem.sliced at hv
    split at hv
    · obtain ⟨symbol, hhead, rfl⟩ := Option.map_eq_some_iff.mp hv
      rw [harrived.head_eq symbol hhead]
      rfl
    · cases hv
  have hdeinter' := Transposer.Carries.next hdeinter hsliced hx.deinterleaver
  have hcollects' := hcollects.next (x := s.deinterleaver.output) fun v hv => by
    obtain ⟨K, J, hdeinter⟩ := hdeinter
    exact hdeinter.output_eq v hv
  rw [Serializer.isSome_bit] at hinter'
  rw [Transposer.isSome_output] at hmaps' hcollects'
  rw [Mapper.isSome_symbol] at harrived
  rw [Descrambler.isSome_byte]
  refine ⟨_, _, _, _, _, hserial, hinter', hmaps', ?_, hdeinter', hcollects'⟩
  unfold Modem.next Modem.sliced
  dsimp only
  split
  · rw [Option.isSome_map]
    exact harrived.tail
  · exact harrived

end Carries

def step (depth : ℕ) (s : Modem) (x : ModemIn) : Modem × Option (BitVec 8) :=
  (s.next depth x, s.descrambler.byte)

/-- The bytes that a run accepts. -/
def accepted (depth : ℕ) : Modem → List ModemIn → List (BitVec 8)
  | _, [] => []
  | s, x :: xs => (s.serializer.accepts x.tx).toList ++ accepted depth (s.next depth x) xs

/-- The bytes on the output. -/
def produced (depth : ℕ) : Modem → List ModemIn → List (BitVec 8)
  | _, [] => []
  | s, x :: xs => s.descrambler.byte.toList ++ produced depth (s.next depth x) xs

theorem accepted_append (depth : ℕ) (s : Modem) (xs ys : List ModemIn) :
    accepted depth s (xs ++ ys) =
      accepted depth s xs ++ accepted depth (after (step depth) s xs) ys := by
  induction xs generalizing s with
  | nil => rfl
  | cons x xs ih =>
    rw [List.cons_append, accepted, accepted, ih, List.append_assoc]
    rfl

theorem produced_append (depth : ℕ) (s : Modem) (xs ys : List ModemIn) :
    produced depth s (xs ++ ys) =
      produced depth s xs ++ produced depth (after (step depth) s xs) ys := by
  induction xs generalizing s with
  | nil => rfl
  | cons x xs ih =>
    rw [List.cons_append, produced, produced, ih, List.append_assoc]
    rfl

theorem getElem?_toList_append {α : Type*} (x : Option α) (l : List α) (i : ℕ) :
    (x.toList ++ l)[x.isSome.toNat + i]? = l[i]? := by
  rw [← length_toList, List.getElem?_append_right (Nat.le_add_right _ i),
    Nat.add_sub_cancel_left]

theorem Carries.run {depth : ℕ} {b : ℕ → Bool} {xs : List ModemIn} {t k : ℕ} {s : Modem}
    (h : s.Carries depth b t k) (hxs : EveryCall (step depth) s (Unhurried depth) xs)
    (hb : ∀ i data, (accepted depth s xs)[i]? = some data →
      ∀ z < 8, data.getLsbD (7 - z) = b (8 * (t + i) + z)) :
    (after (step depth) s xs).Carries depth b (t + (accepted depth s xs).length)
        (k + (produced depth s xs).length) ∧
      ∀ i data, (produced depth s xs)[i]? = some data →
        ∀ z < 8, data.getLsbD (7 - z) = descrambled (rawBit depth b) (8 * (25 + (k + i)) + z) := by
  induction xs generalizing s t k with
  | nil => exact ⟨h, nofun⟩
  | cons x xs ih =>
    rw [everyCall_cons] at hxs
    rw [accepted] at hb
    have hfirst : ∀ data ∈ s.serializer.accepts x.tx, ∀ z < 8,
        data.getLsbD (7 - z) = b (8 * t + z) := by
      intro data hdata
      refine hb 0 data ?_
      rw [Option.mem_def.mp hdata]
      rfl
    have hrest : ∀ i data, (accepted depth (s.next depth x) xs)[i]? = some data → ∀ z < 8,
        data.getLsbD (7 - z) =
          b (8 * (t + (s.serializer.accepts x.tx).isSome.toNat + i) + z) := by
      intro i data hdata
      rw [Nat.add_assoc t]
      exact hb _ data ((getElem?_toList_append _ _ i).trans hdata)
    obtain ⟨hstate, hbytes⟩ := ih (h.next hxs.1 hfirst) hxs.2 hrest
    rw [after_cons, accepted, produced, List.length_append, List.length_append,
      length_toList, length_toList, ← Nat.add_assoc, ← Nat.add_assoc]
    refine ⟨hstate, fun i data hdata => ?_⟩
    cases hbyte : s.descrambler.byte with
    | none =>
      rw [hbyte] at hdata hbytes
      exact hbytes i data hdata
    | some first =>
      rw [hbyte] at hdata hbytes
      cases i with
      | zero =>
        cases hdata
        exact h.byte_eq data hbyte
      | succ i =>
        have hlater := hbytes i data hdata
        rwa [Option.isSome_some, Bool.toNat_true, Nat.add_assoc k, Nat.add_comm 1 i] at hlater

/-- Nothing is on its way. -/
structure Drained (s : Modem) : Prop where
  serializer : s.serializer.txActive = false ∧ s.serializer.txBitValid = false
  interleaver : s.interleaver.filled = false ∧ s.interleaver.active = false ∧
    s.interleaver.outValid = false
  mapper : s.mapper.qpskValid = false
  inFlight : s.inFlight = []
  deinterleaver : s.deinterleaver.filled = false ∧ s.deinterleaver.active = false ∧
    s.deinterleaver.outValid = false
  descrambler : s.descrambler.rxValid = false

section Counts
variable {depth : ℕ} {b : ℕ → Bool} {t k : ℕ} {s : Modem}

theorem Carries.le (h : s.Carries depth b t k) (hdepth : 0 < depth) :
    k ≤ receivedBits depth t / 8 - 25 := by
  obtain ⟨m, p, y, c, n, hsends, ⟨K, J, hinter⟩, hmaps, hflight, ⟨K', J', hdeinter⟩, hcollects⟩ := h
  have hm : m / ilCols / depth ≤ 8 * t / ilCols / depth :=
    Nat.div_le_div_right (Nat.div_le_div_right hsends.le)
  have hp : p ≤ 8 * t / ilCols / depth * (ilCols * depth) :=
    hinter.le.trans (Nat.mul_le_mul_right _ hm)
  have hc : c ≤ 8 * t / ilCols / depth * (ilCols * depth) / 2 := by
    have hpaired := hmaps.paired
    have hlen := hflight.1
    omega
  have hn : n ≤ receivedBits depth t := by
    rw [← receivedBits_eq hdepth]
    refine hdeinter.le.trans (Nat.mul_le_mul_right _ ?_)
    exact Nat.div_le_div_right (Nat.div_le_div_right hc)
  have htaken := hcollects.taken
  omega

theorem Carries.eq_of_drained (h : s.Carries depth b t k) (hdepth : 0 < depth)
    (hdrained : Drained s) : k = receivedBits depth t / 8 - 25 := by
  obtain ⟨m, p, y, c, n, hsends, ⟨K, J, hinter⟩, hmaps, hflight, ⟨K', J', hdeinter⟩, hcollects⟩ := h
  have hm : m = 8 * t := by
    have hdone := hsends.done hdrained.serializer.1
    rwa [hdrained.serializer.2] at hdone
  have hp := hinter.eq_of_idle hdrained.interleaver.1 hdrained.interleaver.2.1
    hdrained.interleaver.2.2
  have hc : c = p / 2 := by
    have hpaired := hmaps.paired
    have hlen := hflight.1
    have hgot := s.mapper.gotFirstBit.toNat_le
    rw [hdrained.mapper, Bool.toNat_false] at hpaired
    rw [hdrained.inFlight, List.length_nil] at hlen
    omega
  have hn := hdeinter.eq_of_idle hdrained.deinterleaver.1 hdrained.deinterleaver.2.1
    hdrained.deinterleaver.2.2
  have htaken := hcollects.taken
  rw [hdrained.descrambler, hn, hc, hp, hm, receivedBits_eq hdepth] at htaken
  exact htaken

end Counts

theorem carries_of_reset {depth : ℕ} {s : Modem} {xs : List ModemIn} (hdepth : 0 < depth)
    (hxs : EveryCall (step depth) s.reset (Unhurried depth) xs) :
    (after (step depth) s.reset xs).Carries depth (bitAt (accepted depth s.reset xs))
        (accepted depth s.reset xs).length (produced depth s.reset xs).length ∧
      ∀ i data, (produced depth s.reset xs)[i]? = some data → ∀ z < 8,
        data.getLsbD (7 - z) =
          descrambled (rawBit depth (bitAt (accepted depth s.reset xs))) (8 * (25 + i) + z) := by
  have hrun := (Carries.reset hdepth (bitAt (accepted depth s.reset xs)) s).run hxs
    fun i data hdata z hz => by rw [Nat.zero_add, bitAt_eq hdata hz]
  rwa [Nat.zero_add, Nat.zero_add, funext Nat.zero_add] at hrun

end Modem
end Cirradio.Fpga
