import Cirradio.CallRuns
import Cirradio.ModemStages

/-!
# The bits of the serializer

The bits that go to the scrambler are those of the accepted bytes, most significant bit first,
as long as no byte is accepted in place of the last bit of the byte before. With a byte always
on offer that is what happens to each of them.
-/

namespace Cirradio.Fpga
open CallRuns

/-- The bits of a byte in the order in which they are sent. -/
def byteBits (data : BitVec 8) : List Bool := (List.range 8).map fun z => data.getLsbD (7 - z)

theorem length_flatMap_byteBits (bytes : List (BitVec 8)) :
    (bytes.flatMap byteBits).length = 8 * bytes.length := by
  induction bytes with
  | nil => rfl
  | cons data bytes ih =>
    rw [List.flatMap_cons, List.length_append, ih, List.length_cons, byteBits, List.length_map,
      List.length_range]
    omega

namespace Serializer

/-- A cycle, with what is on the byte input. -/
def step (s : Serializer) (tx : Option (BitVec 8)) : Serializer × Unit := (s.next tx, ())

/-- The bits that go to the scrambler in the cycles that raise the valid signal. -/
def consumed (s : Serializer) (txs : List (Option (BitVec 8))) : List Bool :=
  events step (fun s tx => if (s.next tx).txBitValid then [s.txByte.getLsbD 7] else []) s txs

/-- The bytes that are accepted. -/
def acceptedBytes (s : Serializer) (txs : List (Option (BitVec 8))) : List (BitVec 8) :=
  events step (fun s tx => (s.accepts tx).toList) s txs

/-- What is left of a byte. -/
def unsent (s : Serializer) : List Bool :=
  if s.txActive then
    (List.range (8 - s.txBitCnt.toNat)).map fun z => s.txByte.getLsbD (7 - z)
  else []

/-- The bits of the accepted bytes are sent in order, up to the byte that is not finished. -/
def SendsBits (s : Serializer) (txs : List (Option (BitVec 8))) : Prop :=
  consumed s txs ++ (after step s txs).unsent = (acceptedBytes s txs).flatMap byteBits

section Cycle
variable {s : Serializer} {tx : Option (BitVec 8)}

theorem unsent_of_idle (hidle : s.txActive = false) : s.unsent = [] := by
  rw [unsent, hidle]
  rfl

theorem length_unsent (s : Serializer) :
    s.unsent.length = if s.txActive then 8 - s.txBitCnt.toNat else 0 := by
  unfold unsent
  split_ifs
  · rw [List.length_map, List.length_range]
  · rfl

/-- The first of the bits that are left is shifted out. -/
theorem unsent_of_active (hactive : s.txActive = true) :
    s.unsent = s.txByte.getLsbD 7 :: s.shiftOut.unsent := by
  have hlt := s.txBitCnt.isLt
  rw [unsent, if_pos hactive]
  by_cases hlast : s.txBitCnt = 7
  · have hdone : s.shiftOut.txActive = false := bne_eq_false_iff_eq.mpr hlast
    rw [unsent_of_idle hdone, hlast]
    rfl
  · have hcnt := toNat_succ_of_ne hlast
    have hmore : s.shiftOut.txActive = true := bne_iff_ne.mpr hlast
    have hnext : (s.txBitCnt + 1).toNat < 8 := (s.txBitCnt + 1).isLt
    rw [unsent, if_pos hmore, show 8 - s.txBitCnt.toNat = 8 - s.shiftOut.txBitCnt.toNat + 1 by
      change _ = 8 - (s.txBitCnt + 1).toNat + 1
      omega, List.range_succ_eq_map, List.map_cons, List.map_map]
    refine congrArg _ (List.map_congr_left fun z hz => ?_)
    rw [List.mem_range] at hz
    change z < 8 - (s.txBitCnt + 1).toNat at hz
    change s.txByte.getLsbD (7 - (z + 1)) = (s.txByte.shiftConcat false).getLsbD (7 - z)
    rw [BitVec.getLsbD_shiftConcat, decide_eq_true (by omega), Bool.true_and,
      if_neg (by omega), Nat.sub_sub]

/-- Of a byte that is cut off one bit is lost. -/
def cuts (s : Serializer) (tx : Option (BitVec 8)) : Bool :=
  (s.accepts tx).isSome && s.txActive

theorem whole_iff : s.Whole tx ↔ s.cuts tx = false := by
  unfold Whole cuts accepts txReady
  cases tx with
  | none => simp
  | some data => cases s.txActive <;> by_cases hcnt : s.txBitCnt = 7 <;> simp [hcnt]

/-- In a cycle that cuts no byte off, what was left is sent or still left. -/
theorem unsent_next (hwhole : s.Whole tx) :
    (if (s.next tx).txBitValid then [s.txByte.getLsbD 7] else []) ++ (s.next tx).unsent =
      s.unsent ++ (s.accepts tx).toList.flatMap byteBits := by
  rcases s.next_cases hwhole with ⟨data, haccepts, hidle, hnext⟩ | ⟨hnone, hactive, hnext⟩ |
    ⟨hnone, hidle, hnext⟩
  · rw [hnext, haccepts, unsent_of_idle hidle]
    rfl
  · rw [hnext, hnone, unsent_of_active hactive]
    simp [shiftOut]
  · rw [hnext, hnone, unsent_of_idle hidle]
    simp [unsent, hidle]

theorem length_unsent_next (s : Serializer) (tx : Option (BitVec 8)) :
    (if (s.next tx).txBitValid then [s.txByte.getLsbD 7] else []).length +
        (s.next tx).unsent.length + (s.cuts tx).toNat =
      s.unsent.length + 8 * (s.accepts tx).toList.length := by
  cases hcuts : s.cuts tx with
  | false =>
    have hbits := congrArg List.length (unsent_next (whole_iff.mpr hcuts))
    rw [List.length_append, List.length_append] at hbits
    rw [Bool.toNat_false, Nat.add_zero, hbits]
    cases s.accepts tx <;> rfl
  | true =>
    rw [cuts, Bool.and_eq_true, Option.isSome_iff_exists] at hcuts
    obtain ⟨⟨data, haccepts⟩, hactive⟩ := hcuts
    have hseven : s.txBitCnt = 7 := by
      have hready : s.txReady = true := by
        by_contra hbusy
        rw [accepts, if_neg hbusy] at haccepts
        cases haccepts
      rw [txReady, hactive] at hready
      exact beq_iff_eq.mp hready
    have hnext : s.next tx =
        { s with txByte := data, txActive := true, txBitCnt := 0, txBitValid := false } := by
      rw [Serializer.next, haccepts]
    rw [hnext, haccepts, length_unsent, length_unsent, hactive, hseven]
    rfl

end Cycle

theorem consumed_concat (s : Serializer) (txs : List (Option (BitVec 8)))
    (tx : Option (BitVec 8)) : consumed s (txs ++ [tx]) = consumed s txs ++
      if ((after step s txs).next tx).txBitValid then [(after step s txs).txByte.getLsbD 7]
      else [] := events_concat ..

theorem acceptedBytes_concat (s : Serializer) (txs : List (Option (BitVec 8)))
    (tx : Option (BitVec 8)) : acceptedBytes s (txs ++ [tx]) =
      acceptedBytes s txs ++ ((after step s txs).accepts tx).toList := events_concat ..

theorem sendsBits_of_whole {s : Serializer} (hs : s.txActive = false)
    {txs : List (Option (BitVec 8))} (h : EveryCall step s Whole txs) : SendsBits s txs := by
  induction txs using List.reverseRecOn with
  | nil => exact unsent_of_idle hs
  | append_singleton txs tx ih =>
    obtain ⟨htxs, htx⟩ := (everyCall_concat step s).mp h
    have hsends : SendsBits s txs := ih htxs
    rw [SendsBits] at hsends ⊢
    rw [consumed_concat, acceptedBytes_concat, after_concat, List.flatMap_append, ← hsends,
      List.append_assoc, List.append_assoc]
    exact congrArg _ (unsent_next htx)

theorem length_consumed_le {s : Serializer} (hs : s.txActive = false)
    (txs : List (Option (BitVec 8))) :
    (consumed s txs).length + (after step s txs).unsent.length ≤
        8 * (acceptedBytes s txs).length ∧
      ((consumed s txs).length + (after step s txs).unsent.length =
        8 * (acceptedBytes s txs).length → EveryCall step s Whole txs) := by
  refine everyCall_of_balance step s
    (fun txs => (consumed s txs).length + (after step s txs).unsent.length)
    (fun txs => 8 * (acceptedBytes s txs).length) cuts (fun _ _ => whole_iff.mpr) ?_ ?_ txs
  · rw [after_nil, unsent_of_idle hs]
    rfl
  · intro txs tx
    have hcycle := length_unsent_next (after step s txs) tx
    rw [consumed_concat, acceptedBytes_concat, after_concat, List.length_append,
      List.length_append]
    change _ + ((after step s txs).next tx).unsent.length + _ + _ = _
    omega

/-- No bit is lost in exactly the runs in which no byte is accepted in place of the last bit of
the byte before. -/
theorem sendsBits_iff_whole (txs : List (Option (BitVec 8))) :
    SendsBits .reset txs ↔ EveryCall step .reset Whole txs := by
  constructor
  · intro h
    refine (length_consumed_le rfl txs).2 ?_
    have hlen := congrArg List.length h
    rwa [List.length_append, length_flatMap_byteBits] at hlen
  · exact sendsBits_of_whole rfl

/-- With a byte always on offer the second one comes in place of the last bit of the first. -/
theorem not_sendsBits : ¬ ∀ txs : List (Option (BitVec 8)), SendsBits .reset txs := by
  intro h
  have hbits := congrArg List.length (h (List.replicate 9 (some 1)))
  exact absurd hbits (by decide)

end Serializer
end Cirradio.Fpga
