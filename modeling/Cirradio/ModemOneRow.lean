import Cirradio.ModemRuns

/-!
# The modem with one row

With one row in the interleavers the scrambler cancels, and no bit is written over one that is
still to be read, however fast the bytes come.
-/

namespace Cirradio.Fpga
open Transposers CallRuns

theorem lfsrAt_eq_shifted (n : ℕ) :
    lfsrAt n = shifted 0x7F#7 (fun n => lfsrBit (lfsrAt n)) n := by
  induction n with
  | zero => rfl
  | succ n ih => rw [lfsrAt, shifted, ← ih]

theorem lfsrBit_add_seven (n : ℕ) :
    lfsrBit (lfsrAt (n + 7)) = (lfsrBit (lfsrAt n) ^^ lfsrBit (lfsrAt (n + 1))) := by
  rw [lfsrAt_eq_shifted (n + 7), lfsrBit, getLsbD_shifted _ _ _ (by decide),
    getLsbD_shifted _ _ _ (by decide), if_pos (by omega), if_pos (by omega)]
  rfl

theorem lfsrBit_add_fourteen (n : ℕ) :
    lfsrBit (lfsrAt (n + 14)) = (lfsrBit (lfsrAt n) ^^ lfsrBit (lfsrAt (n + 2))) := by
  rw [lfsrBit_add_seven (n + 7), lfsrBit_add_seven, show n + 7 + 1 = n + 1 + 7 by omega,
    lfsrBit_add_seven (n + 1), Bool.xor_assoc, ← Bool.xor_assoc (lfsrBit (lfsrAt (n + 1))),
    Bool.xor_self, Bool.false_xor]

theorem source_one (n : ℕ) : source 1 n = 2 * n := by
  have hdeinter : transposedIndex ilCols 1 n = n := by
    simp only [transposedIndex, ilCols]
    omega
  have hinter : transposedIndex 1 ilCols (2 * n) = 2 * n := by
    simp only [transposedIndex, ilCols]
    omega
  rw [source, hdeinter, hinter]

theorem coded_eq (b : ℕ → Bool) (n : ℕ) :
    coded b (n + 6) = (scrambled b (n + 6) ^^ scrambled b (n + 5) ^^ scrambled b (n + 3) ^^
      scrambled b (n + 2) ^^ scrambled b n) := by
  simp [coded, back]

/-- Three places in which the bits of the scrambler cancel. -/
def threefold (f : ℕ → Bool) (n : ℕ) : Bool := f (n + 14) ^^ (f n ^^ f (n + 2))

theorem threefold_scrambled (b : ℕ → Bool) (n : ℕ) :
    threefold (scrambled b) n = threefold b n := by
  simp only [threefold, scrambled, lfsrBit_add_fourteen]
  generalize lfsrBit (lfsrAt n) = x
  generalize lfsrBit (lfsrAt (n + 2)) = y
  generalize b (n + 14) = p
  generalize b n = q
  generalize b (n + 2) = r
  revert x y p q r
  decide

theorem threefold_xor (f g : ℕ → Bool) (n : ℕ) :
    threefold (fun n => f n ^^ g n) n = (threefold f n ^^ threefold g n) := by
  have hsums : ∀ p q r x y z : Bool,
      ((p ^^ x) ^^ ((q ^^ y) ^^ (r ^^ z))) = ((p ^^ (q ^^ r)) ^^ (x ^^ (y ^^ z))) := by decide
  exact hsums ..

theorem threefold_add (f : ℕ → Bool) (n d : ℕ) :
    threefold (fun n => f (n + d)) n = threefold f (n + d) := by
  rw [threefold, threefold, Nat.add_right_comm n 14 d, Nat.add_right_comm n 2 d]

theorem threefold_coded (b : ℕ → Bool) (n : ℕ) :
    threefold (coded b) (n + 6) = (threefold b (n + 6) ^^ threefold b (n + 5) ^^
      threefold b (n + 3) ^^ threefold b (n + 2) ^^ threefold b n) := by
  rw [← threefold_add (coded b), funext (coded_eq b), threefold_xor, threefold_xor, threefold_xor,
    threefold_xor]
  simp only [threefold_add (scrambled b), threefold_scrambled]

theorem sum_one (b : ℕ → Bool) (n : ℕ) :
    (coded b (source 1 (n + 10)) ^^ (coded b (source 1 (n + 10 - 7)) ^^
      coded b (source 1 (n + 10 - 6)))) =
    (threefold b (2 * n + 6) ^^ threefold b (2 * n + 5) ^^ threefold b (2 * n + 3) ^^
      threefold b (2 * n + 2) ^^ threefold b (2 * n)) := by
  rw [← threefold_coded, threefold, source_one, source_one, source_one]
  rfl

/-- The bits that have been passed on fill bytes as far as the counter says. -/
structure Serializer.Aligned (s : Serializer) (passed : ℕ) : Prop where
  count : (passed + s.txBitValid.toNat) % 8 = if s.txActive then s.txBitCnt.toNat else 0
  begun : s.txBitValid = true → s.txActive = true → s.txBitCnt.toNat ≠ 0

namespace Serializer.Aligned
variable {s : Serializer} {passed : ℕ} {tx : Option (BitVec 8)}

theorem next (h : s.Aligned passed) (hwhole : s.Whole tx) {passed' : ℕ}
    (hpassed : passed' % 8 = (passed + s.txBitValid.toNat) % 8) :
    (s.next tx).Aligned passed' := by
  rw [h.count] at hpassed
  rcases s.next_cases hwhole with ⟨data, -, hidle, hnext⟩ | ⟨-, hactive, hnext⟩ | ⟨-, hidle, hnext⟩
  · rw [hidle, if_neg Bool.false_ne_true] at hpassed
    rw [hnext]
    exact ⟨hpassed, nofun⟩
  · rw [hactive, if_pos rfl] at hpassed
    rw [hnext]
    by_cases hlast : s.txBitCnt = 7
    · have hseven : s.txBitCnt.toNat = 7 := congrArg BitVec.toNat hlast
      have hdone : s.shiftOut.txActive = false := bne_eq_false_iff_eq.mpr hlast
      refine ⟨?_, fun _ hyes => absurd (hdone.symm.trans hyes) Bool.false_ne_true⟩
      rw [hdone, if_neg Bool.false_ne_true]
      change (passed' + 1) % 8 = 0
      omega
    · have hcnt := toNat_succ_of_ne hlast
      have hlt := (s.txBitCnt + 1).isLt
      have hmore : s.shiftOut.txActive = true := bne_iff_ne.mpr hlast
      refine ⟨?_, fun _ _ => ?_⟩
      · rw [hmore, if_pos rfl]
        change (passed' + 1) % 8 = (s.txBitCnt + 1).toNat
        omega
      · change (s.txBitCnt + 1).toNat ≠ 0
        omega
  · rw [hidle, if_neg Bool.false_ne_true] at hpassed
    rw [hnext]
    refine ⟨?_, nofun⟩
    dsimp only
    rw [hidle, if_neg Bool.false_ne_true]
    exact hpassed

theorem txBitValid_next (h : s.Aligned passed) (hwhole : s.Whole tx) (hvalid : s.txBitValid = true)
    (hbyte : 8 ∣ passed + 1) : (s.next tx).txBitValid = false := by
  have hcount := h.count
  rw [hvalid, Bool.toNat_true, Nat.mod_eq_zero_of_dvd hbyte] at hcount
  rcases s.next_cases hwhole with ⟨data, -, -, hnext⟩ | ⟨-, hactive, -⟩ | ⟨-, -, hnext⟩
  · rw [hnext]
  · rw [hactive, if_pos rfl] at hcount
    exact absurd hcount.symm (h.begun hvalid hactive)
  · rw [hnext]

end Serializer.Aligned

namespace Modem

/-- With one row, a prompt channel and whole bytes the write sides stay behind the read
sides. -/
structure Flows (s : Modem) : Prop where
  aligned : s.serializer.Aligned s.interleaver.writeInner
  interleaver : s.interleaver.Paced 1 ilCols
  full : s.interleaver.filled = true → s.serializer.txBitValid = false
  halves : s.mapper.qpskValid = true → s.mapper.gotFirstBit = false
  inFlight : s.inFlight = []
  deinterleaver : s.deinterleaver.Paced ilCols 1
  rxFull : s.deinterleaver.filled = true → s.mapper.qpskValid = false

namespace Flows
variable {s : Modem}

theorem reset (s : Modem) : s.reset.Flows where
  aligned := ⟨rfl, nofun⟩
  interleaver := .reset (by decide) (by decide) _
  full _ := rfl
  halves h := absurd h Bool.false_ne_true
  inFlight := rfl
  deinterleaver := .reset (by decide) (by decide) _
  rxFull _ := rfl

theorem sliced_eq (h : s.Flows) {x : ModemIn} (hx : x.deliver = true) :
    s.sliced x = s.mapper.symbol.map slicerBit := by
  rw [sliced, if_pos hx, arrived, h.inFlight, List.nil_append]
  cases s.mapper.symbol <;> rfl

theorem unhurried (h : s.Flows) {x : ModemIn} (hwhole : s.serializer.Whole x.tx)
    (hx : x.deliver = true) : Unhurried 1 s x where
  whole := hwhole
  interleaver := by
    refine h.interleaver.clear (.inl rfl) fun hbit => ?_
    rw [Serializer.isSome_bit] at hbit
    by_contra hfilled
    rw [Bool.not_eq_false] at hfilled
    exact Bool.false_ne_true ((h.full hfilled).symm.trans hbit)
  deinterleaver := by
    refine h.deinterleaver.clear (.inr rfl) fun hbit => ?_
    rw [h.sliced_eq hx, Option.isSome_map, Mapper.isSome_symbol] at hbit
    by_contra hfilled
    rw [Bool.not_eq_false] at hfilled
    exact Bool.false_ne_true ((h.rxFull hfilled).symm.trans hbit)

/-- A block is full with the last bit of a byte and with the second bit of a symbol, and the
next cycle brings no other. -/
theorem next (h : s.Flows) {x : ModemIn} (hwhole : s.serializer.Whole x.tx)
    (hx : x.deliver = true) : (s.next 1 x).Flows := by
  have hunhurried := h.unhurried hwhole hx
  obtain ⟨hinter, hinterFull⟩ := h.interleaver.next fun hbit =>
    (hunhurried.interleaver hbit).1
  obtain ⟨hdeinter, hdeinterFull⟩ := h.deinterleaver.next fun hbit =>
    (hunhurried.deinterleaver hbit).1
  have hcount := Transposer.writeInner_next_mod (a := 1) (d := 8) (b := ilCols) (by decide)
    s.interleaver s.serializer.bit
  rw [Serializer.isSome_bit] at hcount
  refine ⟨h.aligned.next hwhole hcount, hinter, fun hfilled => ?_, fun hvalid => ?_, ?_, hdeinter,
    fun hfilled => ?_⟩
  · obtain ⟨hbit, hcol, -⟩ := hinterFull hfilled
    rw [Serializer.isSome_bit] at hbit
    exact h.aligned.txBitValid_next hwhole hbit (hcol ▸ by decide)
  · exact (Mapper.gotFirstBit_of_next hvalid).2
  · change (if x.deliver then s.arrived.tail else s.arrived) = []
    rw [if_pos hx, arrived, h.inFlight, List.nil_append]
    cases s.mapper.symbol <;> rfl
  · obtain ⟨hbit, -, -⟩ := hdeinterFull hfilled
    rw [h.sliced_eq hx, Option.isSome_map, Mapper.isSome_symbol] at hbit
    by_contra hvalid
    rw [Bool.not_eq_false] at hvalid
    have hgot := (Mapper.gotFirstBit_of_next hvalid).1
    exact Bool.false_ne_true ((h.halves hbit).symm.trans hgot)

end Flows

/-- Bytes are whole, and symbols are delivered at once. -/
structure Prompt (s : Modem) (x : ModemIn) : Prop where
  whole : s.serializer.Whole x.tx
  deliver : x.deliver = true

theorem unhurried_of_prompt {s : Modem} (h : s.Flows) {xs : List ModemIn}
    (hxs : EveryCall (step 1) s Prompt xs) : EveryCall (step 1) s (Unhurried 1) xs := by
  induction xs generalizing s with
  | nil => exact everyCall_nil _ _ _
  | cons x xs ih =>
    rw [everyCall_cons] at hxs ⊢
    obtain ⟨hx, hrest⟩ := hxs
    exact ⟨h.unhurried hx.whole hx.deliver, ih (h.next hx.whole hx.deliver) hrest⟩

def byteCycles (data : BitVec 8) : List ModemIn :=
  ⟨some data, true⟩ :: List.replicate 8 ⟨none, true⟩

def paced (bytes : List (BitVec 8)) : List ModemIn := bytes.flatMap byteCycles

section Paced
variable {s : Modem}

theorem serializer_after (depth : ℕ) (s : Modem) (xs : List ModemIn) :
    (after (step depth) s xs).serializer = xs.foldl (fun t x => t.next x.tx) s.serializer := by
  induction xs generalizing s with
  | nil => rfl
  | cons x xs ih => exact ih _

theorem next_none {t : Serializer} (hactive : t.txActive = true) : t.next none = t.shiftOut := by
  have hnone : t.accepts none = none := ite_self none
  rw [Serializer.next, hnone]
  exact if_pos hactive

/-- The bits that are left of a byte are shifted out one a cycle. -/
theorem txActive_shiftOut (n : ℕ) {t : Serializer} (hactive : t.txActive = true)
    (hcnt : t.txBitCnt.toNat + (n + 1) = 8) :
    ((List.replicate (n + 1) (⟨none, true⟩ : ModemIn)).foldl (fun t x => t.next x.tx) t).txActive =
      false := by
  induction n generalizing t with
  | zero =>
    have hlast : t.txBitCnt = 7 := BitVec.eq_of_toNat_eq (by simpa using hcnt)
    change (t.next none).txActive = false
    rw [next_none hactive]
    exact bne_eq_false_iff_eq.mpr hlast
  | succ n ih =>
    have hmore : t.txBitCnt ≠ 7 := by
      rintro hlast
      have hseven : t.txBitCnt.toNat = 7 := congrArg BitVec.toNat hlast
      omega
    have hsucc := Serializer.toNat_succ_of_ne hmore
    rw [List.replicate_succ, List.foldl_cons, next_none hactive]
    refine ih (bne_iff_ne.mpr hmore) ?_
    change (t.txBitCnt + 1).toNat + (n + 1) = 8
    omega

theorem accepts_of_idle (hs : s.serializer.txActive = false) (tx : Option (BitVec 8)) :
    s.serializer.accepts tx = tx := by
  rw [Serializer.accepts, Serializer.txReady, hs]
  rfl

theorem txActive_byteCycles (depth : ℕ) (hs : s.serializer.txActive = false)
    (data : BitVec 8) :
    (after (step depth) s (byteCycles data)).serializer.txActive = false := by
  rw [serializer_after, byteCycles, List.foldl_cons, Serializer.next, accepts_of_idle hs]
  exact txActive_shiftOut 7 rfl rfl

theorem accepted_idle (depth n : ℕ) (s : Modem) :
    accepted depth s (List.replicate n ⟨none, true⟩) = [] := by
  induction n generalizing s with
  | zero => rfl
  | succ n ih =>
    have hnone : s.serializer.accepts none = none := ite_self none
    rw [List.replicate_succ, accepted, ih, hnone]
    rfl

theorem accepted_paced (depth : ℕ) (hs : s.serializer.txActive = false)
    (bytes : List (BitVec 8)) : accepted depth s (paced bytes) = bytes := by
  induction bytes generalizing s with
  | nil => rfl
  | cons data bytes ih =>
    rw [paced, List.flatMap_cons, accepted_append, ← paced,
      ih (txActive_byteCycles depth hs data), byteCycles, accepted, accepts_of_idle hs,
      accepted_idle]
    rfl

theorem prompt_idle (n : ℕ) (s : Modem) :
    EveryCall (step 1) s Prompt (List.replicate n ⟨none, true⟩) := by
  induction n generalizing s with
  | zero => exact everyCall_nil _ _ _
  | succ n ih =>
    rw [List.replicate_succ, everyCall_cons]
    exact ⟨⟨nofun, rfl⟩, ih _⟩

theorem prompt_paced (hs : s.serializer.txActive = false) (bytes : List (BitVec 8)) :
    EveryCall (step 1) s Prompt (paced bytes) := by
  induction bytes generalizing s with
  | nil => exact everyCall_nil _ _ _
  | cons data bytes ih =>
    rw [paced, List.flatMap_cons, everyCall_append, ← paced]
    refine ⟨?_, ih (txActive_byteCycles 1 hs data)⟩
    rw [byteCycles, everyCall_cons]
    refine ⟨⟨fun _ hactive => absurd (hs.symm.trans hactive) Bool.false_ne_true, rfl⟩, ?_⟩
    exact prompt_idle 8 _

theorem unhurried_paced (s : Modem) (bytes : List (BitVec 8)) :
    EveryCall (step 1) s.reset (Unhurried 1) (paced bytes) :=
  unhurried_of_prompt (.reset s) (prompt_paced rfl bytes)

end Paced

end Modem
end Cirradio.Fpga
