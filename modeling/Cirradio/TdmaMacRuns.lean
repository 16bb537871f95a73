import Cirradio.EmconLock

/-!
# Runs of the TDMA MAC

Three things of `tdma_mac` that only show over many cycles: how many raises an unlock token
allows, where the ramp of the amplifier goes, and how long the preamble lasts.
-/

namespace Cirradio.Fpga
namespace TdmaMac
open CallRuns

/-- The control writes of a run that raise the level. -/
def raises (s : TdmaMac) : List TdmaMacIn → ℕ
  | [] => 0
  | x :: xs =>
    (x.emconCtrlWr && decide (s.emconLevel < (s.next x).emconLevel)).toNat +
      raises (s.next x) xs

/-- The unlock magics that are written in a run. -/
def magicWrites (xs : List TdmaMacIn) : ℕ := xs.countP magicWrite

/-- A control write carries the lock bit. -/
def Relocks (x : TdmaMacIn) : Prop := x.emconCtrlWr = true → x.axiWdata.getLsbD 2 = true

instance : DecidablePred Relocks := fun x =>
  inferInstanceAs (Decidable (x.emconCtrlWr = true → x.axiWdata.getLsbD 2 = true))

theorem lock_next {s : TdmaMac} {x : TdmaMacIn} (hlock : s.lock = true) (hx : Relocks x) :
    (s.next x).lock = true := by
  simp only [next, lockNext]
  split_ifs with hctrl
  · exact hx hctrl
  · exact hlock

/-- With the lock on, a raise takes the token, and only the magic gives one. -/
theorem raise_add_pending_le {s : TdmaMac} {x : TdmaMacIn} (hlock : s.lock = true) :
    (x.emconCtrlWr && decide (s.emconLevel < (s.next x).emconLevel)).toNat +
        (s.next x).unlockPending.toNat ≤
      (magicWrite x).toNat + s.unlockPending.toNat := by
  cases hctrl : x.emconCtrlWr with
  | false =>
    have hkept : (s.next x).unlockPending = (magicWrite x || s.unlockPending) := by
      simp only [next, unlockPendingNext, hctrl]
      cases magicWrite x <;> rfl
    rw [Bool.false_and, hkept]
    cases magicWrite x <;> cases s.unlockPending <;> decide
  | true =>
    have hgone : (s.next x).unlockPending = false := by simp [next, unlockPendingNext, hctrl]
    cases htoken : s.unlockPending with
    | true =>
      rw [hgone]
      have := (true && decide (s.emconLevel < (s.next x).emconLevel)).toNat_le
      simp only [Bool.toNat_true, Bool.toNat_false]
      omega
    | false =>
      -- without the token the level stays or falls
      have hlow : ¬ s.emconLevel < (s.next x).emconLevel := by
        simp only [next, emconLevelNext, hctrl, hlock, htoken, if_true]
        by_cases hraise : s.emconLevel < x.emconLevel
        · simp [hraise]
        · simp [hraise]
      rw [hgone, decide_eq_false hlow]
      exact Nat.zero_le _

theorem raises_le {xs : List TdmaMacIn} (hxs : ∀ x ∈ xs, Relocks x) {s : TdmaMac}
    (hlock : s.lock = true) : raises s xs ≤ magicWrites xs + s.unlockPending.toNat := by
  induction xs generalizing s with
  | nil => exact Nat.zero_le _
  | cons x xs ih =>
    obtain ⟨hx, hrest⟩ := List.forall_mem_cons.mp hxs
    have hlater := ih hrest (lock_next hlock hx)
    have hfirst := raise_add_pending_le (x := x) hlock
    have hmagic : magicWrites (x :: xs) = magicWrites xs + (magicWrite x).toNat := by
      rw [magicWrites, List.countP_cons]
      cases magicWrite x <;> rfl
    rw [raises, hmagic]
    omega

theorem after_lock_write (s : TdmaMac) {x : TdmaMacIn} (hctrl : x.emconCtrlWr = true)
    (hlock : x.axiWdata.getLsbD 2 = true) :
    (s.next x).lock = true ∧ (s.next x).unlockPending = false := by
  simp [next, lockNext, unlockPendingNext, hctrl, hlock]

/-- From a control write with the lock bit on, as long as the later ones carry it too, there are
at most as many raises as unlock magics, and a token does not outlive a control write. -/
theorem raises_le_magicWrites (before : List TdmaMacIn) {x : TdmaMacIn} {xs : List TdmaMacIn}
    (hctrl : x.emconCtrlWr = true) (hlock : x.axiWdata.getLsbD 2 = true)
    (hxs : ∀ y ∈ xs, Relocks y) :
    (∀ i, raises (after step reset (before ++ [x])) (xs.take i) ≤ magicWrites (xs.take i)) ∧
      ∀ ys y zs, xs = ys ++ y :: zs → y.emconCtrlWr = true →
        (after step reset (before ++ x :: ys ++ [y])).unlockPending = false ∧
        ∀ i, raises (after step reset (before ++ x :: ys ++ [y])) (zs.take i) ≤
          magicWrites (zs.take i) := by
  have hbound : ∀ (past : List TdmaMacIn) {y : TdmaMacIn} {zs : List TdmaMacIn},
      y.emconCtrlWr = true → y.axiWdata.getLsbD 2 = true → (∀ z ∈ zs, Relocks z) →
      (after step reset (past ++ [y])).unlockPending = false ∧
        ∀ i, raises (after step reset (past ++ [y])) (zs.take i) ≤ magicWrites (zs.take i) := by
    intro past y zs hy hbit hzs
    rw [after_concat]
    obtain ⟨hon, hnone⟩ := after_lock_write (after step reset past) hy hbit
    refine ⟨hnone, fun i => ?_⟩
    have hlater : ∀ z ∈ zs.take i, Relocks z := fun z hz => hzs z (List.mem_of_mem_take hz)
    have hcount := raises_le hlater hon
    rwa [hnone, Bool.toNat_false, Nat.add_zero] at hcount
  refine ⟨(hbound before hctrl hlock hxs).2, ?_⟩
  rintro ys y zs rfl hy
  refine hbound (before ++ x :: ys) hy (hxs y (by simp) hy) fun z hz => hxs z ?_
  exact List.mem_append_right ys (List.mem_cons_of_mem y hz)

/-- A write of the unlock magic. -/
def magicStrobe : TdmaMacIn where
  slotBitmap := 1
  currentSlot := 0
  emconLevel := 0
  emconCtrlWr := false
  emconUnlockWr := true
  axiWdata := emconUnlockMagic
  paRampSteps := 4

/-- A token gives one raise: the second is refused. -/
theorem raises_le_magicWrites_twice :
    raises (after step reset ([] ++ [controlWrite 4]))
        ([magicStrobe, controlWrite 5, controlWrite 6].take 3) ≤
      magicWrites ([magicStrobe, controlWrite 5, controlWrite 6].take 3) := by
  have hrelocks : ∀ y ∈ [magicStrobe, controlWrite 5, controlWrite 6], Relocks y := by decide
  exact (raises_le_magicWrites [] (x := controlWrite 4) rfl rfl hrelocks).1 3

/-- The attenuation falls while the amplifier is on and rises while it is off. -/
def Ramps (s : TdmaMac) (x : TdmaMacIn) : Prop :=
  (paEnable s.emconLevel x = true → (s.next x).paAttenX100 ≤ s.paAttenX100) ∧
    (paEnable s.emconLevel x = false → s.paAttenX100 ≤ (s.next x).paAttenX100)

/-- While the amplifier is off, the step and the attenuation add up in 16 bits. -/
def SumFits (s : TdmaMac) (x : TdmaMacIn) : Prop :=
  paEnable s.emconLevel x = false →
    s.paAttenX100.toNat + (x.paRampSteps.setWidth 16).toNat < 65536

theorem paAttenNext_le_of_on {s : TdmaMac} {x : TdmaMacIn} (hon : paEnable s.emconLevel x = true) :
    paAttenNext s x ≤ s.paAttenX100 := by
  simp only [paAttenNext, hon, if_true]
  split_ifs with hsteps
  · rw [BitVec.le_def, BitVec.toNat_sub_of_le hsteps]
    exact Nat.sub_le _ _
  · exact BitVec.le_def.mpr (Nat.zero_le _)

theorem paAttenNext_le {s : TdmaMac} (h : s.paAttenX100 ≤ 0x0FA0) (x : TdmaMacIn) :
    paAttenNext s x ≤ 0x0FA0 := by
  cases hon : paEnable s.emconLevel x with
  | true => exact BitVec.le_trans (paAttenNext_le_of_on hon) h
  | false =>
    simp only [paAttenNext, hon, Bool.false_eq_true, if_false]
    split_ifs with hsum
    · exact hsum
    · exact BitVec.le_refl _

/-- A sum that wraps around is small, and is taken for the new attenuation. -/
theorem le_paAttenNext_iff {s : TdmaMac} {x : TdmaMacIn} (h : s.paAttenX100 ≤ 0x0FA0)
    (hoff : paEnable s.emconLevel x = false) :
    s.paAttenX100 ≤ paAttenNext s x ↔
      s.paAttenX100.toNat + (x.paRampSteps.setWidth 16).toNat < 65536 := by
  have hatten : s.paAttenX100.toNat ≤ 4000 := h
  have hsteps := (x.paRampSteps.setWidth 16).isLt
  simp only [paAttenNext, hoff, Bool.false_eq_true, if_false]
  generalize x.paRampSteps.setWidth 16 = steps at *
  have hsum : (s.paAttenX100 + steps).toNat =
      (s.paAttenX100.toNat + steps.toNat) % 65536 := BitVec.toNat_add _ _
  split_ifs with hle
  · rw [BitVec.le_def, hsum]
    omega
  · rw [BitVec.le_def, hsum] at hle
    change ¬ _ ≤ 4000 at hle
    exact ⟨fun _ => by omega, fun _ => h⟩

theorem ramps_iff {s : TdmaMac} (h : s.paAttenX100 ≤ 0x0FA0) (x : TdmaMacIn) :
    Ramps s x ↔ SumFits s x := by
  constructor
  · intro hramps hoff
    exact (le_paAttenNext_iff h hoff).mp (hramps.2 hoff)
  · intro hfits
    refine ⟨fun hon => paAttenNext_le_of_on hon, fun hoff => ?_⟩
    exact (le_paAttenNext_iff h hoff).mpr (hfits hoff)

/-- The attenuation stays in range in every run, and goes the right way exactly in the runs
whose sums fit. -/
theorem ramps_iff_sumFits (xs : List TdmaMacIn) :
    EveryState step reset (fun s => s.paAttenX100 ≤ 0x0FA0) xs ∧
      (EveryCall step reset Ramps xs ↔ EveryCall step reset SumFits xs) := by
  have hrange : ∀ i, (after step reset (xs.take i)).paAttenX100 ≤ 0x0FA0 := fun i =>
    invariant_after step reset (fun s => s.paAttenX100 ≤ 0x0FA0) (BitVec.le_refl _)
      (fun _ x h => paAttenNext_le h x) (xs.take i)
  refine ⟨hrange, ?_, ?_⟩
  · intro h i x hx
    exact (ramps_iff (hrange i) x).mp (h i x hx)
  · intro h i x hx
    exact (ramps_iff (hrange i) x).mpr (h i x hx)

/-- The ramp is bounded and monotone, whatever the step. -/
def AlwaysRamps : Prop :=
  ∀ xs : List TdmaMacIn, EveryState step reset (fun s => s.paAttenX100 ≤ 0x0FA0) xs ∧
    EveryCall step reset Ramps xs

/-- A step of 65535 takes one hundredth of a dB off while the amplifier is off. -/
theorem not_alwaysRamps : ¬ AlwaysRamps := by
  intro h
  let x : TdmaMacIn := ⟨0, 0, 2, false, false, 0, 0xFFFF⟩
  have hoff := ((h [x]).2 0 x rfl).2 (by decide)
  exact absurd hoff (by decide)

/-- The slot is owned in a cycle of the run. -/
def ownedAt (xs : List TdmaMacIn) (t : ℕ) : Bool := xs[t]?.any txSlot

/-- The slot becomes owned in a cycle of the run. -/
def RisesAt (xs : List TdmaMacIn) (t : ℕ) : Prop :=
  ownedAt xs t = true ∧ ∀ u, t = u + 1 → ownedAt xs u = false

theorem ownedAt_append {xs : List TdmaMacIn} (ys : List TdmaMacIn) {t : ℕ} (ht : t < xs.length) :
    ownedAt (xs ++ ys) t = ownedAt xs t := by
  rw [ownedAt, ownedAt, List.getElem?_append_left ht]

theorem ownedAt_length (xs : List TdmaMacIn) (x : TdmaMacIn) :
    ownedAt (xs ++ [x]) xs.length = txSlot x := by
  rw [ownedAt, List.getElem?_concat_length, Option.any_some]

theorem risesAt_append {xs : List TdmaMacIn} (ys : List TdmaMacIn) {t : ℕ} (ht : t < xs.length) :
    RisesAt (xs ++ ys) t ↔ RisesAt xs t := by
  unfold RisesAt
  rw [ownedAt_append ys ht]
  refine and_congr_right fun _ => forall_congr' fun u => imp_congr_right fun hu => ?_
  rw [ownedAt_append ys (by omega)]

theorem prevTxSlot_after (xs : List TdmaMacIn) :
    (after step reset xs).prevTxSlot = true ↔ ∃ u, xs.length = u + 1 ∧ ownedAt xs u = true := by
  induction xs using List.reverseRecOn with
  | nil => exact ⟨nofun, fun ⟨u, hu, _⟩ => absurd hu.symm (Nat.succ_ne_zero u)⟩
  | append_singleton xs x =>
    rw [after_concat, List.length_append, List.length_singleton]
    change txSlot x = true ↔ _
    rw [← ownedAt_length xs x]
    constructor
    · intro h
      exact ⟨_, rfl, h⟩
    · rintro ⟨u, hu, h⟩
      rwa [Nat.succ.inj hu]

theorem risesAt_length (xs : List TdmaMacIn) (x : TdmaMacIn) :
    RisesAt (xs ++ [x]) xs.length ↔
      (txSlot x && !(after step reset xs).prevTxSlot) = true := by
  rw [RisesAt, ownedAt_length, Bool.and_eq_true, Bool.not_eq_true']
  refine and_congr_right fun _ => ?_
  rw [← Bool.not_eq_true, prevTxSlot_after]
  constructor
  · rintro h ⟨u, hu, howned⟩
    rw [← ownedAt_append [x] (by omega), h u hu] at howned
    exact Bool.false_ne_true howned
  · intro h u hu
    rw [ownedAt_append [x] (by omega), ← Bool.not_eq_true]
    exact fun howned => h ⟨u, hu, howned⟩

/-- The counter counts down from the last rise of the slot. -/
theorem lt_preambleCnt_iff (xs : List TdmaMacIn) (j : ℕ) :
    j < (after step reset xs).preambleCnt.toNat ↔
      ∃ t < xs.length, RisesAt xs t ∧ xs.length + j < t + preambleCycles := by
  induction xs using List.reverseRecOn generalizing j with
  | nil => exact ⟨nofun, fun ⟨t, ht, _⟩ => absurd ht (Nat.not_lt_zero t)⟩
  | append_singleton xs x ih =>
    have hearlier : (∃ t < xs.length, RisesAt xs t ∧ xs.length + (j + 1) < t + preambleCycles) ↔
        ∃ t < xs.length, RisesAt (xs ++ [x]) t ∧ xs.length + 1 + j < t + preambleCycles := by
      refine exists_congr fun t => and_congr_right fun ht => ?_
      rw [risesAt_append [x] ht, Nat.add_right_comm, Nat.add_assoc]
    rw [after_concat, List.length_append, List.length_singleton]
    change j < (preambleNext _ x).1.toNat ↔ _
    have hrise := risesAt_length xs x
    unfold preambleNext
    generalize after step reset xs = s at *
    by_cases hedge : (txSlot x && !s.prevTxSlot) = true
    · rw [if_pos hedge]
      change j < 2999 ↔ _
      constructor
      · intro hj
        refine ⟨xs.length, Nat.lt_succ_self _, hrise.mpr hedge, ?_⟩
        unfold preambleCycles
        omega
      · rintro ⟨t, ht, -, hlate⟩
        unfold preambleCycles at hlate
        omega
    · have hlast : (∃ t < xs.length + 1, RisesAt (xs ++ [x]) t ∧
          xs.length + 1 + j < t + preambleCycles) ↔ j + 1 < s.preambleCnt.toNat := by
        rw [ih, hearlier]
        constructor
        · rintro ⟨t, ht, hrises, hlate⟩
          rcases Nat.lt_succ_iff_lt_or_eq.mp ht with hlt | rfl
          · exact ⟨t, hlt, hrises, hlate⟩
          · exact absurd (hrise.mp hrises) hedge
        · rintro ⟨t, ht, hrises⟩
          exact ⟨t, Nat.lt_succ_of_lt ht, hrises⟩
      rw [if_neg hedge, hlast]
      split_ifs with hcnt
      · have hpos : 0 < s.preambleCnt.toNat := hcnt
        have hpred : (s.preambleCnt - 1).toNat = s.preambleCnt.toNat - 1 :=
          BitVec.toNat_sub_of_le hpos
        change j < (s.preambleCnt - 1).toNat ↔ _
        omega
      · have hzero : ¬ 0 < s.preambleCnt.toNat := hcnt
        change j < s.preambleCnt.toNat ↔ _
        omega

/-- The preamble is sent in the 3000 cycles after a rise of the slot. -/
theorem preambleNext_iff (xs : List TdmaMacIn) (x : TdmaMacIn) :
    (preambleNext (after step reset xs) x).2 = true ↔
      ∃ t ≤ xs.length, RisesAt (xs ++ [x]) t ∧ xs.length < t + preambleCycles := by
  have hrise := risesAt_length xs x
  have hcnt := lt_preambleCnt_iff xs 0
  unfold preambleNext
  generalize after step reset xs = s at *
  by_cases hedge : (txSlot x && !s.prevTxSlot) = true
  · rw [if_pos hedge]
    refine ⟨fun _ => ⟨xs.length, Nat.le_refl _, hrise.mpr hedge, ?_⟩, fun _ => rfl⟩
    unfold preambleCycles
    omega
  · have hbefore : (∃ t ≤ xs.length, RisesAt (xs ++ [x]) t ∧ xs.length < t + preambleCycles) ↔
        0 < s.preambleCnt.toNat := by
      rw [hcnt]
      constructor
      · rintro ⟨t, ht, hrises, hlate⟩
        rcases Nat.lt_or_eq_of_le ht with hlt | rfl
        · exact ⟨t, hlt, (risesAt_append [x] hlt).mp hrises, hlate⟩
        · exact absurd (hrise.mp hrises) hedge
      · rintro ⟨t, ht, hrises, hlate⟩
        exact ⟨t, Nat.le_of_lt ht, (risesAt_append [x] ht).mpr hrises, hlate⟩
    rw [if_neg hedge, hbefore]
    split_ifs with hpos
    · exact ⟨fun _ => hpos, fun _ => rfl⟩
    · exact ⟨nofun, fun h => absurd h hpos⟩

/-- After a cycle with the amplifier off no preamble is sent. -/
def KeepsSilent (s : TdmaMac) (x : TdmaMacIn) : Prop :=
  paEnable s.emconLevel x = false → (s.next x).preambleTx = false

/-- The slot has not become owned within the length of a preamble. -/
def NoRecentRise (xs : List TdmaMacIn) (t : ℕ) : Prop :=
  ∀ t' ≤ t, t < t' + preambleCycles → ¬ RisesAt xs t'

/-- The preamble keeps to the amplifier in exactly the runs in which no slot has become owned in
the 3000 cycles up to one with the amplifier off. -/
theorem keepsSilent_iff (xs : List TdmaMacIn) :
    EveryCall step reset KeepsSilent xs ↔
      ∀ t x, xs[t]? = some x →
        paEnable (after step reset (xs.take t)).emconLevel x = false → NoRecentRise xs t := by
  refine forall_congr' fun t => forall_congr' fun x => imp_congr_right fun hx =>
    imp_congr_right fun hoff => ?_
  have ht : t < xs.length := (List.getElem?_eq_some_iff.mp hx).1
  have hlen : (xs.take t).length = t := List.length_take_of_le (Nat.le_of_lt ht)
  have htake : xs.take t ++ [x] = xs.take (t + 1) := by
    rw [List.take_add_one, hx, Option.toList_some]
  have hrises : ∀ t' ≤ t, RisesAt (xs.take t ++ [x]) t' ↔ RisesAt xs t' := by
    intro t' ht'
    have hin : t' < (xs.take (t + 1)).length := by
      rw [List.length_take_of_le ht]
      exact Nat.lt_succ_of_le ht'
    rw [htake, ← risesAt_append (xs.drop (t + 1)) hin, List.take_append_drop]
  change (preambleNext (after step reset (xs.take t)) x).2 = false ↔ _
  rw [← Bool.not_eq_true, preambleNext_iff, hlen]
  constructor
  · intro h t' ht' hlate hrise
    exact h ⟨t', ht', (hrises t' ht').mpr hrise, hlate⟩
  · rintro h ⟨t', ht', hrise, hlate⟩
    exact h t' ht' hlate ((hrises t' ht').mp hrise)

/-- At level 0 the amplifier is off in the owned slot, and its preamble is sent. -/
theorem not_keepsSilent : ¬ ∀ xs : List TdmaMacIn, EveryCall step reset KeepsSilent xs := by
  intro h
  have hsilent := h [{ controlWrite 0 with slotBitmap := 0 }, ⟨1, 0, 0, false, false, 0, 4⟩] 1 _ rfl
    (by decide)
  exact absurd hsilent (by decide)

end TdmaMac
end Cirradio.Fpga
