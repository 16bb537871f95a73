import Cirradio.CallRuns
import Cirradio.Transposers
import Mathlib.Data.List.ReduceOption

/-!
# Runs of clocked memories

What a run of a transposing memory writes and emits, as lists: what comes out is the transposed
sequence, a second memory of transposed shape undoes it, and how far apart values must be
written so that none is written over one that is still to be read.
-/

namespace Cirradio.Transposers

theorem transposedIndex_transposedIndex {a b : ℕ} (ha : 0 < a) (hb : 0 < b) (n : ℕ) :
    transposedIndex a b (transposedIndex b a n) = n := by
  have hrow : n / b % a < a := Nat.mod_lt _ ha
  have hcol : n % b < b := Nat.mod_lt _ hb
  rw [show transposedIndex b a n = (n / b / a * b + n % b) * a + n / b % a from rfl,
    transposedIndex_eq hrow hcol, Nat.div_add_mod', Nat.div_add_mod']

section Starts
variable {α : Type*} {f : ℕ → α} {l l' : List α}

/-- A list has the first values of a sequence. -/
def StartOf (l : List α) (f : ℕ → α) : Prop := ∀ i v, l[i]? = some v → v = f i

theorem startOf_getD (l : List α) (v : α) : StartOf l fun i => l.getD i v := by
  intro i w hi
  dsimp only
  rw [List.getD_eq_getElem?_getD, hi, Option.getD_some]

theorem startOf_append_toList {x : Option α} :
    StartOf (l ++ x.toList) f ↔ StartOf l f ∧ ∀ v ∈ x, v = f l.length := by
  constructor
  · intro h
    refine ⟨fun i v hi => h i v ?_, fun v hv => h l.length v ?_⟩
    · rw [List.getElem?_append_left (List.getElem?_eq_some_iff.mp hi).1, hi]
    · rw [Option.mem_def.mp hv, Option.toList_some, List.getElem?_concat_length]
  · rintro ⟨hl, hx⟩ i v hi
    cases x with
    | none =>
      rw [Option.toList_none, List.append_nil] at hi
      exact hl i v hi
    | some w =>
      rw [Option.toList_some, List.getElem?_append] at hi
      split_ifs at hi with hin
      · exact hl i v hi
      · rw [List.getElem?_singleton] at hi
        split_ifs at hi with hzero
        cases hi
        rw [show i = l.length by omega]
        exact hx v rfl

theorem StartOf.mono (h : StartOf l' f) (hl : l <+: l') : StartOf l f := by
  obtain ⟨rest, rfl⟩ := hl
  intro i v hi
  refine h i v ?_
  rw [List.getElem?_append_left (List.getElem?_eq_some_iff.mp hi).1, hi]

theorem StartOf.isPrefix_of_le (h : StartOf l f) (h' : StartOf l' f) (hlen : l.length ≤ l'.length) :
    l <+: l' := by
  refine List.prefix_iff_getElem?.mpr fun i hi => ?_
  have hi' : i < l'.length := hi.trans_le hlen
  rw [List.getElem?_eq_getElem hi', h i _ (List.getElem?_eq_getElem hi),
    h' i _ (List.getElem?_eq_getElem hi')]

end Starts

namespace Transposer
open CallRuns
variable {α : Type*} {a b : ℕ}

/-- A cycle, with what comes out in it. -/
def step (a b : ℕ) (s : Transposer α) (x : Option α) : Transposer α × Option α :=
  (s.next a b x, s.output)

/-- The values that come out in a run. -/
def emitted (a b : ℕ) (s : Transposer α) (xs : List (Option α)) : List α :=
  events (step a b) (fun s _ => s.output.toList) s xs

theorem emitted_concat (a b : ℕ) (s : Transposer α) (xs : List (Option α)) (x : Option α) :
    emitted a b s (xs ++ [x]) =
      emitted a b s xs ++ (after (step a b) s xs).output.toList := events_concat ..

theorem reduceOption_append_singleton (xs : List (Option α)) (x : Option α) :
    (xs ++ [x]).reduceOption = xs.reduceOption ++ x.toList := by
  rw [← List.concat_eq_append, List.reduceOption_concat]

/-- In a run that writes over nothing, the values that come out are the transposed ones. -/
theorem carries_of_clear (ha : 0 < a) (hb : 0 < b) (s : Transposer α) {f : ℕ → α}
    {xs : List (Option α)} (hxs : EveryCall (step a b) s.reset (Clear a) xs)
    (hf : StartOf xs.reduceOption f) :
    (∃ K J, (after (step a b) s.reset xs).Carries a b f xs.reduceOption.length
        (emitted a b s.reset xs).length K J) ∧
      StartOf (emitted a b s.reset xs) (fun p => f (transposedIndex a b p)) := by
  induction xs using List.reverseRecOn with
  | nil => exact ⟨⟨0, 0, .reset ha hb f s⟩, nofun⟩
  | append_singleton xs x ih =>
    obtain ⟨hbefore, hx⟩ := (everyCall_concat _ _).mp hxs
    rw [reduceOption_append_singleton, startOf_append_toList] at hf
    obtain ⟨hcarries, hout⟩ := ih hbefore hf.1
    rw [reduceOption_append_singleton, emitted_concat, after_concat, List.length_append,
      List.length_append, length_toList, length_toList, isSome_output, startOf_append_toList]
    refine ⟨Carries.next hcarries hf.2 hx, hout, ?_⟩
    obtain ⟨K, J, hcarries⟩ := hcarries
    exact hcarries.output_eq

theorem emitted_le (ha : 0 < a) (hb : 0 < b) (s : Transposer α) [Inhabited α]
    {xs : List (Option α)} (hxs : EveryCall (step a b) s.reset (Clear a) xs) :
    (emitted a b s.reset xs).length ≤ xs.reduceOption.length := by
  obtain ⟨⟨K, J, hcarries⟩, -⟩ := carries_of_clear ha hb s hxs (startOf_getD _ default)
  refine hcarries.le.trans ?_
  rw [Nat.div_div_eq_div_mul]
  exact Nat.div_mul_le_self _ _

section Counters
variable {f : ℕ → α} {m p K J : ℕ} {s : Transposer α}

theorem digits_of_dvd {k i j : ℕ} (hi : i < a) (hj : j < b) (h : a * b ∣ (k * a + i) * b + j) :
    i = 0 ∧ j = 0 := by
  obtain ⟨c, hc⟩ := h
  have hplace : (k * a + i) * b + j = (c * a + 0) * b + 0 := by
    rw [hc]
    ring
  rw [radix_inj hj (Nat.zero_lt_of_lt hj), radix_inj hi (Nat.zero_lt_of_lt hi)] at hplace
  exact ⟨hplace.1.2, hplace.2⟩

theorem Carries.write_start (h : s.Carries a b f m p K J) (hm : a * b ∣ m) :
    s.writeOuter = 0 ∧ s.writeInner = 0 :=
  digits_of_dvd h.writeOuter_lt h.writeInner_lt (h.written ▸ hm)

theorem Carries.read_start (h : s.Carries a b f m p K J) (hp : a * b ∣ p + s.outValid.toNat) :
    s.readOuter = 0 ∧ s.readInner = 0 :=
  digits_of_dvd h.readOuter_lt h.readInner_lt (Nat.mul_comm a b ▸ h.taken ▸ hp)

end Counters

/-- After full blocks the counters are at zero: those of the write side when they have been
written, those of the read side when they have been read. -/
def Realigns (a b : ℕ) (s : Transposer α) (xs : List (Option α)) : Prop :=
  ∀ i, let t := after (step a b) s (xs.take i)
    (a * b ∣ (xs.take i).reduceOption.length → t.writeOuter = 0 ∧ t.writeInner = 0) ∧
    (a * b ∣ (emitted a b s (xs.take i)).length + t.outValid.toNat →
      t.readOuter = 0 ∧ t.readInner = 0)

theorem realigns_of_clear [Inhabited α] (ha : 0 < a) (hb : 0 < b) (s : Transposer α)
    {xs : List (Option α)} (hxs : EveryCall (step a b) s.reset (Clear a) xs) :
    Realigns a b s.reset xs := by
  intro i
  obtain ⟨⟨K, J, hcarries⟩, -⟩ := carries_of_clear ha hb s (hxs.take i) (startOf_getD _ default)
  exact ⟨hcarries.write_start, hcarries.read_start⟩

/-- Each value that has come out is the one of its place in the transposed order. -/
def ColumnMajor (a b : ℕ) (s : Transposer α) (xs : List (Option α)) : Prop :=
  ∀ k i j v, i < a → j < b → (emitted a b s xs)[(k * b + j) * a + i]? = some v →
    xs.reduceOption[(k * a + i) * b + j]? = some v

theorem columnMajor_of_clear [Inhabited α] (ha : 0 < a) (hb : 0 < b) (s : Transposer α)
    {xs : List (Option α)} (hxs : EveryCall (step a b) s.reset (Clear a) xs) :
    ColumnMajor a b s.reset xs := by
  intro k i j v hi hj hv
  obtain ⟨⟨K, J, hcarries⟩, hout⟩ := carries_of_clear ha hb s hxs (startOf_getD _ default)
  have hblock : (k * b + j) * a + i < xs.reduceOption.length / b / a * (b * a) :=
    (List.getElem?_eq_some_iff.mp hv).1.trans_le hcarries.le
  have hin : (k * a + i) * b + j < xs.reduceOption.length := by
    rw [Nat.div_div_eq_div_mul] at hblock
    have hk : k < xs.reduceOption.length / (b * a) := by
      refine Nat.lt_of_mul_lt_mul_right (a := b * a) (lt_of_le_of_lt ?_ hblock)
      rw [← Nat.mul_assoc]
      exact Nat.le_add_right_of_le (Nat.mul_le_mul_right a (Nat.le_add_right _ j))
    have hend : (k * a + i) * b + j < (k + 1) * (b * a) := by
      rw [Nat.mul_comm b a, ← Nat.mul_assoc]
      exact radix_lt (j := 0) hj (by
        rw [Nat.add_mul, Nat.one_mul]
        omega)
    exact hend.trans_le ((Nat.mul_le_mul_right _ hk).trans (Nat.div_mul_le_self _ _))
  have hvalue := hout _ v hv
  dsimp only at hvalue
  rw [transposedIndex_eq hi hj, List.getD_eq_getElem?_getD, List.getElem?_eq_getElem hin,
    Option.getD_some] at hvalue
  rw [List.getElem?_eq_getElem hin, hvalue]

/-- The first block has the memory for itself. -/
theorem idle_of_first (ha : 0 < a) (hb : 0 < b) (s : Transposer α) [Inhabited α]
    {xs : List (Option α)} (hxs : EveryCall (step a b) s.reset (Clear a) xs)
    (hlen : xs.reduceOption.length < a * b) :
    (after (step a b) s.reset xs).filled = false ∧
      (after (step a b) s.reset xs).active = false := by
  obtain ⟨⟨K, J, h⟩, -⟩ := carries_of_clear ha hb s hxs (startOf_getD _ default)
  have hK : K = 0 := by
    have hplace := h.written
    by_contra hne
    have hfirst : 1 * (a * b) ≤ K * (a * b) := Nat.mul_le_mul_right _ (Nat.pos_of_ne_zero hne)
    have hsplit : (K * a + (after (step a b) s.reset xs).writeOuter) * b =
        K * (a * b) + (after (step a b) s.reset xs).writeOuter * b := by ring
    omega
  rcases h.phase with ⟨hno, hoff, -⟩ | ⟨-, -, hlater⟩ | ⟨-, -, hlater⟩
  · exact ⟨hno, hoff⟩
  · omega
  · omega

/-- No value is written while a block waits or is drained. -/
def Undisturbed (s : Transposer α) (x : Option α) : Prop :=
  x.isSome = true → s.filled = false ∧ s.active = false

theorem Undisturbed.clear {s : Transposer α} {x : Option α} (h : Undisturbed s x) (a : ℕ) :
    s.Clear a x := by
  intro hsome
  obtain ⟨hfilled, hoff⟩ := h hsome
  exact ⟨hfilled, fun hon => absurd (hoff.symm.trans hon) Bool.false_ne_true⟩

theorem undisturbed_of_first (ha : 0 < a) (hb : 0 < b) (s : Transposer α) [Inhabited α]
    {xs : List (Option α)} (hlen : xs.reduceOption.length ≤ a * b) :
    EveryCall (step a b) s.reset Undisturbed xs := by
  induction xs using List.reverseRecOn with
  | nil => exact everyCall_nil _ _ _
  | append_singleton xs x ih =>
    rw [reduceOption_append_singleton, List.length_append, length_toList] at hlen
    have hbefore := ih (by omega)
    refine (everyCall_concat _ _).mpr ⟨hbefore, fun hsome => ?_⟩
    rw [hsome, Bool.toNat_true] at hlen
    exact idle_of_first ha hb s (fun i v hv => (hbefore i v hv).clear a) (by omega)

/-- The cycles that it takes to drain. -/
def remaining (a b : ℕ) (s : Transposer α) : ℕ :=
  if s.filled then b * a + 2
  else if s.active then b * a - (s.readOuter * a + s.readInner) + 1
  else s.outValid.toNat

section Drain
variable {f : ℕ → α} {m p K J : ℕ} {s : Transposer α}

theorem remaining_le (a b : ℕ) (s : Transposer α) : remaining a b s ≤ b * a + 2 := by
  have := s.outValid.toNat_le
  unfold remaining
  split_ifs <;> omega

theorem idle_of_remaining (h : remaining a b s = 0) :
    s.filled = false ∧ s.active = false ∧ s.outValid = false := by
  unfold remaining at h
  split_ifs at h with hfilled hactive
  exact ⟨Bool.eq_false_iff.mpr hfilled, Bool.eq_false_iff.mpr hactive, Bool.toNat_eq_zero.mp h⟩

/-- A cycle without a value takes one off. -/
theorem Carries.remaining_next (h : s.Carries a b f m p K J) :
    remaining a b (s.next a b none) ≤ remaining a b s - 1 := by
  change remaining a b (s.read a b s) ≤ _
  rcases h.phase with ⟨hfilled, hactive, -⟩ | ⟨hfilled, hactive, -⟩ | ⟨hfilled, hactive, -⟩
  · rw [read_of_idle hfilled hactive]
    simp [remaining, hfilled, hactive]
  · rw [read_of_filled hfilled hactive]
    simp [remaining, hfilled]
  · obtain ⟨outer, inner, active, hread, houter, hinner, hmoves⟩ :=
      read_of_active hactive h.readOuter_lt h.readInner_lt
    rw [hread]
    rcases hmoves with ⟨rfl, hnext⟩ | ⟨rfl, rfl, rfl, hlast⟩
    · simp only [remaining, hfilled, hactive, hnext, if_true, Bool.false_eq_true, if_false]
      have hplace : outer * a + inner < b * a := radix_lt (j := 0) hinner houter
      omega
    · simp only [remaining, hfilled, hactive, if_true, Bool.false_eq_true, if_false,
        Bool.toNat_true]
      omega

theorem everyCall_clear_none (s : Transposer α) (n : ℕ) :
    EveryCall (step a b) s (Clear a) (List.replicate n none) := by
  intro i x hx
  rw [List.eq_of_mem_replicate (List.mem_of_getElem? hx)]
  exact nofun

theorem remaining_after_none (h : ∃ K J, s.Carries a b f m p K J) (n : ℕ) :
    remaining a b (after (step a b) s (List.replicate n none)) ≤ remaining a b s - n := by
  induction n generalizing s p with
  | zero => exact le_rfl
  | succ n ih =>
    have hnext := Carries.next (x := none) h nofun nofun
    have hlater := ih hnext
    obtain ⟨K, J, hcarries⟩ := h
    have hfirst := hcarries.remaining_next
    rw [List.replicate_succ, after_cons]
    refine hlater.trans ?_
    omega

end Drain

/-- As many cycles as a block takes, and two more. -/
def drain (a b : ℕ) : List (Option α) := List.replicate (b * a + 2) none

theorem reduceOption_append_drain (xs : List (Option α)) :
    (xs ++ drain a b).reduceOption = xs.reduceOption := by
  rw [List.reduceOption_append, drain, List.reduceOption_replicate_none, List.append_nil]

/-- Once drained, a memory has put out all full blocks. -/
theorem emitted_drain (ha : 0 < a) (hb : 0 < b) (s : Transposer α) {f : ℕ → α}
    {xs : List (Option α)} (hxs : EveryCall (step a b) s.reset (Clear a) xs)
    (hf : StartOf xs.reduceOption f) :
    (emitted a b s.reset (xs ++ drain a b)).length =
        xs.reduceOption.length / b / a * (b * a) ∧
      StartOf (emitted a b s.reset (xs ++ drain a b)) (fun p => f (transposedIndex a b p)) := by
  have hall : EveryCall (step a b) s.reset (Clear a) (xs ++ drain a b) :=
    (everyCall_append _ _).mpr ⟨hxs, everyCall_clear_none _ _⟩
  have hcarries := (carries_of_clear ha hb s hxs hf).1
  have hidle : remaining a b (after (step a b) s.reset (xs ++ drain a b)) = 0 := by
    have hle := remaining_after_none hcarries (b * a + 2)
    have hmax := remaining_le a b (after (step a b) s.reset xs)
    rw [after_append, drain]
    omega
  obtain ⟨hfilled, hactive, hvalid⟩ := idle_of_remaining hidle
  rw [← reduceOption_append_drain (a := a) (b := b) xs] at hf
  obtain ⟨⟨K, J, hlast⟩, hout⟩ := carries_of_clear ha hb s hall hf
  have hlen := hlast.eq_of_idle hfilled hactive hvalid
  rw [reduceOption_append_drain] at hlen
  exact ⟨hlen, hout⟩

section Inverse
variable [Inhabited α] (ha : 0 < a) (hb : 0 < b) (s t : Transposer α)
  {xs ys : List (Option α)} (hxs : EveryCall (step a b) s.reset (Clear a) xs)
  (hys : EveryCall (step b a) t.reset (Clear b) ys)
include ha hb hxs hys

/-- What has come out of the second memory is the start of what has gone into the first. -/
theorem emitted_isPrefix (hfed : ys.reduceOption <+: emitted a b s.reset xs) :
    emitted b a t.reset ys <+: xs.reduceOption := by
  have hf := startOf_getD xs.reduceOption default
  have hmiddle := (carries_of_clear ha hb s hxs hf).2
  have hback := (carries_of_clear hb ha t hys (hmiddle.mono hfed)).2
  simp only [transposedIndex_transposedIndex ha hb] at hback
  refine hback.isPrefix_of_le hf ?_
  have hout := emitted_le hb ha t hys
  have hin := emitted_le ha hb s hxs
  exact hout.trans (hfed.length_le.trans hin)

theorem emitted_drain_eq {k : ℕ} (hk : xs.reduceOption.length = k * (a * b))
    (hfed : ys.reduceOption = emitted a b s.reset (xs ++ drain a b)) :
    emitted b a t.reset (ys ++ drain b a) = xs.reduceOption := by
  have hf := startOf_getD xs.reduceOption default
  obtain ⟨hlen, hmiddle⟩ := emitted_drain ha hb s hxs hf
  rw [← hfed] at hlen hmiddle
  obtain ⟨hlen', hback⟩ := emitted_drain hb ha t hys hmiddle
  simp only [transposedIndex_transposedIndex ha hb] at hback
  have hmid : ys.reduceOption.length = k * (a * b) := by
    rw [hlen, hk, Nat.div_div_eq_div_mul, Nat.mul_comm b a,
      Nat.mul_div_cancel _ (Nat.mul_pos ha hb)]
  have hend : (emitted b a t.reset (ys ++ drain b a)).length = xs.reduceOption.length := by
    rw [hlen', hmid, hk, Nat.div_div_eq_div_mul, Nat.mul_div_cancel _ (Nat.mul_pos ha hb)]
  exact (hback.isPrefix_of_le hf hend.le).eq_of_length hend

end Inverse

/-- A value is written in a cycle, with some number of values before it. -/
def WrittenAt (xs : List (Option α)) (t n : ℕ) : Prop :=
  (∃ v, xs[t]? = some (some v)) ∧ (xs.take t).reduceOption.length = n

/-- The value of row `i` and column `j` of a block comes at least `j * a + i + 2` cycles after the
last value of the block before. -/
def Spaced (a b : ℕ) (xs : List (Option α)) : Prop :=
  ∀ k i j n last t, i < a → j < b → n + 1 = k * (a * b) → WrittenAt xs last n →
    WrittenAt xs t (k * (a * b) + (i * b + j)) → last + 2 + (j * a + i) ≤ t

section Timing
variable {xs : List (Option α)} {x : Option α} {t n : ℕ}

theorem WrittenAt.lt (h : WrittenAt xs t n) : t < xs.length := by
  obtain ⟨⟨v, hv⟩, -⟩ := h
  exact (List.getElem?_eq_some_iff.mp hv).1

theorem writtenAt_append_of_lt (ht : t < xs.length) :
    WrittenAt (xs ++ [x]) t n ↔ WrittenAt xs t n := by
  unfold WrittenAt
  rw [List.getElem?_append_left ht, List.take_append_of_le_length (Nat.le_of_lt ht)]

theorem writtenAt_length :
    WrittenAt (xs ++ [x]) xs.length n ↔ x.isSome = true ∧ xs.reduceOption.length = n := by
  unfold WrittenAt
  rw [List.getElem?_concat_length, List.take_left, Option.isSome_iff_exists]
  simp only [Option.some.injEq]

theorem writtenAt_append : WrittenAt (xs ++ [x]) t n ↔
    WrittenAt xs t n ∨ t = xs.length ∧ x.isSome = true ∧ xs.reduceOption.length = n := by
  rcases Nat.lt_trichotomy t xs.length with ht | rfl | ht
  · rw [writtenAt_append_of_lt ht]
    exact ⟨.inl, fun h => h.resolve_right fun h => absurd h.1 (Nat.ne_of_lt ht)⟩
  · rw [writtenAt_length]
    exact ⟨fun h => .inr ⟨rfl, h⟩, fun h => h.elim (fun h => absurd h.lt (Nat.lt_irrefl _)) (·.2)⟩
  · constructor
    · intro h
      have hlt := h.lt
      rw [List.length_append, List.length_singleton] at hlt
      omega
    · rintro (h | ⟨rfl, -⟩)
      · exact absurd h.lt (Nat.lt_asymm ht)
      · exact absurd ht (Nat.lt_irrefl _)

theorem WrittenAt.lt_written (h : WrittenAt xs t n) : n < xs.reduceOption.length := by
  induction xs using List.reverseRecOn with
  | nil => exact absurd h.lt (Nat.not_lt_zero t)
  | append_singleton xs x ih =>
    rw [reduceOption_append_singleton, List.length_append, length_toList]
    rcases writtenAt_append.mp h with h | ⟨-, hx, rfl⟩
    · exact Nat.lt_add_right _ (ih h)
    · rw [hx]
      exact Nat.lt_succ_self _

theorem WrittenAt.lt_iff (h : WrittenAt xs t n) (p : ℕ) :
    t < p ↔ n < (xs.take p).reduceOption.length := by
  obtain ⟨⟨v, hv⟩, hn⟩ := h
  constructor
  · intro ht
    refine WrittenAt.lt_written (t := t) ⟨⟨v, ?_⟩, ?_⟩
    · rwa [List.getElem?_take_of_lt ht]
    · rwa [List.take_take, Nat.min_eq_left (Nat.le_of_lt ht)]
  · intro hlt
    by_contra hle
    have hprefix : ((xs.take p).reduceOption).length ≤ ((xs.take t).reduceOption).length :=
      ((List.take_prefix_take_left (Nat.le_of_not_lt hle)).filterMap id).length_le
    omega

theorem exists_writtenAt (h : n < xs.reduceOption.length) : ∃ t, WrittenAt xs t n := by
  induction xs using List.reverseRecOn with
  | nil => exact absurd h (Nat.not_lt_zero n)
  | append_singleton xs x ih =>
    rw [reduceOption_append_singleton, List.length_append, length_toList] at h
    rcases Nat.lt_or_ge n xs.reduceOption.length with hn | hn
    · obtain ⟨t, ht⟩ := ih hn
      exact ⟨t, writtenAt_append.mpr (.inl ht)⟩
    · have hx : x.isSome = true := by
        by_contra hnone
        rw [Bool.eq_false_iff.mpr hnone, Bool.toNat_false] at h
        omega
      rw [hx, Bool.toNat_true] at h
      exact ⟨xs.length, writtenAt_length.mpr ⟨hx, by omega⟩⟩

/-- A value comes late enough behind the block before it. -/
def ComesLate (a b : ℕ) (xs : List (Option α)) (x : Option α) : Prop :=
  x.isSome = true → ∀ k i j n last, i < a → j < b → n + 1 = k * (a * b) → WrittenAt xs last n →
    xs.reduceOption.length = k * (a * b) + (i * b + j) → last + 2 + (j * a + i) ≤ xs.length

theorem spaced_concat : Spaced a b (xs ++ [x]) ↔ Spaced a b xs ∧ ComesLate a b xs x := by
  constructor
  · intro h
    refine ⟨fun k i j n last t hi hj hn hlast ht => ?_, fun hx k i j n last hi hj hn hlast ht => ?_⟩
    · exact h k i j n last t hi hj hn (writtenAt_append.mpr (.inl hlast))
        (writtenAt_append.mpr (.inl ht))
    · exact h k i j n last xs.length hi hj hn (writtenAt_append.mpr (.inl hlast))
        (writtenAt_length.mpr ⟨hx, ht⟩)
  · rintro ⟨hspaced, hlate⟩ k i j n last t hi hj hn hlast ht
    rcases writtenAt_append.mp hlast with hlast | ⟨-, -, hcount⟩
    · rcases writtenAt_append.mp ht with ht | ⟨rfl, hx, hcount⟩
      · exact hspaced k i j n last t hi hj hn hlast ht
      · exact hlate hx k i j n last hi hj hn hlast hcount
    · -- no value comes behind the last one
      have hnumber := ht.lt_written
      rw [reduceOption_append_singleton, List.length_append, length_toList] at hnumber
      have := x.isSome.toNat_le
      omega

end Timing

section ReadSide
variable {f : ℕ → α} {m p K J : ℕ} {s : Transposer α} {x : Option α} {xs : List (Option α)}

theorem Carries.place (h : s.Carries a b f m p K J) :
    m = K * (a * b) + (s.writeOuter * b + s.writeInner) ∧
      s.writeOuter * b + s.writeInner < a * b := by
  refine ⟨?_, radix_lt (j := 0) h.writeInner_lt h.writeOuter_lt⟩
  rw [h.written]
  ring

/-- The flag goes up with the last value of a block. -/
theorem Carries.filled_next (h : s.Carries a b f m p K J) (hclear : s.Clear a x) :
    (s.next a b x).filled = true ↔ x.isSome = true ∧ a * b ∣ m + 1 := by
  obtain ⟨hplace, hlt⟩ := h.place
  rw [next_eq_write_read s x fun hsome => (hclear hsome).1]
  cases x with
  | none =>
    refine ⟨fun hfilled => ?_, fun hsome => absurd hsome.1 Bool.false_ne_true⟩
    change (s.read a b s).filled = true at hfilled
    rcases h.phase with ⟨hno, hoff, -⟩ | ⟨hyes, hoff, -⟩ | ⟨hno, hon, -⟩
    · rw [read_of_idle hno hoff] at hfilled
      exact absurd (hno.symm.trans hfilled) Bool.false_ne_true
    · rw [read_of_filled hyes hoff] at hfilled
      exact absurd hfilled Bool.false_ne_true
    · obtain ⟨J', -, -, hstays⟩ := h.read
      exact absurd ((hstays hno).symm.trans hfilled) Bool.false_ne_true
  | some v =>
    obtain ⟨J', hread, -, hstays⟩ := h.read
    obtain ⟨outer, inner, filled, hwrite, houter, hinner, hmoves⟩ :=
      write_some hread.writeOuter_lt hread.writeInner_lt v
    rw [hwrite]
    rw [read_writeOuter, read_writeInner] at hmoves
    rcases hmoves with ⟨rfl, hnext⟩ | ⟨rfl, rfl, rfl, hrow, hcol⟩
    · have hinside : outer * b + inner < a * b := radix_lt (j := 0) hinner houter
      rw [hstays (hclear rfl).1]
      refine ⟨fun hno => absurd hno Bool.false_ne_true, fun hlast => ?_⟩
      rw [hplace, Nat.add_assoc, ← hnext, Nat.dvd_add_right (Nat.dvd_mul_left _ _)] at hlast
      have hzero := Nat.eq_zero_of_dvd_of_lt hlast.2 hinside
      omega
    · refine ⟨fun _ => ⟨rfl, K + 1, ?_⟩, fun _ => rfl⟩
      rw [hplace, Nat.add_assoc, Nat.add_assoc, hcol, ← hrow]
      ring

/-- Where the read side is follows from the cycle in which the last full block was filled. -/
def Timed (a b : ℕ) (xs : List (Option α)) (s : Transposer α) : Prop :=
  ∀ k n last, n + 1 = k * (a * b) → xs.reduceOption.length < (k + 1) * (a * b) →
    WrittenAt xs last n →
    (s.filled = true → xs.length = last + 1) ∧
    (s.active = true → xs.length = last + 2 + (s.readOuter * a + s.readInner)) ∧
    (s.filled = false → s.active = false → last + 2 + b * a ≤ xs.length)

/-- The read side takes one cycle for each cell, and one to start. -/
theorem Timed.read {n last : ℕ} (h : s.Carries a b f m p K J)
    (hfilled : s.filled = true → n = last + 1)
    (hactive : s.active = true → n = last + 2 + (s.readOuter * a + s.readInner))
    (hidle : s.filled = false → s.active = false → last + 2 + b * a ≤ n) :
    ((s.read a b s).active = true →
        n + 1 = last + 2 + ((s.read a b s).readOuter * a + (s.read a b s).readInner)) ∧
      ((s.read a b s).active = false → last + 2 + b * a ≤ n + 1) := by
  rcases h.phase with ⟨hno, hoff, -⟩ | ⟨hyes, hoff, -⟩ | ⟨hno, hon, -⟩
  · rw [read_of_idle hno hoff]
    refine ⟨fun hon => absurd (hoff.symm.trans hon) Bool.false_ne_true, fun _ => ?_⟩
    exact Nat.le_succ_of_le (hidle hno hoff)
  · obtain ⟨hrow, hcol⟩ := h.waits hoff
    rw [read_of_filled hyes hoff]
    refine ⟨fun _ => ?_, fun hno => absurd hno.symm Bool.false_ne_true⟩
    dsimp only
    rw [hfilled hyes, hrow, hcol, Nat.zero_mul]
  · obtain ⟨outer, inner, active, hread, -, -, hmoves⟩ :=
      read_of_active hon h.readOuter_lt h.readInner_lt
    have hlen := hactive hon
    rw [hread]
    rcases hmoves with ⟨rfl, hnext⟩ | ⟨rfl, rfl, rfl, hdone⟩
    · refine ⟨fun _ => ?_, fun hno => absurd hno.symm Bool.false_ne_true⟩
      rw [hlen, hnext]
      rfl
    · refine ⟨fun hyes => absurd hyes Bool.false_ne_true, fun _ => ?_⟩
      omega

theorem Timed.next (htimed : Timed a b xs s)
    (h : s.Carries a b f xs.reduceOption.length p K J) (hx : ∀ v ∈ x, v = f xs.reduceOption.length)
    (hclear : s.Clear a x) : Timed a b (xs ++ [x]) (s.next a b x) := by
  intro k n last hn hm hlast
  have hfilled := h.filled_next hclear
  rw [reduceOption_append_singleton, List.length_append, length_toList, Nat.add_mul,
    Nat.one_mul] at hm
  rw [List.length_append, List.length_singleton]
  rcases writtenAt_append.mp hlast with hlast | ⟨rfl, hsome, rfl⟩
  · -- the block that was the last full one still is
    have hbefore := hlast.lt_written
    have hnot : (s.next a b x).filled = false := by
      rw [← Bool.not_eq_true, hfilled]
      rintro ⟨hsome, hend⟩
      rw [hsome, Bool.toNat_true] at hm
      obtain ⟨c, hc⟩ := (Nat.dvd_sub hend (Dvd.intro_left k hn.symm : a * b ∣ n + 1))
      rcases Nat.eq_zero_or_pos c with rfl | hc'
      · omega
      · have := Nat.le_mul_of_pos_right (a * b) hc'
        omega
    obtain ⟨hwhenFilled, hwhenActive, hwhenIdle⟩ := htimed k n last hn
      (by rw [Nat.add_mul, Nat.one_mul]; omega) hlast
    obtain ⟨hmoves, hends⟩ := Timed.read h hwhenFilled hwhenActive hwhenIdle
    obtain ⟨hside, houter, hinner⟩ := write_readSide a b (s.read a b s) x
    refine ⟨fun hyes => absurd (hnot.symm.trans hyes) Bool.false_ne_true, ?_⟩
    rw [next_eq_write_read s x fun hsome => (hclear hsome).1, hside, houter, hinner]
    exact ⟨hmoves, fun _ => hends⟩
  · -- the last value of a block is written in this cycle
    have hyes : (s.next a b x).filled = true :=
      hfilled.mpr ⟨hsome, Dvd.intro_left k hn.symm⟩
    obtain ⟨K', J', hnext⟩ := Carries.next ⟨K, J, h⟩ hx hclear
    refine ⟨fun _ => rfl, fun hon => ?_, fun hno => ?_⟩
    · exact absurd ((hnext.eq_succ_of_active hon).1.symm.trans hyes) Bool.false_ne_true
    · exact absurd (hno.symm.trans hyes) Bool.false_ne_true

/-- A value is written over none that is still to be read exactly if it comes late enough. -/
theorem clear_iff_comesLate (htimed : Timed a b xs s)
    (h : s.Carries a b f xs.reduceOption.length p K J) :
    s.Clear a x ↔ ComesLate a b xs x := by
  obtain ⟨hplace, hlt⟩ := h.place
  constructor
  · intro hclear hsome k i j n last hi hj hn hlast hcount
    obtain ⟨hfilled, hbehind⟩ := hclear hsome
    -- the value belongs to the block and the place of the write side
    have hcell : (K * a + s.writeOuter) * b + s.writeInner = (k * a + i) * b + j := by
      rw [← h.written, hcount]
      ring
    rw [radix_inj h.writeInner_lt hj, radix_inj h.writeOuter_lt hi] at hcell
    obtain ⟨⟨rfl, rfl⟩, rfl⟩ := hcell
    obtain ⟨-, hwhenActive, hwhenIdle⟩ := htimed K n last hn
      (by rw [Nat.add_mul, Nat.one_mul]; omega) hlast
    cases hactive : s.active with
    | true =>
      rw [hwhenActive hactive]
      exact Nat.add_le_add_left (hbehind hactive) _
    | false =>
      have hinside : s.writeInner * a + s.writeOuter < b * a := radix_lt (j := 0) hi hj
      have hend := hwhenIdle hfilled hactive
      omega
  · intro hlate hsome
    have hnext := hlate hsome K s.writeOuter s.writeInner
    have hlast : 0 < K → ∃ n last, n + 1 = K * (a * b) ∧ WrittenAt xs last n := by
      intro hK
      have hpos : 0 < K * (a * b) := Nat.mul_pos hK (Nat.zero_lt_of_lt hlt)
      obtain ⟨last, hlast⟩ : ∃ last, WrittenAt xs last (K * (a * b) - 1) :=
        exists_writtenAt (by omega)
      exact ⟨_, last, by omega, hlast⟩
    rcases h.phase with ⟨hno, hoff, -⟩ | ⟨hyes, hoff, hK⟩ | ⟨hno, hon, hK⟩
    · exact ⟨hno, fun hon => absurd (hoff.symm.trans hon) Bool.false_ne_true⟩
    · obtain ⟨n, last, hn, hlast⟩ := hlast (by omega)
      have hgap := hnext n last h.writeOuter_lt h.writeInner_lt hn hlast hplace
      have hlen := (htimed K n last hn (by rw [Nat.add_mul, Nat.one_mul]; omega) hlast).1 hyes
      omega
    · obtain ⟨n, last, hn, hlast⟩ := hlast (by omega)
      have hgap := hnext n last h.writeOuter_lt h.writeInner_lt hn hlast hplace
      have hlen := (htimed K n last hn (by rw [Nat.add_mul, Nat.one_mul]; omega) hlast).2.1 hon
      exact ⟨hno, fun _ => by omega⟩

end ReadSide

theorem timed_of_clear [Inhabited α] (ha : 0 < a) (hb : 0 < b) (s : Transposer α)
    {xs : List (Option α)} (hxs : EveryCall (step a b) s.reset (Clear a) xs) :
    Timed a b xs (after (step a b) s.reset xs) := by
  induction xs using List.reverseRecOn with
  | nil => exact fun k n last _ _ hlast => absurd hlast.lt (Nat.not_lt_zero _)
  | append_singleton xs x ih =>
    obtain ⟨hbefore, hx⟩ := (everyCall_concat _ _).mp hxs
    have hf := startOf_getD (xs ++ [x]).reduceOption default
    rw [reduceOption_append_singleton, startOf_append_toList] at hf
    obtain ⟨K, J, hcarries⟩ := (carries_of_clear ha hb s hbefore hf.1).1
    rw [after_concat]
    exact (ih hbefore).next hcarries hf.2 hx

/-- No value is written over one that is still to be read in exactly the runs that leave enough
room behind each block. -/
theorem everyCall_clear_iff_spaced [Inhabited α] (ha : 0 < a) (hb : 0 < b) (s : Transposer α)
    (xs : List (Option α)) :
    EveryCall (step a b) s.reset (Clear a) xs ↔ Spaced a b xs := by
  induction xs using List.reverseRecOn with
  | nil =>
    refine ⟨fun _ k i j n last t _ _ _ hlast => ?_, fun _ => everyCall_nil _ _ _⟩
    exact absurd hlast.lt (Nat.not_lt_zero _)
  | append_singleton xs x ih =>
    rw [everyCall_concat, spaced_concat, ← ih]
    refine and_congr_right fun hbefore => ?_
    obtain ⟨K, J, hcarries⟩ := (carries_of_clear ha hb s hbefore (startOf_getD _ default)).1
    exact clear_iff_comesLate (timed_of_clear ha hb s hbefore) hcarries

end Transposer
end Cirradio.Transposers
