import Mathlib.Data.Nat.Basic
import Mathlib.Logic.Function.Basic
import Mathlib.Tactic.Common
import Mathlib.Tactic.Ring
import Mathlib.Tactic.SplitIfs

/-!
# Clocked memories that transpose blocks

A memory of `a` by `b` cells is filled row by row and drained column by column, both by one
cell a cycle, with one memory for both. As long as no cell is written that is still to be
read, what comes out is what went in, in transposed order.
-/

namespace Cirradio.Transposers

section Digits
variable {n x y i j : ℕ}

theorem radix_lt (hi : i < n) (h : x < y) : x * n + i < y * n + j :=
  calc x * n + i < x * n + n := Nat.add_lt_add_left hi _
    _ = (x + 1) * n := (Nat.succ_mul x n).symm
    _ ≤ y * n := Nat.mul_le_mul_right n h
    _ ≤ y * n + j := Nat.le_add_right _ j

theorem radix_lt_iff (hi : i < n) (hj : j < n) :
    x * n + i < y * n + j ↔ x < y ∨ x = y ∧ i < j := by
  rcases Nat.lt_trichotomy x y with h | h | h
  · exact ⟨fun _ => .inl h, fun _ => radix_lt hi h⟩
  · subst h
    omega
  · have hgt : y * n + j < x * n + i := radix_lt hj h
    omega

theorem radix_inj (hi : i < n) (hj : j < n) : x * n + i = y * n + j ↔ x = y ∧ i = j := by
  have hlt := radix_lt_iff (x := x) (y := y) hi hj
  have hgt := radix_lt_iff (x := y) (y := x) hj hi
  omega

theorem radix_div (hi : i < n) : (x * n + i) / n = x := by
  rw [Nat.mul_comm, Nat.mul_add_div (Nat.zero_lt_of_lt hi), Nat.div_eq_of_lt hi, Nat.add_zero]

theorem radix_mod (hi : i < n) : (x * n + i) % n = i := by
  rw [Nat.mul_comm, Nat.mul_add_mod, Nat.mod_eq_of_lt hi]

end Digits

/-- The place in row order of a place in column order. -/
def transposedIndex (a b p : ℕ) : ℕ := (p / a / b * a + p % a) * b + p / a % b

theorem transposedIndex_eq {a b i j : ℕ} (hi : i < a) (hj : j < b) (k : ℕ) :
    transposedIndex a b ((k * b + j) * a + i) = (k * a + i) * b + j := by
  rw [transposedIndex, radix_div hi, radix_mod hi, radix_div hj, radix_mod hj]

/-- A counter that turns round at a size. -/
def turned (size i : ℕ) (moves : Bool) : ℕ :=
  if moves then if i + 1 = size then 0 else i + 1 else i

structure Transposer (α : Type*) where
  writeOuter : ℕ
  writeInner : ℕ
  readOuter : ℕ
  readInner : ℕ
  filled : Bool
  active : Bool
  cells : ℕ → ℕ → α
  out : α
  outValid : Bool

namespace Transposer
variable {α : Type*} (a b : ℕ)

/-- Counters and flags start over, and the cells keep what they hold. -/
def reset (s : Transposer α) : Transposer α :=
  { s with
    writeOuter := 0, writeInner := 0, readOuter := 0, readInner := 0
    filled := false, active := false, outValid := false }

/-- The write side fills row by row. -/
def write (s : Transposer α) : Option α → Transposer α
  | none => s
  | some x =>
    let s' := { s with
      cells := Function.update s.cells s.writeOuter
        (Function.update (s.cells s.writeOuter) s.writeInner x) }
    if s.writeInner + 1 = b then
      if s.writeOuter + 1 = a then { s' with writeInner := 0, writeOuter := 0, filled := true }
      else { s' with writeInner := 0, writeOuter := s.writeOuter + 1 }
    else { s' with writeInner := s.writeInner + 1 }

/-- The read side drains column by column. It sees the registers before the edge, and what it
does to them is done to the second state. -/
def read (old s : Transposer α) : Transposer α :=
  if old.filled && !old.active then { s with outValid := false, active := true, filled := false }
  else if old.active then
    let s' := { s with out := old.cells old.readInner old.readOuter, outValid := true }
    if old.readInner + 1 = a then
      if old.readOuter + 1 = b then { s' with readInner := 0, readOuter := 0, active := false }
      else { s' with readInner := 0, readOuter := old.readOuter + 1 }
    else { s' with readInner := old.readInner + 1 }
  else { s with outValid := false }

/-- One cycle. Both sides drive `filled`, and the read side comes last. -/
def next (s : Transposer α) (x : Option α) : Transposer α := s.read a b (s.write a b x)

@[simp] theorem read_writeOuter (old s : Transposer α) :
    (old.read a b s).writeOuter = s.writeOuter := by
  unfold read
  split_ifs <;> rfl

@[simp] theorem read_writeInner (old s : Transposer α) :
    (old.read a b s).writeInner = s.writeInner := by
  unfold read
  split_ifs <;> rfl

/-- What comes out in a cycle. -/
def output (s : Transposer α) : Option α := if s.outValid then some s.out else none

theorem isSome_output (s : Transposer α) : s.output.isSome = s.outValid := by
  unfold output
  cases s.outValid <;> rfl

/-- What is written goes to a cell that is not still to be read. -/
def Clear (s : Transposer α) (x : Option α) : Prop :=
  x.isSome = true → s.filled = false ∧
    (s.active = true → s.writeInner * a + s.writeOuter ≤ s.readOuter * a + s.readInner)

instance (s : Transposer α) (x : Option α) : Decidable (s.Clear a x) :=
  inferInstanceAs (Decidable (x.isSome = true → _ ∧ (_ → _)))

section Cycle
variable {a b} {s : Transposer α}

theorem read_of_active (hactive : s.active = true) (houter : s.readOuter < b)
    (hinner : s.readInner < a) : ∃ outer inner active,
      s.read a b s = { s with
        out := s.cells s.readInner s.readOuter, outValid := true
        readOuter := outer, readInner := inner, active } ∧ outer < b ∧ inner < a ∧
      ((active = true ∧ outer * a + inner = s.readOuter * a + s.readInner + 1) ∨
        (active = false ∧ outer = 0 ∧ inner = 0 ∧ s.readOuter * a + s.readInner + 1 = b * a)) := by
  have hnot : (s.filled && !s.active) = false := by rw [hactive, Bool.not_true, Bool.and_false]
  rw [read, hnot, if_neg Bool.false_ne_true, if_pos hactive]
  by_cases hwrap : s.readInner + 1 = a
  · rw [if_pos hwrap]
    by_cases hlast : s.readOuter + 1 = b
    · rw [if_pos hlast]
      refine ⟨0, 0, false, rfl, Nat.zero_lt_of_lt houter, Nat.zero_lt_of_lt hinner,
        .inr ⟨rfl, rfl, rfl, ?_⟩⟩
      rw [Nat.add_assoc, hwrap, ← Nat.succ_mul, Nat.succ_eq_add_one, hlast]
    · rw [if_neg hlast]
      refine ⟨s.readOuter + 1, 0, true, by rw [hactive], by omega, Nat.zero_lt_of_lt hinner,
        .inl ⟨rfl, ?_⟩⟩
      rw [Nat.add_assoc _ s.readInner, hwrap, Nat.succ_mul, Nat.add_zero]
  · rw [if_neg hwrap]
    exact ⟨s.readOuter, s.readInner + 1, true, by rw [hactive], houter, by omega, .inl ⟨rfl, rfl⟩⟩

theorem read_of_filled (hfilled : s.filled = true) (hactive : s.active = false) :
    s.read a b s = { s with outValid := false, active := true, filled := false } := by
  rw [read, hfilled, hactive]
  rfl

theorem read_of_idle (hfilled : s.filled = false) (hactive : s.active = false) :
    s.read a b s = { s with outValid := false } := by
  rw [read, hfilled, hactive]
  rfl

theorem write_some (houter : s.writeOuter < a) (hinner : s.writeInner < b) (x : α) :
    ∃ outer inner filled, s.write a b (some x) = { s with
        cells := Function.update s.cells s.writeOuter
          (Function.update (s.cells s.writeOuter) s.writeInner x)
        writeOuter := outer, writeInner := inner, filled } ∧ outer < a ∧ inner < b ∧
      ((filled = s.filled ∧ outer * b + inner = s.writeOuter * b + s.writeInner + 1) ∨
        (filled = true ∧ outer = 0 ∧ inner = 0 ∧
          s.writeOuter + 1 = a ∧ s.writeInner + 1 = b)) := by
  rw [write]
  by_cases hwrap : s.writeInner + 1 = b
  · rw [if_pos hwrap]
    by_cases hlast : s.writeOuter + 1 = a
    · rw [if_pos hlast]
      exact ⟨0, 0, true, rfl, Nat.zero_lt_of_lt houter, Nat.zero_lt_of_lt hinner,
        .inr ⟨rfl, rfl, rfl, hlast, hwrap⟩⟩
    · rw [if_neg hlast]
      refine ⟨s.writeOuter + 1, 0, s.filled, rfl, by omega, Nat.zero_lt_of_lt hinner,
        .inl ⟨rfl, ?_⟩⟩
      rw [Nat.add_assoc _ s.writeInner, hwrap, Nat.succ_mul, Nat.add_zero]
  · rw [if_neg hwrap]
    exact ⟨s.writeOuter, s.writeInner + 1, s.filled, rfl, houter, by omega, .inl ⟨rfl, rfl⟩⟩

theorem writeInner_next (s : Transposer α) (x : Option α) :
    (s.next a b x).writeInner = (s.write a b x).writeInner := by
  rw [next, read_writeInner]

/-- Up to a divisor of the length of a row the write side counts what goes in. -/
theorem writeInner_next_mod {d : ℕ} (hd : d ∣ b) (s : Transposer α) (x : Option α) :
    (s.next a b x).writeInner % d = (s.writeInner + x.isSome.toNat) % d := by
  rw [writeInner_next]
  cases x with
  | none => rfl
  | some v =>
    rw [write]
    by_cases hwrap : s.writeInner + 1 = b
    · have hzero : (s.writeInner + (some v).isSome.toNat) % d = 0 :=
        Nat.mod_eq_zero_of_dvd (hwrap.symm ▸ hd)
      rw [if_pos hwrap, hzero]
      split <;> exact Nat.zero_mod d
    · rw [if_neg hwrap]
      rfl

theorem next_eq_write_read (s : Transposer α) (x : Option α)
    (hfilled : x.isSome = true → s.filled = false) :
    s.next a b x = (s.read a b s).write a b x := by
  cases x with
  | none => rfl
  | some v =>
    have hidle : (s.filled && !s.active) = false := by rw [hfilled rfl]; rfl
    rw [next, Transposer.read, Transposer.read, hidle]
    obtain ⟨writeOuter, writeInner, readOuter, readInner, filled, active, cells, out, valid⟩ := s
    simp only [Bool.false_eq_true, if_false, write]
    split_ifs <;> rfl

end Cycle

/-- Of a sequence, `m` have gone in and `p` have come out. The block that is being written is
the `K`-th and the block that is read the `J`-th, and what has gone in and is still to be
read is in its cell. -/
structure Carries (f : ℕ → α) (m p K J : ℕ) (s : Transposer α) : Prop where
  writeOuter_lt : s.writeOuter < a
  writeInner_lt : s.writeInner < b
  readOuter_lt : s.readOuter < b
  readInner_lt : s.readInner < a
  written : m = (K * a + s.writeOuter) * b + s.writeInner
  taken : p + s.outValid.toNat = (J * b + s.readOuter) * a + s.readInner
  phase : (s.filled = false ∧ s.active = false ∧ K = J) ∨
    (s.filled = true ∧ s.active = false ∧ K = J + 1) ∨
    (s.filled = false ∧ s.active = true ∧ K = J + 1)
  waits : s.active = false → s.readOuter = 0 ∧ s.readInner = 0
  kept : ∀ k i j, i < a → j < b → (k * a + i) * b + j < m →
    (J * b + s.readOuter) * a + s.readInner ≤ (k * b + j) * a + i →
    s.cells i j = f ((k * a + i) * b + j)
  held : s.outValid = true → s.out = f (transposedIndex a b p)

namespace Carries
variable {a b} {f : ℕ → α} {m p K J : ℕ} {s : Transposer α}

theorem reset (ha : 0 < a) (hb : 0 < b) (f : ℕ → α) (s : Transposer α) :
    s.reset.Carries a b f 0 0 0 0 where
  writeOuter_lt := ha
  writeInner_lt := hb
  readOuter_lt := hb
  readInner_lt := ha
  written := by simp [Transposer.reset]
  taken := by simp [Transposer.reset]
  phase := .inl ⟨rfl, rfl, rfl⟩
  waits _ := ⟨rfl, rfl⟩
  kept k i j _ _ h := absurd h (Nat.not_lt_zero _)
  held h := absurd h Bool.false_ne_true

theorem output_eq (h : s.Carries a b f m p K J) :
    ∀ x ∈ s.output, x = f (transposedIndex a b p) := by
  intro x hx
  unfold output at hx
  split at hx
  · next hvalid =>
    cases hx
    exact h.held hvalid
  · cases hx

theorem eq_succ_of_active (h : s.Carries a b f m p K J) (hactive : s.active = true) :
    s.filled = false ∧ K = J + 1 := by
  rcases h.phase with ⟨-, hno, -⟩ | ⟨-, hno, -⟩ | ⟨hfilled, -, hK⟩
  · exact absurd hactive (by rw [hno]; exact Bool.false_ne_true)
  · exact absurd hactive (by rw [hno]; exact Bool.false_ne_true)
  · exact ⟨hfilled, hK⟩

theorem cell_eq (h : s.Carries a b f m p K J) (hactive : s.active = true) :
    s.cells s.readInner s.readOuter = f (transposedIndex a b (p + s.outValid.toNat)) := by
  rw [h.taken, transposedIndex_eq h.readInner_lt h.readOuter_lt]
  refine h.kept J _ _ h.readInner_lt h.readOuter_lt ?_ le_rfl
  have hK : J < K := (h.eq_succ_of_active hactive).2 ▸ Nat.lt_succ_self J
  rw [h.written]
  exact radix_lt h.readOuter_lt (radix_lt h.readInner_lt hK)

/-- A cell is read, and the read side moves on to the next. -/
theorem readCell (h : s.Carries a b f m p K J) (hactive : s.active = true) {outer inner J' : ℕ}
    {active : Bool} (houter : outer < b) (hinner : inner < a)
    (hplace : (J' * b + outer) * a + inner = (J * b + s.readOuter) * a + s.readInner + 1)
    (hphase : (active = true ∧ J' = J) ∨ (active = false ∧ J' = J + 1 ∧ outer = 0 ∧ inner = 0)) :
    Carries a b f m (p + s.outValid.toNat) K J'
      { s with
        out := s.cells s.readInner s.readOuter, outValid := true
        readOuter := outer, readInner := inner, active } where
  writeOuter_lt := h.writeOuter_lt
  writeInner_lt := h.writeInner_lt
  readOuter_lt := houter
  readInner_lt := hinner
  written := h.written
  taken := by rw [h.taken, Bool.toNat_true, hplace]
  phase := by
    obtain ⟨hfilled, hK⟩ := h.eq_succ_of_active hactive
    rcases hphase with ⟨hyes, hJ⟩ | ⟨hno, hJ, -, -⟩
    · exact .inr (.inr ⟨hfilled, hyes, hJ ▸ hK⟩)
    · exact .inl ⟨hfilled, hno, hK.trans hJ.symm⟩
  waits hno := by
    rcases hphase with ⟨hyes, -⟩ | ⟨-, -, hstart⟩
    · exact absurd (hno.symm.trans hyes) Bool.false_ne_true
    · exact hstart
  kept k i j hi hj hm hread := h.kept k i j hi hj hm (Nat.le_of_succ_le (hplace.symm.trans_le hread))
  held _ := h.cell_eq hactive

/-- Where a read takes place, the places before the new one include it. -/
theorem read (h : s.Carries a b f m p K J) :
    ∃ J', (s.read a b s).Carries a b f m (p + s.outValid.toNat) K J' ∧
      (s.active = true → (J' * b + (s.read a b s).readOuter) * a + (s.read a b s).readInner =
        (J * b + s.readOuter) * a + s.readInner + 1) ∧
      (s.filled = false → (s.read a b s).filled = false) := by
  have hplace := h.taken
  by_cases hactive : s.active = true
  · obtain ⟨outer, inner, active, hread, houter, hinner, hmoves⟩ :=
      read_of_active hactive h.readOuter_lt h.readInner_lt
    rw [hread]
    rcases hmoves with ⟨rfl, hnext⟩ | ⟨rfl, rfl, rfl, hlast⟩
    · have hgoes : (J * b + outer) * a + inner =
          (J * b + s.readOuter) * a + s.readInner + 1 := by
        rw [Nat.add_mul, Nat.add_mul, Nat.add_assoc, hnext]
        ring
      exact ⟨J, h.readCell hactive houter hinner hgoes (.inl ⟨rfl, rfl⟩), fun _ => hgoes, id⟩
    · have hgoes : ((J + 1) * b + 0) * a + 0 =
          (J * b + s.readOuter) * a + s.readInner + 1 := by
        rw [Nat.add_mul (J * b), Nat.add_assoc (J * b * a), Nat.add_assoc (J * b * a), hlast]
        ring
      exact ⟨J + 1, h.readCell hactive houter hinner hgoes (.inr ⟨rfl, rfl, rfl, rfl⟩),
        fun _ => hgoes, id⟩
  · have hoff : s.active = false := Bool.eq_false_iff.mpr hactive
    by_cases hfilled : s.filled = true
    · rw [read_of_filled hfilled hoff]
      refine ⟨J, ?_, fun h => absurd h hactive, fun _ => rfl⟩
      have hK : K = J + 1 := by
        rcases h.phase with ⟨hno, -, -⟩ | ⟨-, -, hK⟩ | ⟨-, hyes, -⟩
        · exact absurd (hno.symm.trans hfilled) Bool.false_ne_true
        · exact hK
        · exact absurd hyes hactive
      exact {
        h with
        taken := hplace
        phase := .inr (.inr ⟨rfl, rfl, hK⟩)
        waits := nofun
        held := nofun }
    · rw [read_of_idle (Bool.eq_false_iff.mpr hfilled) hoff]
      exact ⟨J, { h with taken := hplace, held := nofun }, fun h => absurd h hactive, id⟩

/-- A cell that has been read in every block before is written, and the write side moves on
to the next. -/
theorem writeCell (h : s.Carries a b f m p K J)
    (hread : ∀ k < K, (k * b + s.writeInner) * a + s.writeOuter <
      (J * b + s.readOuter) * a + s.readInner)
    {outer inner K' : ℕ} {filled : Bool} (houter : outer < a) (hinner : inner < b)
    (hplace : (K' * a + outer) * b + inner = m + 1)
    (hphase : (filled = s.filled ∧ K' = K) ∨
      (filled = true ∧ s.active = false ∧ K' = J + 1)) :
    Carries a b f (m + 1) p K' J
      { s with
        cells := Function.update s.cells s.writeOuter
          (Function.update (s.cells s.writeOuter) s.writeInner (f m))
        writeOuter := outer, writeInner := inner, filled } where
  writeOuter_lt := houter
  writeInner_lt := hinner
  readOuter_lt := h.readOuter_lt
  readInner_lt := h.readInner_lt
  written := hplace.symm
  taken := h.taken
  phase := by
    rcases hphase with ⟨hfilled, hK⟩ | ⟨hfilled, hoff, hK⟩
    · exact hfilled ▸ hK ▸ h.phase
    · exact .inr (.inl ⟨hfilled, hoff, hK⟩)
  waits := h.waits
  kept := by
    intro k i j hi hj hm hleft
    change Function.update s.cells s.writeOuter _ i j = _
    by_cases hlast : (k * a + i) * b + j = m
    · have hsame := hlast.trans h.written
      rw [radix_inj hj h.writeInner_lt, radix_inj hi h.writeOuter_lt] at hsame
      obtain ⟨⟨-, rfl⟩, rfl⟩ := hsame
      rw [Function.update_self, Function.update_self, hlast]
    · have hbefore : (k * a + i) * b + j < m := by omega
      rw [← h.kept k i j hi hj hbefore hleft]
      by_cases hrow : i = s.writeOuter
      · by_cases hcol : j = s.writeInner
        · subst hrow hcol
          rw [h.written, radix_lt_iff hj h.writeInner_lt, radix_lt_iff hi h.writeOuter_lt] at hbefore
          exact absurd (hread k (by omega)) (Nat.not_lt.mpr hleft)
        · rw [hrow, Function.update_self, Function.update_of_ne hcol]
      · rw [Function.update_of_ne hrow]
  held := h.held

theorem write (h : s.Carries a b f m p K J)
    (hread : ∀ k < K, (k * b + s.writeInner) * a + s.writeOuter <
      (J * b + s.readOuter) * a + s.readInner) (hfilled : s.filled = false) :
    ∃ K', (s.write a b (some (f m))).Carries a b f (m + 1) p K' J := by
  have hplace := h.written
  obtain ⟨outer, inner, filled, hwrite, houter, hinner, hmoves⟩ :=
    write_some h.writeOuter_lt h.writeInner_lt (f m)
  rw [hwrite]
  rcases hmoves with ⟨hstays, hnext⟩ | ⟨rfl, rfl, rfl, hrow, hcol⟩
  · have hgoes : (K * a + outer) * b + inner = m + 1 := by
      rw [hplace, Nat.add_mul, Nat.add_mul, Nat.add_assoc, hnext]
      ring
    exact ⟨K, h.writeCell hread houter hinner hgoes (.inl ⟨hstays, rfl⟩)⟩
  · have hgoes : ((K + 1) * a + 0) * b + 0 = m + 1 := by
      rw [hplace, Nat.add_assoc _ s.writeInner, hcol, ← hrow]
      ring
    -- the last cell of a block is read last
    have hphase : s.active = false ∧ K + 1 = J + 1 := by
      rcases h.phase with ⟨-, hoff, hK⟩ | ⟨hyes, -, -⟩ | ⟨-, -, hK⟩
      · exact ⟨hoff, congrArg (· + 1) hK⟩
      · exact absurd (hfilled.symm.trans hyes) Bool.false_ne_true
      · have hlast := hread J (by omega)
        rw [radix_lt_iff h.writeOuter_lt h.readInner_lt,
          radix_lt_iff h.writeInner_lt h.readOuter_lt] at hlast
        have := h.readOuter_lt
        have := h.readInner_lt
        omega
    exact ⟨K + 1, h.writeCell hread houter hinner hgoes (.inr ⟨rfl, hphase⟩)⟩

end Carries

/-- In a cycle that writes no cell that is still to be read, the sequence goes on. -/
theorem Carries.next {a b : ℕ} {f : ℕ → α} {m p : ℕ} {s : Transposer α} {x : Option α}
    (h : ∃ K J, s.Carries a b f m p K J) (hx : ∀ v ∈ x, v = f m) (hclear : s.Clear a x) :
    ∃ K J, (s.next a b x).Carries a b f (m + x.isSome.toNat) (p + s.outValid.toNat) K J := by
  obtain ⟨K, J, h⟩ := h
  obtain ⟨J', hread, hmoves, hstays⟩ := h.read
  rw [next_eq_write_read s x fun hsome => (hclear hsome).1]
  cases x with
  | none => exact ⟨K, J', hread⟩
  | some v =>
    obtain ⟨hfilled, hbehind⟩ := hclear rfl
    have hpassed : ∀ k < K, (k * b + (s.read a b s).writeInner) * a + (s.read a b s).writeOuter <
        (J' * b + (s.read a b s).readOuter) * a + (s.read a b s).readInner := by
      intro k hk
      rw [read_writeInner, read_writeOuter]
      rcases h.phase with ⟨-, -, hK⟩ | ⟨hyes, -, -⟩ | ⟨-, hactive, hK⟩
      · -- every block before has been read
        have hrow : k * b + s.writeInner < J * b + s.readOuter :=
          radix_lt h.writeInner_lt (hK ▸ hk)
        have hplace := hread.taken
        rw [h.taken] at hplace
        exact (radix_lt h.writeOuter_lt hrow).trans_le (hplace ▸ Nat.le_add_right _ _)
      · exact absurd (hfilled.symm.trans hyes) Bool.false_ne_true
      · have hcol := hbehind hactive
        have hblock : k * (b * a) ≤ J * (b * a) := Nat.mul_le_mul_right _ (by omega)
        have hplace := hmoves hactive
        simp only [Nat.add_mul, Nat.mul_assoc] at hplace ⊢
        omega
    obtain ⟨K', hwrite⟩ := hread.write hpassed (hstays hfilled)
    rw [hx v rfl]
    exact ⟨K', J', hwrite⟩

theorem Carries.le {a b : ℕ} {f : ℕ → α} {m p K J : ℕ} {s : Transposer α}
    (h : s.Carries a b f m p K J) : p ≤ m / b / a * (b * a) := by
  have hblocks : (J * b + s.readOuter) * a + s.readInner ≤ K * (b * a) := by
    rcases h.phase with ⟨-, hoff, hK⟩ | ⟨-, hoff, hK⟩ | ⟨-, -, hK⟩
    · rw [(h.waits hoff).1, (h.waits hoff).2, hK, ← Nat.mul_assoc]
      exact le_rfl
    · rw [(h.waits hoff).1, (h.waits hoff).2, hK, ← Nat.mul_assoc]
      exact Nat.mul_le_mul_right a (Nat.mul_le_mul_right b (Nat.le_succ J))
    · have hcol : J * b + s.readOuter < (J + 1) * b + 0 :=
        radix_lt h.readOuter_lt (Nat.lt_succ_self J)
      have hplace : (J * b + s.readOuter) * a + s.readInner < ((J + 1) * b + 0) * a + 0 :=
        radix_lt h.readInner_lt hcol
      rw [hK, ← Nat.mul_assoc]
      exact Nat.le_of_lt hplace
  rw [h.written, radix_div h.writeInner_lt, radix_div h.writeOuter_lt]
  exact (Nat.le_add_right p _).trans (h.taken.trans_le hblocks)

theorem Carries.eq_of_idle {a b : ℕ} {f : ℕ → α} {m p K J : ℕ} {s : Transposer α}
    (h : s.Carries a b f m p K J) (hfilled : s.filled = false) (hactive : s.active = false)
    (hvalid : s.outValid = false) : p = m / b / a * (b * a) := by
  have hK : K = J := by
    rcases h.phase with ⟨-, -, hK⟩ | ⟨hyes, -, -⟩ | ⟨-, hyes, -⟩
    · exact hK
    · exact absurd (hfilled.symm.trans hyes) Bool.false_ne_true
    · exact absurd (hactive.symm.trans hyes) Bool.false_ne_true
  have htaken := h.taken
  rw [hvalid, (h.waits hactive).1, (h.waits hactive).2] at htaken
  rw [h.written, radix_div h.writeInner_lt, radix_div h.writeOuter_lt, hK, ← Nat.mul_assoc]
  exact htaken

/-- In the block that is read at least as many cells have been read as have been written over
since. -/
structure Paced (s : Transposer α) : Prop where
  writeOuter_lt : s.writeOuter < a
  writeInner_lt : s.writeInner < b
  readOuter_lt : s.readOuter < b
  readInner_lt : s.readInner < a
  full : s.filled = true → s.active = false ∧ s.writeOuter = 0 ∧ s.writeInner = 0
  waits : s.active = false → s.readOuter = 0 ∧ s.readInner = 0
  ahead : s.active = true → s.writeOuter * b + s.writeInner ≤ s.readOuter * a + s.readInner

namespace Paced
variable {a b} {s : Transposer α} {x : Option α}

theorem reset (ha : 0 < a) (hb : 0 < b) (s : Transposer α) : s.reset.Paced a b where
  writeOuter_lt := ha
  writeInner_lt := hb
  readOuter_lt := hb
  readInner_lt := ha
  full h := absurd h Bool.false_ne_true
  waits _ := ⟨rfl, rfl⟩
  ahead h := absurd h Bool.false_ne_true

theorem clear (h : s.Paced a b) (hone : a = 1 ∨ b = 1)
    (hx : x.isSome = true → s.filled = false) : s.Clear a x := by
  intro hsome
  refine ⟨hx hsome, fun hactive => ?_⟩
  have hahead := h.ahead hactive
  rcases hone with rfl | rfl
  · have hrow := Nat.lt_one_iff.mp h.writeOuter_lt
    rw [hrow, Nat.zero_mul, Nat.zero_add] at hahead
    rwa [hrow, Nat.mul_one]
  · have hcol := Nat.lt_one_iff.mp h.writeInner_lt
    rw [hcol, Nat.mul_one] at hahead
    rwa [hcol, Nat.zero_mul, Nat.zero_add]

theorem place_lt (h : s.Paced a b) : s.readOuter * a + s.readInner < b * a :=
  radix_lt (j := 0) h.readInner_lt h.readOuter_lt

/-- After the read side the write side is still behind. -/
theorem read (h : s.Paced a b) :
    (s.read a b s).Paced a b ∧ (s.read a b s).filled = false ∧
      (s.filled = false → (s.read a b s).active = true →
        s.writeOuter * b + s.writeInner <
          (s.read a b s).readOuter * a + (s.read a b s).readInner) := by
  by_cases hactive : s.active = true
  · have hfilled : s.filled = false := by
      by_contra hfull
      rw [Bool.not_eq_false] at hfull
      exact Bool.false_ne_true ((h.full hfull).1.symm.trans hactive)
    obtain ⟨outer, inner, active, hread, houter, hinner, hmoves⟩ :=
      read_of_active hactive h.readOuter_lt h.readInner_lt
    have hahead := h.ahead hactive
    have hbehind : active = true → s.writeOuter * b + s.writeInner < outer * a + inner := by
      rintro rfl
      rcases hmoves with ⟨-, hnext⟩ | ⟨hno, -⟩
      · omega
      · exact absurd hno.symm Bool.false_ne_true
    have hwaits : active = false → outer = 0 ∧ inner = 0 := by
      rintro rfl
      rcases hmoves with ⟨hno, -⟩ | ⟨-, hstart⟩
      · exact absurd hno Bool.false_ne_true
      · exact ⟨hstart.1, hstart.2.1⟩
    rw [hread]
    refine ⟨?_, hfilled, fun _ => hbehind⟩
    exact {
      h with
      readOuter_lt := houter
      readInner_lt := hinner
      full := fun hfull => absurd (hfilled.symm.trans hfull) Bool.false_ne_true
      waits := hwaits
      ahead := fun hmore => Nat.le_of_lt (hbehind hmore) }
  · have hoff : s.active = false := Bool.eq_false_iff.mpr hactive
    by_cases hfilled : s.filled = true
    · obtain ⟨-, hrow, hcol⟩ := h.full hfilled
      rw [read_of_filled hfilled hoff]
      refine ⟨?_, rfl, fun hno => absurd (hno.symm.trans hfilled) Bool.false_ne_true⟩
      exact {
        h with
        full := nofun
        waits := nofun
        ahead := fun _ => by rw [hrow, hcol, Nat.zero_mul]; exact Nat.zero_le _ }
    · rw [read_of_idle (Bool.eq_false_iff.mpr hfilled) hoff]
      refine ⟨{ h with }, Bool.eq_false_iff.mpr hfilled, fun _ hyes => absurd hyes hactive⟩

theorem write (h : s.Paced a b) (hfilled : s.filled = false)
    (hbehind : s.active = true →
      s.writeOuter * b + s.writeInner < s.readOuter * a + s.readInner) (v : α) :
    (s.write a b (some v)).Paced a b ∧ ((s.write a b (some v)).filled = true →
      s.writeInner + 1 = b ∧ s.writeOuter + 1 = a) := by
  obtain ⟨outer, inner, filled, hwrite, houter, hinner, hmoves⟩ :=
    write_some h.writeOuter_lt h.writeInner_lt v
  rw [hwrite]
  rcases hmoves with ⟨hstays, hnext⟩ | ⟨hfull, rfl, rfl, hrow, hcol⟩
  · have hnot : filled = true → False := fun hyes =>
      Bool.false_ne_true (hfilled.symm.trans (hstays.symm.trans hyes))
    refine ⟨?_, fun hyes => (hnot hyes).elim⟩
    exact {
      h with
      writeOuter_lt := houter
      writeInner_lt := hinner
      full := fun hyes => (hnot hyes).elim
      ahead := fun hactive => hnext.trans_le (hbehind hactive) }
  · have hoff : s.active = false := by
      by_contra hactive
      rw [Bool.not_eq_false] at hactive
      have hplace := hbehind hactive
      have hlast : s.writeOuter * b + s.writeInner + 1 = b * a := by
        rw [Nat.add_assoc, hcol, ← hrow]
        ring
      have := h.place_lt
      omega
    refine ⟨?_, fun _ => ⟨hcol, hrow⟩⟩
    exact {
      h with
      writeOuter_lt := houter
      writeInner_lt := hinner
      full := fun _ => ⟨hoff, rfl, rfl⟩
      ahead := fun hactive => absurd (hoff.symm.trans hactive) Bool.false_ne_true }

theorem next (h : s.Paced a b) (hx : x.isSome = true → s.filled = false) :
    (s.next a b x).Paced a b ∧ ((s.next a b x).filled = true →
      x.isSome = true ∧ s.writeInner + 1 = b ∧ s.writeOuter + 1 = a) := by
  obtain ⟨hread, hfilled, hbehind⟩ := h.read
  rw [next_eq_write_read s x hx]
  cases x with
  | none => exact ⟨hread, fun hyes => absurd (hfilled.symm.trans hyes) Bool.false_ne_true⟩
  | some v =>
    have hwrite := hread.write hfilled (by
      rw [read_writeOuter, read_writeInner]
      exact hbehind (hx rfl)) v
    rw [read_writeOuter, read_writeInner] at hwrite
    exact ⟨hwrite.1, fun hyes => ⟨rfl, hwrite.2 hyes⟩⟩

end Paced
section Counters
variable {α : Type*} (a b : ℕ) (s : Transposer α) (x : Option α)

theorem next_writeOuter :
    (s.next a b x).writeOuter = turned a s.writeOuter (x.isSome && s.writeInner + 1 == b) := by
  rw [next, read_writeOuter]
  cases x with
  | none => rfl
  | some v =>
    unfold write turned
    by_cases hwrap : s.writeInner + 1 = b
    · simp only [hwrap, if_true, Option.isSome_some, beq_self_eq_true, Bool.and_self]
      split_ifs <;> rfl
    · simp [hwrap]

theorem next_writeInner : (s.next a b x).writeInner = turned b s.writeInner x.isSome := by
  rw [writeInner_next]
  cases x with
  | none => rfl
  | some v =>
    unfold write turned
    by_cases hwrap : s.writeInner + 1 = b
    · simp only [hwrap, if_true, Option.isSome_some]
      split_ifs <;> rfl
    · simp [hwrap]

theorem write_readSide (s : Transposer α) (x : Option α) :
    (s.write a b x).active = s.active ∧ (s.write a b x).readOuter = s.readOuter ∧
      (s.write a b x).readInner = s.readInner := by
  cases x with
  | none => exact ⟨rfl, rfl, rfl⟩
  | some v =>
    unfold write
    split_ifs <;> exact ⟨rfl, rfl, rfl⟩

theorem next_readInner : (s.next a b x).readInner = turned a s.readInner s.active := by
  obtain ⟨-, -, hinner⟩ := write_readSide a b s x
  unfold next read turned
  cases s.active with
  | false =>
    simp only [Bool.false_eq_true, if_false]
    split_ifs <;> exact hinner
  | true =>
    simp only [Bool.not_true, Bool.and_false, Bool.false_eq_true, if_false, if_true]
    split_ifs <;> rfl

theorem next_readOuter :
    (s.next a b x).readOuter = turned b s.readOuter (s.active && s.readInner + 1 == a) := by
  obtain ⟨-, houter, -⟩ := write_readSide a b s x
  unfold next read turned
  cases s.active with
  | false =>
    simp only [Bool.false_and, Bool.false_eq_true, if_false]
    split_ifs <;> exact houter
  | true =>
    simp only [Bool.not_true, Bool.and_false, Bool.false_eq_true, if_false, if_true,
      Bool.true_and, beq_iff_eq]
    split_ifs <;> first | rfl | exact houter

end Counters

end Transposer
end Cirradio.Transposers
