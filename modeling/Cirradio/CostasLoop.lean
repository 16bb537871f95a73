import Cirradio.CallRuns
import Cirradio.Modem
import Mathlib.Data.BitVec
import Mathlib.Tactic.Ring

/-!
# Carrier recovery

The carrier loop of the receive path turns the samples by a phase that it corrects with every
symbol. The constants of its phase detector are unsigned, so that the samples are taken as
unsigned too, and a symbol with I and Q of opposite signs is off by a quarter turn even if it is
exact. What the loop does to exact symbols is given by the quarter turns.
-/

namespace Cirradio.Fpga
open CallRuns

structure CostasLoop where
  costasI : BitVec 16
  costasQ : BitVec 16
  costasValid : Bool
  pllPhase : BitVec 16
  pllFreq : BitVec 32
  deriving DecidableEq, Repr

/-- The strobe of the timing recovery, and the samples of the matched filters. -/
structure CostasIn where
  tedStrobe : Bool
  mfI : BitVec 16
  mfQ : BitVec 16
  deriving DecidableEq, Repr

namespace CostasLoop

def k1 : BitVec 32 := 655

def k2 : BitVec 32 := 66

def reset : CostasLoop where
  costasI := 0
  costasQ := 0
  costasValid := false
  pllPhase := 0
  pllFreq := 0

/-- The rotation, by half a turn or not at all. -/
def rot (s : CostasLoop) (sample : BitVec 16) : BitVec 16 :=
  if s.pllPhase.msb then -sample else sample

/-- The decision about the other sample. -/
def decision (sample : BitVec 16) : BitVec 32 := if sample.msb then -0x4000 else 0x4000

/-- With an unsigned operand all are unsigned, and samples are extended with zeros. -/
def phaseErr (rotI rotQ : BitVec 16) : BitVec 32 :=
  rotI.setWidth 32 * decision rotQ - rotQ.setWidth 32 * decision rotI

def next (s : CostasLoop) (x : CostasIn) : CostasLoop :=
  if x.tedStrobe then
    let rotI := s.rot x.mfI
    let rotQ := s.rot x.mfQ
    let err := ((phaseErr rotI rotQ).extractLsb' 16 16).setWidth 32
    { costasI := rotI
      costasQ := rotQ
      costasValid := true
      pllPhase := (s.pllPhase.setWidth 32 + (s.pllFreq.setWidth 16).setWidth 32 +
        k1 * err).setWidth 16
      pllFreq := s.pllFreq + k2 * err }
  else { s with costasValid := false }

def step (s : CostasLoop) (x : CostasIn) : CostasLoop × Unit := (s.next x, ())

/-- The hard slicer. -/
def bit (s : CostasLoop) : Option Bool :=
  if s.costasValid then some (slicerBit (s.costasI.msb, s.costasQ.msb)) else none

/-- The bits of the slicer in a run from reset. -/
def sliced (xs : List CostasIn) : List Bool :=
  events step (fun s x => (s.next x).bit.toList) reset xs

end CostasLoop

/-- A sample of an amplitude. -/
def sampleOf (amplitude : BitVec 16) (negative : Bool) : BitVec 16 :=
  if negative then -amplitude else amplitude

/-- The strobes bring symbols with their signs, of one amplitude in I and Q. -/
inductive Exact : List CostasIn → List (Bool × Bool) → Prop where
  | nil : Exact [] []
  | wait {xs symbols} (mfI mfQ : BitVec 16) (h : Exact xs symbols) :
    Exact (xs ++ [⟨false, mfI, mfQ⟩]) symbols
  | symbol {xs symbols} (amplitude : BitVec 16) (hpos : 0 < amplitude)
    (hlow : amplitude.msb = false) (symbol : Bool × Bool) (h : Exact xs symbols) :
    Exact (xs ++ [⟨true, sampleOf amplitude symbol.1, sampleOf amplitude symbol.2⟩])
      (symbols ++ [symbol])

/-- The phase in quarter turns, and whether the frequency adds half a turn to every symbol. -/
structure Turn where
  quarters : BitVec 2
  drifts : Bool
  deriving DecidableEq, Repr

namespace Turn

/-- Beyond half a turn the symbols come out turned round. -/
def flips (t : Turn) : Bool := decide (2 ≤ t.quarters)

/-- A symbol of opposite signs adds a quarter turn forwards or backwards, and half a turn to
the drift. -/
def next (t : Turn) (symbol : Bool × Bool) : Turn :=
  let drifted := if t.drifts then t.quarters + 2 else t.quarters
  match symbol.1 ^^ t.flips, symbol.2 ^^ t.flips with
  | false, true => ⟨drifted + 1, !t.drifts⟩
  | true, false => ⟨drifted + 3, !t.drifts⟩
  | _, _ => ⟨drifted, t.drifts⟩

def step (t : Turn) (symbol : Bool × Bool) : Turn × Bool := (t.next symbol, symbol.1 ^^ t.flips)

def start : Turn := ⟨0, false⟩

end Turn

namespace CostasLoop

/-- The loop has turned so far. -/
structure TurnedBy (s : CostasLoop) (t : Turn) : Prop where
  phase : s.pllPhase = BitVec.ofNat 16 (16384 * t.quarters.toNat)
  freq : s.pllFreq.setWidth 16 = if t.drifts then 0x8000 else 0

theorem TurnedBy.msb {s : CostasLoop} {t : Turn} (h : s.TurnedBy t) :
    s.pllPhase.msb = t.flips := by
  rw [h.phase, Turn.flips]
  generalize t.quarters = quarters
  revert quarters
  decide

theorem toNat_neg_sample {amplitude : BitVec 16} (hpos : 0 < amplitude) :
    (-amplitude).toNat = 65536 - amplitude.toNat := by
  have hlt := amplitude.isLt
  have hnat : 0 < amplitude.toNat := hpos
  rw [BitVec.toNat_neg]
  omega

theorem msb_sampleOf {amplitude : BitVec 16} (hpos : 0 < amplitude)
    (hlow : amplitude.msb = false) (negative : Bool) :
    (sampleOf amplitude negative).msb = negative := by
  cases negative with
  | false => exact hlow
  | true =>
    have hsmall := BitVec.msb_eq_false_iff_two_mul_lt.mp hlow
    change (-amplitude).msb = true
    rw [BitVec.msb_eq_true_iff_two_mul_ge, toNat_neg_sample hpos]
    omega

theorem rot_sampleOf {s : CostasLoop} {t : Turn} (h : s.TurnedBy t) (amplitude : BitVec 16)
    (negative : Bool) :
    s.rot (sampleOf amplitude negative) = sampleOf amplitude (negative ^^ t.flips) := by
  rw [rot, h.msb]
  cases t.flips with
  | false => rw [Bool.xor_false, if_neg Bool.false_ne_true]
  | true =>
    rw [Bool.xor_true, if_pos rfl]
    cases negative with
    | false => rfl
    | true => exact BitVec.neg_neg

theorem setWidth_neg_add {amplitude : BitVec 16} (hpos : 0 < amplitude) :
    (-amplitude).setWidth 32 + amplitude.setWidth 32 = 0x10000 := by
  have hlt := amplitude.isLt
  have hneg := toNat_neg_sample hpos
  apply BitVec.eq_of_toNat_eq
  rw [BitVec.toNat_add, BitVec.toNat_setWidth, BitVec.toNat_setWidth, hneg]
  change _ = 65536
  omega

/-- How far off an exact symbol is found. -/
def exactErr : Bool → Bool → BitVec 32
  | false, true => 0xC0000000
  | true, false => 0x40000000
  | _, _ => 0

theorem phaseErr_sampleOf {amplitude : BitVec 16} (hpos : 0 < amplitude)
    (hlow : amplitude.msb = false) (i q : Bool) :
    phaseErr (sampleOf amplitude i) (sampleOf amplitude q) = exactErr i q := by
  have hcarry := setWidth_neg_add hpos
  have hmsb := msb_sampleOf hpos hlow
  rw [phaseErr, decision, decision, hmsb, hmsb]
  cases i with
  | false =>
    cases q with
    | false => exact BitVec.sub_self _
    | true =>
      calc amplitude.setWidth 32 * -0x4000 - (-amplitude).setWidth 32 * 0x4000
        _ = -(((-amplitude).setWidth 32 + amplitude.setWidth 32) * 0x4000) := by ring
        _ = 0xC0000000 := by rw [hcarry]; rfl
  | true =>
    cases q with
    | false =>
      calc (-amplitude).setWidth 32 * 0x4000 - amplitude.setWidth 32 * -0x4000
        _ = ((-amplitude).setWidth 32 + amplitude.setWidth 32) * 0x4000 := by ring
        _ = 0x40000000 := by rw [hcarry]; rfl
    | true => exact BitVec.sub_self _

theorem phase_next (t : Turn) (symbol : Bool × Bool) :
    ((BitVec.ofNat 16 (16384 * t.quarters.toNat)).setWidth 32 +
      (if t.drifts then 0x8000 else 0 : BitVec 16).setWidth 32 +
      k1 * ((exactErr (symbol.1 ^^ t.flips) (symbol.2 ^^ t.flips)).extractLsb' 16 16).setWidth
        32).setWidth 16 = BitVec.ofNat 16 (16384 * (t.next symbol).quarters.toNat) := by
  obtain ⟨i, q⟩ := symbol
  obtain ⟨quarters, drifts⟩ := t
  revert i q quarters drifts
  decide

theorem freq_next (t : Turn) (symbol : Bool × Bool) :
    (if t.drifts then 0x8000 else 0 : BitVec 16) +
      (k2 * ((exactErr (symbol.1 ^^ t.flips) (symbol.2 ^^ t.flips)).extractLsb' 16 16).setWidth
        32).setWidth 16 = if (t.next symbol).drifts then 0x8000 else 0 := by
  obtain ⟨i, q⟩ := symbol
  obtain ⟨quarters, drifts⟩ := t
  revert i q quarters drifts
  decide

theorem TurnedBy.next {s : CostasLoop} {t : Turn} (h : s.TurnedBy t) {amplitude : BitVec 16}
    (hpos : 0 < amplitude) (hlow : amplitude.msb = false) (symbol : Bool × Bool) :
    (s.next ⟨true, sampleOf amplitude symbol.1, sampleOf amplitude symbol.2⟩).TurnedBy
      (t.next symbol) := by
  have herr := phaseErr_sampleOf hpos hlow (symbol.1 ^^ t.flips) (symbol.2 ^^ t.flips)
  rw [← rot_sampleOf h, ← rot_sampleOf h] at herr
  constructor
  · change (s.pllPhase.setWidth 32 + (s.pllFreq.setWidth 16).setWidth 32 + k1 *
      ((phaseErr (s.rot _) (s.rot _)).extractLsb' 16 16).setWidth 32).setWidth 16 = _
    rw [herr, h.phase, h.freq, phase_next]
  · change (s.pllFreq + k2 *
      ((phaseErr (s.rot _) (s.rot _)).extractLsb' 16 16).setWidth 32).setWidth 16 = _
    rw [herr, BitVec.setWidth_add _ _ (by decide), h.freq, freq_next]

/-- Its bit is the sign of I, turned round if the loop has turned by half a turn. -/
theorem TurnedBy.bit_next {s : CostasLoop} {t : Turn} (h : s.TurnedBy t) {amplitude : BitVec 16}
    (hpos : 0 < amplitude) (hlow : amplitude.msb = false) (symbol : Bool × Bool) :
    (s.next ⟨true, sampleOf amplitude symbol.1, sampleOf amplitude symbol.2⟩).bit =
      some (symbol.1 ^^ t.flips) := by
  change some (s.rot (sampleOf amplitude symbol.1)).msb = _
  rw [rot_sampleOf h, msb_sampleOf hpos hlow]

/-- The signs of I as the loop turns them. -/
def turned (symbols : List (Bool × Bool)) : List Bool :=
  events Turn.step (fun t symbol => [symbol.1 ^^ t.flips]) .start symbols

theorem turnedBy_after {xs : List CostasIn} {symbols : List (Bool × Bool)}
    (h : Exact xs symbols) :
    (after step reset xs).TurnedBy (after Turn.step .start symbols) := by
  induction h with
  | nil => exact ⟨rfl, rfl⟩
  | wait mfI mfQ _ ih =>
    rw [after_concat]
    exact ⟨ih.phase, ih.freq⟩
  | symbol amplitude hpos hlow symbol _ ih =>
    rw [after_concat, after_concat]
    exact ih.next hpos hlow symbol

/-- Between the strobes the slicer gives no bit, and with a strobe it gives the turned sign. -/
theorem sliced_eq_turned {xs : List CostasIn} {symbols : List (Bool × Bool)}
    (h : Exact xs symbols) : sliced xs = turned symbols := by
  induction h with
  | nil => rfl
  | wait mfI mfQ _ ih =>
    rw [sliced, events_concat, ← sliced, ih]
    exact List.append_nil _
  | @symbol xs symbols amplitude hpos hlow symbol h ih =>
    have hbit := (turnedBy_after h).bit_next hpos hlow symbol
    rw [sliced, events_concat, ← sliced, ih, hbit, turned, turned, events_concat]
    rfl

/-- Behind equal signs the loop is where it was, and behind two symbols with I positive and Q
negative it is there again. The last symbol may be any. -/
def calm : List (Bool × Bool) → Bool
  | [] => true
  | [_] => true
  | (false, false) :: rest => calm rest
  | (true, true) :: rest => calm rest
  | (true, false) :: _ :: _ => false
  | [(false, true), _] => true
  | (false, true) :: second :: third :: rest =>
    second == (false, true) && calm (third :: rest)

theorem cons_ne_of_flips {t : Turn} (ht : t.flips = true) (symbol : Bool × Bool)
    (bits : List Bool) (symbols : List (Bool × Bool)) :
    (symbol.1 ^^ t.flips) :: bits ≠ (symbol :: symbols).map Prod.fst := by
  rw [ht, Bool.xor_true]
  intro h
  exact Bool.not_ne_self symbol.1 (List.cons.inj h).1

theorem turned_eq_iff_calm (symbols : List (Bool × Bool)) :
    turned symbols = symbols.map Prod.fst ↔ calm symbols := by
  fun_induction calm symbols with
  | case1 => exact iff_of_true rfl rfl
  | case2 symbol => exact iff_of_true (congrArg (fun bit => [bit]) (Bool.xor_false symbol.1)) rfl
  | case3 rest hrest ih =>
    rw [← ih]
    exact List.cons_inj_right false
  | case4 rest hrest ih =>
    rw [← ih]
    exact List.cons_inj_right true
  | case5 second rest =>
    refine iff_of_false (fun h => ?_) Bool.false_ne_true
    have hsecond := (List.cons.inj h).2
    exact cons_ne_of_flips (t := ⟨3, true⟩) rfl second _ _ hsecond
  | case6 second =>
    refine iff_of_true ?_ rfl
    exact congrArg (fun bit => [false, bit]) (Bool.xor_false second.1)
  | case7 second third rest ih =>
    have hthird : ∀ t : Turn, t.flips = true →
        events Turn.step (fun t symbol => [symbol.1 ^^ t.flips]) t (third :: rest) ≠
          (third :: rest).map Prod.fst := fun t ht => cons_ne_of_flips ht third _ _
    -- a second symbol that does not take the loop back turns it by half a turn
    obtain ⟨i, q⟩ := second
    cases i with
    | false =>
      cases q with
      | false => exact iff_of_false (fun h => hthird ⟨3, true⟩ rfl (List.cons.inj
          (List.cons.inj h).2).2) Bool.false_ne_true
      | true =>
        rw [Bool.and_eq_true, ← ih, and_iff_right (beq_self_eq_true _)]
        exact (List.cons_inj_right false).trans (List.cons_inj_right false)
    | true =>
      cases q with
      | false => exact iff_of_false (fun h => hthird ⟨2, false⟩ rfl (List.cons.inj
          (List.cons.inj h).2).2) Bool.false_ne_true
      | true => exact iff_of_false (fun h => hthird ⟨3, true⟩ rfl (List.cons.inj
          (List.cons.inj h).2).2) Bool.false_ne_true

/-- Of exact symbols, each with opposite signs turns the loop by a quarter, and starts or ends a
drift of half a turn a symbol. The bits that the slicer gives are the signs, turned round by the
loop, and they are the signs themselves exactly if the symbols are calm. -/
theorem sliced_exact {xs : List CostasIn} {symbols : List (Bool × Bool)} (h : Exact xs symbols) :
    (after step reset xs).TurnedBy (after Turn.step .start symbols) ∧
      sliced xs = turned symbols ∧ (sliced xs = symbols.map Prod.fst ↔ calm symbols) := by
  rw [sliced_eq_turned h]
  exact ⟨turnedBy_after h, rfl, turned_eq_iff_calm symbols⟩

/-- A strobed symbol of the mapper's amplitude. -/
def mapped (symbol : Bool × Bool) : CostasIn :=
  ⟨true, sampleOf Mapper.pos symbol.1, sampleOf Mapper.pos symbol.2⟩

/-- Of four symbols as the mapper sends them, the second and the fourth come out wrong. -/
theorem sliced_exact_mapped :
    sliced (List.map mapped [(true, false), (false, false), (true, true), (false, false)]) =
      [true, true, true, true] := by
  have hexact : Exact (List.map mapped [(true, false), (false, false), (true, true),
      (false, false)]) [(true, false), (false, false), (true, true), (false, false)] :=
    .symbol _ (by decide) rfl (false, false) (.symbol _ (by decide) rfl (true, true)
      (.symbol _ (by decide) rfl (false, false) (.symbol _ (by decide) rfl (true, false) .nil)))
  exact (sliced_exact hexact).2.1

end CostasLoop

end Cirradio.Fpga
