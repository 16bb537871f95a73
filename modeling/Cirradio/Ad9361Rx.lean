import Cirradio.CallRuns
import Mathlib.Data.List.Forall2
import Mathlib.Tactic.Common

/-!
# Received samples

The receive side of `ad9361_if`: words of twelve bits come in turn for I and for Q, and a pair
of them goes through a FIFO between two clocks. The two words are 24 bits wide and the FIFO is
32, so that the pair lies at its low end, and neither half of what comes out is a sample.
-/

namespace Cirradio.Fpga
open CallRuns

universe u

/-- `xpm_fifo_async` with first-word fall-through. What it does is given by the words that it
holds. Its flags may lag behind, but never the other way. -/
structure XpmFifoAsync (Φ : Type u) where
  reset : Φ
  /-- An edge of the write clock, with the word if the write is enabled. -/
  write : Φ → Option (BitVec 32) → Φ
  /-- An edge of the read clock, with the read enable. -/
  read : Φ → Bool → Φ
  empty : Φ → Bool
  full : Φ → Bool
  dout : Φ → BitVec 32
  held : Φ → List (BitVec 32)
  held_reset : held reset = []
  held_write : ∀ s din, full s = false → held (write s din) = held s ++ din.toList
  held_read : ∀ s, empty s = false → held (read s true) = (held s).tail
  held_idle : ∀ s, held (read s false) = held s
  head_held : ∀ s, empty s = false → (held s).head? = some (dout s)

/-- Sixteen words, and how many of them the read side knows of. -/
structure SyncedWords where
  words : List (BitVec 32)
  sync1 : ℕ
  sync2 : ℕ
  deriving DecidableEq, Repr

/-- A FIFO whose count of words reaches the read side through two registers. -/
def syncedFifo : XpmFifoAsync SyncedWords where
  reset := ⟨[], 0, 0⟩
  write s din := { s with words := s.words ++ din.toList }
  read s en :=
    let words := if en then s.words.tail else s.words
    ⟨words, words.length, s.sync1 - en.toNat⟩
  empty s := s.sync2 == 0 || s.words.isEmpty
  full s := decide (16 ≤ s.words.length)
  dout s := s.words.headD 0
  held s := s.words
  held_reset := rfl
  held_write _ _ _ := rfl
  held_read _ _ := rfl
  held_idle _ := rfl
  head_held s h := by
    obtain ⟨words, sync1, sync2⟩ := s
    cases words with
    | nil => exact absurd h (by simp)
    | cons w words => rfl

variable {Φ : Type u} (F : XpmFifoAsync Φ)

/-- The registers of the demultiplexer, and the FIFO. -/
structure Ad9361Rx (Φ : Type u) where
  iSample : BitVec 12
  qSample : BitVec 12
  sampleValid : Bool
  fifo : Φ

/-- An edge of one of the two clocks, with what is then on the inputs. -/
inductive RxEdge where
  | clkDiv (rxFrameRise : Bool) (p0DRise p0DFall : BitVec 6)
  | fabric (tready : Bool)
  deriving DecidableEq, Repr

/-- The two words of a pair next to each other. -/
def packed (i q : BitVec 12) : BitVec 32 := (i ++ q).setWidth 32

namespace Ad9361Rx

def reset : Ad9361Rx Φ where
  iSample := 0
  qSample := 0
  sampleValid := false
  fifo := F.reset

/-- What is written into the FIFO at the next edge of its clock. -/
def din (s : Ad9361Rx Φ) : Option (BitVec 32) :=
  if s.sampleValid then some (packed s.iSample s.qSample) else none

def tvalid (s : Ad9361Rx Φ) : Bool := !F.empty s.fifo

def next (s : Ad9361Rx Φ) : RxEdge → Ad9361Rx Φ
  | .clkDiv rxFrameRise p0DRise p0DFall =>
    let rawSample := p0DRise ++ p0DFall
    let fifo := F.write s.fifo s.din
    if rxFrameRise then { s with iSample := rawSample, sampleValid := false, fifo }
    else { s with qSample := rawSample, sampleValid := true, fifo }
  | .fabric tready => { s with fifo := F.read s.fifo (tready && s.tvalid F) }

def step (s : Ad9361Rx Φ) (e : RxEdge) : Ad9361Rx Φ × Unit := (s.next F e, ())

/-- The word that is taken at an edge. -/
def taken (s : Ad9361Rx Φ) : RxEdge → List (BitVec 32)
  | .clkDiv .. => []
  | .fabric tready => if tready && s.tvalid F then [F.dout s.fifo] else []

/-- The words delivered in a run from reset. -/
def delivered (es : List RxEdge) : List (BitVec 32) := events (step F) (taken F) (reset F) es

/-- The words that wait, in the FIFO and before it. -/
def waiting (s : Ad9361Rx Φ) : List (BitVec 32) := F.held s.fifo ++ s.din.toList

end Ad9361Rx

/-- An edge that brings a word of twelve bits. -/
def wordEdge (rxFrameRise : Bool) (word : BitVec 12) : RxEdge :=
  .clkDiv rxFrameRise (word.extractLsb' 6 6) (word.extractLsb' 0 6)

/-- The edges bring the pairs, first I and then Q, and after them perhaps the I of the next
pair. Edges of the fabric clock come at any time. -/
inductive Presents : List RxEdge → List (BitVec 12 × BitVec 12) → Option (BitVec 12) → Prop where
  | nil : Presents [] [] none
  | fabric {es pairs begun} (tready : Bool) (h : Presents es pairs begun) :
    Presents (es ++ [.fabric tready]) pairs begun
  | iWord {es pairs} (i : BitVec 12) (h : Presents es pairs none) :
    Presents (es ++ [wordEdge true i]) pairs (some i)
  | qWord {es pairs i} (q : BitVec 12) (h : Presents es pairs (some i)) :
    Presents (es ++ [wordEdge false q]) (pairs ++ [(i, q)]) none

/-- The two halves of a word are the samples, with their signs. -/
def Intact (word : BitVec 32) (pair : BitVec 12 × BitVec 12) : Prop :=
  word.extractLsb' 16 16 = pair.1.signExtend 16 ∧ word.extractLsb' 0 16 = pair.2.signExtend 16

theorem msb_eq_false_iff_lt (x : BitVec 12) : x.msb = false ↔ x.toNat < 2048 := by
  rw [BitVec.msb_eq_false_iff_two_mul_lt]
  omega

theorem toNat_signExtend_twelve (x : BitVec 12) :
    (x.signExtend 16).toNat = if x.toNat < 2048 then x.toNat else x.toNat + 61440 := by
  have hx := x.isLt
  have hsmall : x.toNat % 2 ^ 16 = x.toNat := Nat.mod_eq_of_lt (by omega)
  rw [BitVec.toNat_signExtend, BitVec.toNat_setWidth, hsmall]
  simp only [← msb_eq_false_iff_lt]
  cases x.msb <;> rfl

theorem toNat_packed (i q : BitVec 12) : (packed i q).toNat = i.toNat * 4096 + q.toNat := by
  have happend : (i ++ q).toNat = i.toNat * 4096 + q.toNat := by
    rw [BitVec.toNat_append, ← Nat.shiftLeft_add_eq_or_of_lt q.isLt, Nat.shiftLeft_eq]
  have hi := i.isLt
  have hq := q.isLt
  rw [packed, BitVec.toNat_setWidth, happend]
  exact Nat.mod_eq_of_lt (by omega)

theorem high_packed (i q : BitVec 12) :
    ((packed i q).extractLsb' 16 16).toNat = i.toNat / 16 := by
  have hi := i.isLt
  have hq := q.isLt
  rw [BitVec.extractLsb'_toNat, toNat_packed, Nat.shiftRight_eq_div_pow]
  omega

theorem low_packed (i q : BitVec 12) :
    ((packed i q).extractLsb' 0 16).toNat = i.toNat % 16 * 4096 + q.toNat := by
  have hq := q.isLt
  rw [BitVec.extractLsb'_toNat, toNat_packed, Nat.shiftRight_eq_div_pow, Nat.pow_zero, Nat.div_one]
  omega

theorem intact_packed_iff (i q : BitVec 12) :
    Intact (packed i q) (i, q) ↔ i = 0 ∧ q.msb = false := by
  have hi := i.isLt
  have hq := q.isLt
  have hzero : i = 0 ↔ i.toNat = 0 := by
    rw [← BitVec.toNat_inj]
    rfl
  unfold Intact
  rw [← BitVec.toNat_inj, ← BitVec.toNat_inj, high_packed, low_packed, toNat_signExtend_twelve,
    toNat_signExtend_twelve, hzero, msb_eq_false_iff_lt]
  dsimp only
  split_ifs <;> omega

namespace Ad9361Rx
variable {F}

/-- The FIFO is never full in the run. -/
def NeverFull (F : XpmFifoAsync Φ) (es : List RxEdge) : Prop :=
  EveryState (step F) (reset F) (fun s => F.full s.fifo = false) es

theorem extractLsb'_append_twelve (word : BitVec 12) :
    word.extractLsb' 6 6 ++ word.extractLsb' 0 6 = word :=
  BitVec.extractLsb'_append_extractLsb'

theorem next_iWord (s : Ad9361Rx Φ) (i : BitVec 12) :
    s.next F (wordEdge true i) =
      { s with iSample := i, sampleValid := false, fifo := F.write s.fifo s.din } := by
  unfold next wordEdge
  simp only [extractLsb'_append_twelve, if_true]

theorem next_qWord (s : Ad9361Rx Φ) (q : BitVec 12) :
    s.next F (wordEdge false q) =
      { s with qSample := q, sampleValid := true, fifo := F.write s.fifo s.din } := by
  unfold next wordEdge
  simp only [extractLsb'_append_twelve, Bool.false_eq_true, if_false]

theorem waiting_fabric (s : Ad9361Rx Φ) (tready : Bool) :
    s.taken F (.fabric tready) ++ (s.next F (.fabric tready)).waiting F = s.waiting F := by
  change (if tready && s.tvalid F then [F.dout s.fifo] else []) ++
    (F.held (F.read s.fifo (tready && s.tvalid F)) ++ s.din.toList) = _
  rw [waiting, ← List.append_assoc]
  congr 1
  cases htake : tready && s.tvalid F with
  | false => exact F.held_idle _
  | true =>
    have hvalid : F.empty s.fifo = false := by
      rw [Bool.and_eq_true, tvalid, Bool.not_eq_true'] at htake
      exact htake.2
    rw [if_pos rfl, F.held_read _ hvalid]
    exact List.cons_head?_tail (F.head_held _ hvalid)

/-- What has waited before the FIFO is in it behind an edge of the write clock. -/
theorem waiting_iWord (s : Ad9361Rx Φ) (i : BitVec 12) (hfull : F.full s.fifo = false) :
    (s.next F (wordEdge true i)).waiting F = s.waiting F := by
  rw [next_iWord]
  exact (List.append_nil _).trans (F.held_write _ _ hfull)

theorem waiting_qWord (s : Ad9361Rx Φ) (q : BitVec 12) (hfull : F.full s.fifo = false) :
    (s.next F (wordEdge false q)).waiting F = s.waiting F ++ [packed s.iSample q] := by
  rw [next_qWord]
  exact congrArg (· ++ [packed s.iSample q]) (F.held_write _ _ hfull)

section Run
variable {es : List RxEdge} {pairs : List (BitVec 12 × BitVec 12)} {begun : Option (BitVec 12)}

theorem delivered_concat (es : List RxEdge) (e : RxEdge) :
    delivered F (es ++ [e]) = delivered F es ++ (after (step F) (reset F) es).taken F e :=
  events_concat ..

theorem after_step_concat (es : List RxEdge) (e : RxEdge) :
    after (step F) (reset F) (es ++ [e]) = (after (step F) (reset F) es).next F e :=
  after_concat ..

theorem iSample_of_presents (hes : Presents es pairs begun) :
    ∀ i ∈ begun, (after (step F) (reset F) es).iSample = i := by
  induction hes with
  | nil => exact nofun
  | fabric tready _ ih =>
    rw [after_step_concat]
    exact ih
  | iWord i _ ih =>
    rintro _ ⟨⟩
    rw [after_step_concat, next_iWord]
  | qWord q _ ih => exact nofun

/-- The pairs of a run, packed, have been delivered or wait, in their order. -/
theorem delivered_append_waiting (hes : Presents es pairs begun) (hfull : NeverFull F es) :
    delivered F es ++ (after (step F) (reset F) es).waiting F =
      pairs.map fun pair => packed pair.1 pair.2 := by
  induction hes with
  | nil =>
    change F.held F.reset ++ [] = []
    rw [F.held_reset, List.append_nil]
  | fabric tready _ ih =>
    have hwords := ih ((everyState_concat ..).mp hfull).1
    rw [delivered_concat, after_step_concat, List.append_assoc, waiting_fabric]
    exact hwords
  | @iWord es pairs i _ ih =>
    obtain ⟨hbefore, -⟩ := (everyState_concat ..).mp hfull
    have hspace := hbefore es.length
    rw [List.take_length] at hspace
    rw [delivered_concat, after_step_concat, waiting_iWord _ _ hspace]
    exact (congrArg (· ++ _) (List.append_nil _)).trans (ih hbefore)
  | @qWord es pairs i q hes ih =>
    obtain ⟨hbefore, -⟩ := (everyState_concat ..).mp hfull
    have hspace := hbefore es.length
    rw [List.take_length] at hspace
    have hi := iSample_of_presents (F := F) hes i rfl
    rw [delivered_concat, after_step_concat, waiting_qWord _ _ hspace, hi, List.map_append,
      ← ih hbefore, List.append_assoc, List.append_assoc]
    rfl

/-- The delivered words are one for each pair, in their order, and carry the samples of the
pairs. Where nothing waits, they are all. -/
def DeliversIntact (F : XpmFifoAsync Φ) (es : List RxEdge)
    (pairs : List (BitVec 12 × BitVec 12)) : Prop :=
  List.Forall₂ Intact (delivered F es) (pairs.take (delivered F es).length) ∧
    ((after (step F) (reset F) es).waiting F = [] → (delivered F es).length = pairs.length)

/-- The samples get through exactly if, of the pairs that are delivered, every I is zero and no Q
is negative. -/
theorem deliversIntact_iff (hes : Presents es pairs begun) (hfull : NeverFull F es) :
    DeliversIntact F es pairs ↔
      ∀ pair ∈ pairs.take (delivered F es).length, pair.1 = 0 ∧ pair.2.msb = false := by
  have hall := delivered_append_waiting hes hfull
  have hwords : delivered F es =
      (pairs.take (delivered F es).length).map fun pair => packed pair.1 pair.2 := by
    rw [List.map_take, ← hall, List.take_left]
  have hcount : (after (step F) (reset F) es).waiting F = [] →
      (delivered F es).length = pairs.length := by
    intro hnone
    have hlen := congrArg List.length hall
    rwa [hnone, List.append_nil, List.length_map] at hlen
  have hpairs : List.Forall₂ Intact (delivered F es) (pairs.take (delivered F es).length) ↔
      ∀ pair ∈ pairs.take (delivered F es).length, Intact (packed pair.1 pair.2) pair := by
    generalize (delivered F es).length = n at hwords ⊢
    rw [hwords, List.forall₂_map_left_iff, List.forall₂_same]
  rw [DeliversIntact, and_iff_left hcount, hpairs]
  exact forall₂_congr fun pair _ => intact_packed_iff pair.1 pair.2

end Run

/-- A pair is presented, and taken as soon as the FIFO shows it. -/
def onePair (i q : BitVec 12) : List RxEdge :=
  [wordEdge true i, wordEdge false q, wordEdge true i, .fabric true, .fabric true, .fabric true]

theorem presents_onePair (i q : BitVec 12) : Presents (onePair i q) [(i, q)] (some i) :=
  .fabric true (.fabric true (.fabric true (.iWord i (.qWord q (.iWord i .nil)))))

theorem neverFull_onePair (i q : BitVec 12) : NeverFull syncedFifo (onePair i q) := by
  rintro (_ | _ | _ | _ | _ | _ | n)
  · rfl
  · rfl
  · rfl
  · rfl
  · rfl
  · rfl
  · have hall : (onePair i q).take (n + 6) = onePair i q :=
      List.take_of_length_le (Nat.le_add_left 6 n)
    rw [hall]
    rfl

/-- A positive Q with an I of zero is delivered as it is. -/
theorem deliversIntact_positive : DeliversIntact syncedFifo (onePair 0 0x123) [(0, 0x123)] := by
  refine (deliversIntact_iff (presents_onePair 0 0x123) (neverFull_onePair 0 0x123)).mpr ?_
  intro pair hpair
  cases List.mem_singleton.mp (List.mem_of_mem_take hpair)
  exact ⟨rfl, by decide⟩

/-- Samples are delivered intact whatever they are. -/
def AlwaysIntact : Prop :=
  ∀ (Φ : Type) (F : XpmFifoAsync Φ) (es : List RxEdge) (pairs : List (BitVec 12 × BitVec 12))
    (begun : Option (BitVec 12)), Presents es pairs begun → NeverFull F es →
    DeliversIntact F es pairs

/-- For the pair (0xABC, 0x123) the word 0x00ABC123 is delivered. -/
theorem not_alwaysIntact : ¬ AlwaysIntact := by
  intro h
  obtain ⟨hintact, -⟩ := h _ syncedFifo _ _ _ (presents_onePair 0xABC 0x123)
    (neverFull_onePair 0xABC 0x123)
  have hword : delivered syncedFifo (onePair 0xABC 0x123) = [0x00ABC123] := by decide +kernel
  rw [hword] at hintact
  obtain ⟨⟨hhigh, -⟩, -⟩ := List.forall₂_cons.mp hintact
  exact absurd hhigh (by decide)

end Ad9361Rx

end Cirradio.Fpga
