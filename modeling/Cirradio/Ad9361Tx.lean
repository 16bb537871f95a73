import Cirradio.Ad9361Rx

/-!
# Transmitted samples

The transmit side of `ad9361_if`: words come from the fabric through a FIFO between two clocks,
and each is sent to the chip in four beats of six bits, the first two with the frame line high.
The chip starts a sample where the frame line rises. Whatever the order of the edges of the two
clocks, the chip gets the samples that were accepted, each once and in their order.
-/

namespace Cirradio.Fpga
open CallRuns

universe u

/-- A FIFO in which an edge without a word changes nothing, be it full or not. -/
structure GuardedFifo (Φ : Type u) extends XpmFifoAsync Φ where
  held_unwritten : ∀ s, held (write s none) = held s

def guardedSyncedFifo : GuardedFifo SyncedWords where
  toXpmFifoAsync := syncedFifo
  held_unwritten _ := List.append_nil _

variable {Φ : Type u} (F : GuardedFifo Φ)

/-- The registers of the serialiser, and the FIFO. -/
structure Ad9361Tx (Φ : Type u) where
  txPhase : Fin 4
  txIReg : BitVec 12
  txQReg : BitVec 12
  txDataSer : BitVec 6
  txFrameSer : Bool
  txSampleActive : Bool
  fifo : Φ

/-- An edge of one of the two clocks, with what is then on the inputs. -/
inductive TxEdge where
  | fabric (tvalid : Bool) (tdata : BitVec 32)
  | clkDiv
  deriving DecidableEq, Repr

/-- The frame line and the six data lines between two edges. -/
abbrev Beat := Bool × BitVec 6

/-- The two samples that are sent of a word: the upper twelve bits of each half. -/
def samplesOf (word : BitVec 32) : BitVec 12 × BitVec 12 :=
  (word.extractLsb' 20 12, word.extractLsb' 4 12)

namespace Ad9361Tx

def reset : Ad9361Tx Φ where
  txPhase := 0
  txIReg := 0
  txQReg := 0
  txDataSer := 0
  txFrameSer := false
  txSampleActive := false
  fifo := F.reset

def tready (s : Ad9361Tx Φ) : Bool := !F.full s.fifo

def rdEn (s : Ad9361Tx Φ) : Bool := !F.empty s.fifo && s.txPhase == 0 && !s.txSampleActive

/-- The serialiser at an edge of its clock. -/
def serialise (s : Ad9361Tx Φ) : Ad9361Tx Φ :=
  match s.txPhase with
  | 0 =>
    if F.empty s.fifo then s
    else { s with
      txIReg := (F.dout s.fifo).extractLsb' 20 12
      txQReg := (F.dout s.fifo).extractLsb' 4 12
      txDataSer := (F.dout s.fifo).extractLsb' 26 6
      txFrameSer := true
      txSampleActive := true
      txPhase := 1 }
  | 1 => { s with txDataSer := s.txIReg.extractLsb' 0 6, txFrameSer := true, txPhase := 2 }
  | 2 => { s with txDataSer := s.txQReg.extractLsb' 6 6, txFrameSer := false, txPhase := 3 }
  | 3 => { s with
      txDataSer := s.txQReg.extractLsb' 0 6
      txFrameSer := false
      txSampleActive := false
      txPhase := 0 }

def next (s : Ad9361Tx Φ) : TxEdge → Ad9361Tx Φ
  | .fabric tvalid tdata =>
    { s with fifo := F.write s.fifo (if tvalid && s.tready F then some tdata else none) }
  | .clkDiv => { s.serialise F with fifo := F.read s.fifo (s.rdEn F) }

def step (s : Ad9361Tx Φ) (e : TxEdge) : Ad9361Tx Φ × Unit := (s.next F e, ())

/-- The word that is taken from the fabric at an edge. -/
def takes (s : Ad9361Tx Φ) : TxEdge → List (BitVec 32)
  | .fabric tvalid tdata => if tvalid && s.tready F then [tdata] else []
  | .clkDiv => []

/-- What the registers put on the lines. -/
def beat (s : Ad9361Tx Φ) : Beat := (s.txFrameSer, s.txDataSer)

/-- What is on the lines after an edge of their clock. -/
def lines (s : Ad9361Tx Φ) : TxEdge → List Beat
  | .fabric .. => []
  | .clkDiv => [(s.next F .clkDiv).beat]

/-- The words accepted in a run from reset. -/
def accepted (es : List TxEdge) : List (BitVec 32) := events (step F) (takes F) (reset F) es

/-- The beats sent in a run from reset. -/
def beats (es : List TxEdge) : List Beat := events (step F) (lines F) (reset F) es

/-- The sample that is being sent. -/
def loaded (s : Ad9361Tx Φ) : List (BitVec 12 × BitVec 12) :=
  if s.txPhase = 0 then [] else [(s.txIReg, s.txQReg)]

/-- The samples that wait in the FIFO, after the one that is being sent. -/
def unsent (s : Ad9361Tx Φ) : List (BitVec 12 × BitVec 12) :=
  s.loaded ++ (F.held s.fifo).map samplesOf

/-- An edge of the clock of the lines at which there is nothing to send. -/
def idles (s : Ad9361Tx Φ) : TxEdge → List Unit
  | .fabric .. => []
  | .clkDiv => if s.txPhase = 0 ∧ F.empty s.fifo then [()] else []

/-- The idle edges of a run from reset. -/
def idle (es : List TxEdge) : List Unit := events (step F) (idles F) (reset F) es

end Ad9361Tx

/-- How much of a sample has come. -/
inductive Begun where
  | none
  | iHigh (high : BitVec 6)
  | iWord (i : BitVec 12)
  | qHigh (i : BitVec 12) (high : BitVec 6)
  deriving DecidableEq, Repr

/-- A sample starts at the beat with which the frame line rises and has four beats. -/
structure Deframer where
  lastFrame : Bool
  begun : Begun
  deriving DecidableEq, Repr

namespace Deframer

def start : Deframer := ⟨false, .none⟩

def step (d : Deframer) (b : Beat) : Deframer × Option (BitVec 12 × BitVec 12) :=
  if b.1 && !d.lastFrame then (⟨b.1, .iHigh b.2⟩, none)
  else
    match d.begun with
    | .none => (⟨b.1, .none⟩, none)
    | .iHigh high => (⟨b.1, .iWord (high ++ b.2)⟩, none)
    | .iWord i => (⟨b.1, .qHigh i b.2⟩, none)
    | .qHigh i high => (⟨b.1, .none⟩, some (i, high ++ b.2))

/-- The samples that the chip gets of beats. -/
def samples (bs : List Beat) : List (BitVec 12 × BitVec 12) :=
  events step (fun d b => (d.step b).2.toList) start bs

end Deframer

namespace Ad9361Tx
variable {F}

section Phases
variable (i q : BitVec 12) (bits : BitVec 6) (frame active : Bool) (fifo : Φ)

theorem next_empty (hempty : F.empty fifo = true) :
    next F ⟨0, i, q, bits, frame, active, fifo⟩ .clkDiv =
      ⟨0, i, q, bits, frame, active, F.read fifo false⟩ := by
  simp [next, serialise, rdEn, hempty]

/-- With the flag that a sample is active down, the word that is loaded is read. -/
theorem next_shown (hshown : F.empty fifo = false) :
    next F ⟨0, i, q, bits, frame, false, fifo⟩ .clkDiv =
      ⟨1, (samplesOf (F.dout fifo)).1, (samplesOf (F.dout fifo)).2,
        (F.dout fifo).extractLsb' 26 6, true, true, F.read fifo true⟩ := by
  simp [next, serialise, rdEn, hshown, samplesOf]

theorem next_iHigh : next F ⟨1, i, q, bits, frame, active, fifo⟩ .clkDiv =
    ⟨2, i, q, i.extractLsb' 0 6, true, active, F.read fifo false⟩ := by
  simp [next, serialise, rdEn]

theorem next_iWord : next F ⟨2, i, q, bits, frame, active, fifo⟩ .clkDiv =
    ⟨3, i, q, q.extractLsb' 6 6, false, active, F.read fifo false⟩ := by
  simp [next, serialise, rdEn]

theorem next_qHigh : next F ⟨3, i, q, bits, frame, active, fifo⟩ .clkDiv =
    ⟨0, i, q, q.extractLsb' 0 6, false, false, F.read fifo false⟩ := by
  simp [next, serialise, rdEn]

end Phases

/-- What the chip has of the sample that is being sent. -/
inductive Follows : Ad9361Tx Φ → Deframer → Prop
  | waiting (i q bits fifo) : Follows ⟨0, i, q, bits, false, false, fifo⟩ ⟨false, .none⟩
  | iHigh (i q bits fifo) :
    Follows ⟨1, i, q, bits, true, true, fifo⟩ ⟨true, .iHigh (i.extractLsb' 6 6)⟩
  | iWord (i q bits fifo) : Follows ⟨2, i, q, bits, true, true, fifo⟩ ⟨true, .iWord i⟩
  | qHigh (i q bits fifo) :
    Follows ⟨3, i, q, bits, false, true, fifo⟩ ⟨false, .qHigh i (q.extractLsb' 6 6)⟩

theorem Follows.fabric {s : Ad9361Tx Φ} {d : Deframer} (h : Follows s d) (tvalid : Bool)
    (tdata : BitVec 32) : Follows (s.next F (.fabric tvalid tdata)) d := by
  cases h with
  | waiting i q bits fifo => exact .waiting ..
  | iHigh i q bits fifo => exact .iHigh ..
  | iWord i q bits fifo => exact .iWord ..
  | qHigh i q bits fifo => exact .qHigh ..

/-- A word goes into the FIFO exactly if it is taken from the fabric. -/
theorem unsent_fabric (s : Ad9361Tx Φ) (tvalid : Bool) (tdata : BitVec 32) :
    (s.next F (.fabric tvalid tdata)).unsent F =
      s.unsent F ++ (s.takes F (.fabric tvalid tdata)).map samplesOf := by
  change s.loaded ++
    (F.held (F.write s.fifo (if tvalid && s.tready F then some tdata else none))).map samplesOf =
      s.unsent F ++ (if tvalid && s.tready F then [tdata] else []).map samplesOf
  rw [unsent, List.append_assoc, ← List.map_append]
  congr 2
  cases htake : tvalid && s.tready F with
  | false => exact (F.held_unwritten _).trans (List.append_nil _).symm
  | true =>
    have hspace : F.full s.fifo = false := by
      rw [Bool.and_eq_true, tready, Bool.not_eq_true'] at htake
      exact htake.2
    exact F.held_write _ _ hspace

theorem high_append_low (x : BitVec 12) : x.extractLsb' 6 6 ++ x.extractLsb' 0 6 = x :=
  BitVec.extractLsb'_append_extractLsb'

theorem extractLsb'_samplesOf (word : BitVec 32) :
    (samplesOf word).1.extractLsb' 6 6 = word.extractLsb' 26 6 := by
  apply BitVec.eq_of_toNat_eq
  simp only [samplesOf, BitVec.extractLsb'_toNat, Nat.shiftRight_eq_div_pow]
  omega

/-- The beat of an edge takes the chip along, and what it gets with it was the sample that was
being sent. -/
theorem Follows.clkDiv {s : Ad9361Tx Φ} {d : Deframer} (h : Follows s d) :
    Follows (s.next F .clkDiv) (d.step (s.next F .clkDiv).beat).1 ∧
      s.unsent F = (d.step (s.next F .clkDiv).beat).2.toList ++ (s.next F .clkDiv).unsent F := by
  cases h with
  | waiting i q bits fifo =>
    cases hempty : F.empty fifo with
    | true =>
      rw [next_empty _ _ _ _ _ _ hempty]
      refine ⟨.waiting .., ?_⟩
      simp [unsent, loaded, F.held_idle, Deframer.step, beat]
    | false =>
      rw [next_shown _ _ _ _ _ hempty]
      refine ⟨?_, ?_⟩
      · have hfirst := extractLsb'_samplesOf (F.dout fifo)
        rw [← hfirst]
        exact .iHigh ..
      · have hheld := List.cons_head?_tail (F.head_held _ hempty)
        change (F.held fifo).map samplesOf =
          samplesOf (F.dout fifo) :: (F.held (F.read fifo true)).map samplesOf
        rw [F.held_read _ hempty, ← List.map_cons, hheld]
  | iHigh i q bits fifo =>
    rw [next_iHigh]
    refine ⟨?_, ?_⟩
    · change Follows _ ⟨true, .iWord (i.extractLsb' 6 6 ++ i.extractLsb' 0 6)⟩
      rw [high_append_low]
      exact .iWord ..
    · simp [unsent, loaded, F.held_idle, Deframer.step, beat]
  | iWord i q bits fifo =>
    rw [next_iWord]
    refine ⟨.qHigh .., ?_⟩
    simp [unsent, loaded, F.held_idle, Deframer.step, beat]
  | qHigh i q bits fifo =>
    rw [next_qHigh]
    refine ⟨.waiting .., ?_⟩
    simp [unsent, loaded, F.held_idle, Deframer.step, beat, high_append_low]

/-- Four edges of the clock of the lines to a sample, and an idle edge where nothing has come. -/
theorem Follows.phase_clkDiv {s : Ad9361Tx Φ} {d : Deframer} (h : Follows s d) :
    s.txPhase.val + 1 = 4 * (d.step (s.next F .clkDiv).beat).2.toList.length +
      (s.next F .clkDiv).txPhase.val + (s.idles F .clkDiv).length := by
  cases h with
  | waiting i q bits fifo =>
    cases hempty : F.empty fifo with
    | true =>
      rw [next_empty _ _ _ _ _ _ hempty]
      simp [idles, hempty, Deframer.step, beat]
    | false =>
      rw [next_shown _ _ _ _ _ hempty]
      simp [idles, hempty, Deframer.step, beat]
  | iHigh i q bits fifo =>
    rw [next_iHigh]
    rfl
  | iWord i q bits fifo =>
    rw [next_iWord]
    rfl
  | qHigh i q bits fifo =>
    rw [next_qHigh]
    rfl

/-- The chip after the beats of a run. -/
def chip (F : GuardedFifo Φ) (es : List TxEdge) : Deframer :=
  after Deframer.step Deframer.start (beats F es)

/-- The samples that the chip has got in a run from reset. -/
def sent (F : GuardedFifo Φ) (es : List TxEdge) : List (BitVec 12 × BitVec 12) :=
  Deframer.samples (beats F es)

theorem after_step_concat (es : List TxEdge) (e : TxEdge) :
    after (step F) (reset F) (es ++ [e]) = (after (step F) (reset F) es).next F e :=
  after_concat ..

theorem accepted_concat (es : List TxEdge) (e : TxEdge) :
    accepted F (es ++ [e]) = accepted F es ++ (after (step F) (reset F) es).takes F e :=
  events_concat ..

theorem beats_fabric (es : List TxEdge) (tvalid : Bool) (tdata : BitVec 32) :
    beats F (es ++ [.fabric tvalid tdata]) = beats F es :=
  (events_concat ..).trans (List.append_nil _)

theorem beats_clkDiv (es : List TxEdge) :
    beats F (es ++ [.clkDiv]) =
      beats F es ++ [((after (step F) (reset F) es).next F .clkDiv).beat] :=
  events_concat ..

theorem chip_clkDiv (es : List TxEdge) :
    chip F (es ++ [.clkDiv]) =
      ((chip F es).step ((after (step F) (reset F) es).next F .clkDiv).beat).1 := by
  rw [chip, beats_clkDiv, after_concat]
  rfl

theorem sent_clkDiv (es : List TxEdge) :
    sent F (es ++ [.clkDiv]) = sent F es ++
      ((chip F es).step ((after (step F) (reset F) es).next F .clkDiv).beat).2.toList := by
  rw [sent, Deframer.samples, beats_clkDiv, events_concat]
  rfl

theorem idle_concat (es : List TxEdge) (e : TxEdge) :
    idle F (es ++ [e]) = idle F es ++ (after (step F) (reset F) es).idles F e :=
  events_concat ..

theorem follows_chip (es : List TxEdge) : Follows (after (step F) (reset F) es) (chip F es) := by
  induction es using List.reverseRecOn with
  | nil => exact .waiting ..
  | append_singleton es e ih =>
    rw [after_step_concat]
    cases e with
    | fabric tvalid tdata =>
      rw [chip, beats_fabric]
      exact ih.fabric tvalid tdata
    | clkDiv =>
      rw [chip_clkDiv]
      exact ih.clkDiv.1

/-- What was accepted has been sent, is being sent or waits, in this order. -/
theorem sent_append_unsent (es : List TxEdge) :
    sent F es ++ (after (step F) (reset F) es).unsent F = (accepted F es).map samplesOf := by
  induction es using List.reverseRecOn with
  | nil =>
    change (F.held F.reset).map samplesOf = []
    rw [F.held_reset, List.map_nil]
  | append_singleton es e ih =>
    rw [after_step_concat, accepted_concat, List.map_append, ← ih]
    cases e with
    | fabric tvalid tdata =>
      rw [sent, beats_fabric, unsent_fabric, ← List.append_assoc]
      rfl
    | clkDiv =>
      rw [sent_clkDiv, List.append_assoc, ← (follows_chip es).clkDiv.2]
      exact (List.append_nil _).symm

/-- How many edges the clock of the lines has had. -/
def clockEdges (es : List TxEdge) : ℕ := es.count .clkDiv

/-- Every edge of the clock of the lines has carried a fourth of a sample or was idle. -/
theorem clockEdges_eq (es : List TxEdge) :
    clockEdges es = 4 * (sent F es).length + (after (step F) (reset F) es).txPhase.val +
      (idle F es).length := by
  induction es using List.reverseRecOn with
  | nil => rfl
  | append_singleton es e ih =>
    rw [after_step_concat, idle_concat, List.length_append]
    cases e with
    | fabric tvalid tdata =>
      rw [sent, beats_fabric, clockEdges, List.count_append]
      exact ih
    | clkDiv =>
      have hphase := (follows_chip (F := F) es).phase_clkDiv (F := F)
      rw [sent_clkDiv, List.length_append, clockEdges, List.count_append, List.count_singleton_self]
      rw [clockEdges] at ih
      omega

/-- Whatever the order of the edges of the two clocks, the chip gets the samples of the accepted
words in their order, each once and each in four beats: what is missing is being sent or is in the
FIFO, and no beat is lost but those at which the FIFO shows no word. -/
theorem samples_delivered (es : List TxEdge) :
    sent F es ++ (after (step F) (reset F) es).unsent F = (accepted F es).map samplesOf ∧
      clockEdges es = 4 * (sent F es).length + (after (step F) (reset F) es).txPhase.val +
        (idle F es).length :=
  ⟨sent_append_unsent es, clockEdges_eq es⟩

/-- A word is accepted, and sent at the sixth edge. -/
def oneWord : List TxEdge := .fabric true 0xABCD1230 :: .replicate 6 .clkDiv

theorem samples_delivered_oneWord :
    sent guardedSyncedFifo oneWord = [(0xABC, 0x123)] ∧
      (after (step guardedSyncedFifo) (reset guardedSyncedFifo) oneWord).unsent
        guardedSyncedFifo = [] := by
  obtain ⟨hsamples, -⟩ := samples_delivered (F := guardedSyncedFifo) oneWord
  have hsent : sent guardedSyncedFifo oneWord = [(0xABC, 0x123)] := by decide
  have haccepted : (accepted guardedSyncedFifo oneWord).map samplesOf = [(0xABC, 0x123)] := by
    decide
  rw [haccepted, hsent] at hsamples
  exact ⟨hsent, List.append_right_eq_self.mp hsamples⟩

end Ad9361Tx

end Cirradio.Fpga
