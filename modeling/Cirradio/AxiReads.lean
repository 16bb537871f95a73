import Cirradio.AxiWrites

/-!
# Reads over AXI4-Lite

An address is accepted in every cycle, and there is one register for the answer. Each read
gets its own answer as long as no address comes while an answer waits that is not taken in the
same cycle.
-/

namespace Cirradio.Fpga
namespace AxiRegs
open CallRuns

/-- The words of the accepted addresses, as they were at the time. -/
def asked (s : AxiRegs) (inputs : List AxiIn) : List (BitVec 32) :=
  events step (fun s x => if x.arvalid then [readWord s.file x] else []) s inputs

/-- The words of the completed handshakes on the data channel. -/
def answered (s : AxiRegs) (inputs : List AxiIn) : List (BitVec 32) :=
  events step (fun s x => if s.rvalid && x.rready then [s.rdata] else []) s inputs

/-- A word that waits is kept until it is taken. -/
def HoldsAnswer (s : AxiRegs) (x : AxiIn) : Prop :=
  s.rvalid = true → x.rready = false → (s.next x).rvalid = true ∧ (s.next x).rdata = s.rdata

/-- Each completed handshake carries the word of the accepted address of the same number, each
accepted address but one that waits has its handshake, and the data is stable until then. -/
structure ReadsOnce (s : AxiRegs) (inputs : List AxiIn) : Prop where
  own : ∀ (k : ℕ) (v : BitVec 32), (answered s inputs)[k]? = some v → (asked s inputs)[k]? = some v
  once : (asked s inputs).length = (answered s inputs).length + (after step s inputs).rvalid.toNat
  stable : EveryCall step s HoldsAnswer inputs

/-- An address comes while an answer waits only if the answer is taken. -/
def TakesAnswer (s : AxiRegs) (x : AxiIn) : Prop :=
  x.arvalid = true → s.rvalid = true → x.rready = true

/-- The answer that waits. -/
def unanswered (s : AxiRegs) : List (BitVec 32) := if s.rvalid then [s.rdata] else []

theorem asked_concat (s : AxiRegs) (inputs : List AxiIn) (x : AxiIn) :
    asked s (inputs ++ [x]) = asked s inputs ++
      if x.arvalid then [readWord (after step s inputs).file x] else [] := events_concat ..

theorem answered_concat (s : AxiRegs) (inputs : List AxiIn) (x : AxiIn) :
    answered s (inputs ++ [x]) = answered s inputs ++
      if (after step s inputs).rvalid && x.rready then [(after step s inputs).rdata] else [] :=
  events_concat ..

theorem unanswered_next {s : AxiRegs} {x : AxiIn} (h : TakesAnswer s x) :
    (if s.rvalid && x.rready then [s.rdata] else []) ++ (s.next x).unanswered =
      s.unanswered ++ if x.arvalid then [readWord s.file x] else [] := by
  unfold unanswered
  cases har : x.arvalid with
  | false => cases hr : s.rvalid <;> cases hready : x.rready <;> simp [next, har, hr, hready]
  | true =>
    cases hr : s.rvalid with
    | false => simp [next, har]
    | true => simp [next, har, h har hr]

theorem holdsAnswer_of_takes {s : AxiRegs} {x : AxiIn} (h : TakesAnswer s x) :
    HoldsAnswer s x := by
  intro hr hready
  have har : x.arvalid = false := by
    by_contra har
    rw [Bool.not_eq_false] at har
    exact Bool.false_ne_true (hready.symm.trans (h har hr))
  simp [next, har, hr, hready]

theorem answered_append_unanswered {s : AxiRegs} (hs : s.rvalid = false) {inputs : List AxiIn}
    (h : EveryCall step s TakesAnswer inputs) :
    answered s inputs ++ (after step s inputs).unanswered = asked s inputs := by
  induction inputs using List.reverseRecOn with
  | nil => simp [answered, asked, events, unanswered, hs]
  | append_singleton inputs x ih =>
    obtain ⟨hinputs, hx⟩ := (everyCall_concat step s).mp h
    rw [answered_concat, asked_concat, after_concat, ← ih hinputs, List.append_assoc,
      List.append_assoc]
    exact congrArg _ (unanswered_next hx)

/-- The answer that waits is written over. -/
def losesAnswer (s : AxiRegs) (x : AxiIn) : Bool := x.arvalid && (s.rvalid && !x.rready)

theorem takesAnswer_of_not_loses (s : AxiRegs) (x : AxiIn) (h : s.losesAnswer x = false) :
    TakesAnswer s x := by
  intro har hr
  rw [losesAnswer, har, hr] at h
  simpa using h

theorem length_answered_next (s : AxiRegs) (x : AxiIn) :
    (if s.rvalid && x.rready then [s.rdata] else []).length + (s.next x).rvalid.toNat +
        (s.losesAnswer x).toNat =
      s.rvalid.toNat + (if x.arvalid then [readWord s.file x] else []).length := by
  unfold next losesAnswer
  cases x.arvalid <;> cases s.rvalid <;> cases x.rready <;> rfl

theorem length_answered_le {s : AxiRegs} (hs : s.rvalid = false) (inputs : List AxiIn) :
    (answered s inputs).length + (after step s inputs).rvalid.toNat ≤ (asked s inputs).length ∧
      ((answered s inputs).length + (after step s inputs).rvalid.toNat =
          (asked s inputs).length → EveryCall step s TakesAnswer inputs) := by
  refine everyCall_of_balance step s
    (fun inputs => (answered s inputs).length + (after step s inputs).rvalid.toNat)
    (fun inputs => (asked s inputs).length) losesAnswer takesAnswer_of_not_loses ?_ ?_ inputs
  · simp [answered, asked, events, hs]
  · intro inputs x
    have hcycle := length_answered_next (after step s inputs) x
    rw [answered_concat, asked_concat, after_concat, List.length_append, List.length_append]
    change _ + ((after step s inputs).next x).rvalid.toNat + _ + _ = _
    omega

/-- Every read of a run gets its own answer exactly if no address comes while an answer waits
that is not taken. -/
theorem readsOnce_iff_takesAnswer (wrAddr : BitVec 12) (inputs : List AxiIn) :
    ReadsOnce (reset wrAddr) inputs ↔ EveryCall step (reset wrAddr) TakesAnswer inputs := by
  constructor
  · intro h
    exact (length_answered_le rfl inputs).2 h.once.symm
  · intro h
    have hwords := answered_append_unanswered rfl h
    refine ⟨fun k v hk => ?_, ?_, fun i x hx => holdsAnswer_of_takes (h i x hx)⟩
    · have hin : k < (answered (reset wrAddr) inputs).length := (List.getElem?_eq_some_iff.mp hk).1
      rwa [← hwords, List.getElem?_append_left hin]
    · rw [← hwords, List.length_append, unanswered]
      cases (after step (reset wrAddr) inputs).rvalid <;> rfl

/-- A read address, and whether an answer is taken. -/
def readCycle (addr : Option (BitVec 12)) (rready : Bool) : AxiIn :=
  { writeCycle none none true with
    araddr := addr.getD 0
    arvalid := addr.isSome
    rready := rready }

/-- Two addresses in a row, with no answer taken: the first answer is lost. -/
theorem not_readsOnce : ¬ ∀ (wrAddr : BitVec 12) (inputs : List AxiIn),
    ReadsOnce (reset wrAddr) inputs := by
  intro h
  have honce := (h 0 [readCycle (some regEmconCtrl) false, readCycle (some regTxPower) false]).once
  exact absurd honce (by decide)

end AxiRegs
end Cirradio.Fpga
