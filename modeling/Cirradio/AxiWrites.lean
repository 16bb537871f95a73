import Cirradio.AxiRegs

/-!
# Writes over AXI4-Lite

The first address accepted belongs to the first data word, the second to the second, and
so on. With one flag for a pending address and one for a response, the slave keeps to this
when the address comes first, one at a time, and data waits for the last response.
-/

namespace Cirradio.Fpga
namespace AxiRegs
open CallRuns

/-- The addresses accepted in a run. -/
def addresses (inputs : List AxiIn) : List (BitVec 12) :=
  (inputs.filter fun x => x.awvalid).map fun x => x.awaddr

/-- The data words accepted in a run. -/
def words (inputs : List AxiIn) : List (BitVec 32) :=
  (inputs.filter fun x => x.wvalid).map fun x => x.wdata

/-- The writes of a run. -/
def pairs (inputs : List AxiIn) : List (BitVec 12 × BitVec 32) :=
  (addresses inputs).zip (words inputs)

/-- The registers after writes in order. -/
def applied (f : RegFile) (writes : List (BitVec 12 × BitVec 32)) : RegFile :=
  writes.foldl (fun f w => f.write w.1 w.2) f

/-- A response is taken. -/
def answers (x : AxiIn) (o : Out) : Bool := o.bvalid && x.bready

/-- The responses taken in a run, and the one still waiting. -/
def responses (s : AxiRegs) (inputs : List AxiIn) : ℕ :=
  countReplies step answers s inputs + (after step s inputs).bvalid.toNat

/-- Every write so far is applied once and answered once. -/
structure WritesOnce (s : AxiRegs) (inputs : List AxiIn) : Prop where
  file : (after step s inputs).file = applied s.file (pairs inputs)
  responses : responses s inputs = (pairs inputs).length

/-- Data comes with its address or after it, an address after the data of the last, and
data after the response to the last is taken. -/
structure Orderly (s : AxiRegs) (x : AxiIn) : Prop where
  addressed : x.wvalid = true → s.wrPending = true ∨ x.awvalid = true
  single : x.awvalid = true → s.wrPending = false
  answered : x.wvalid = true → s.bvalid = false

/-- The address that waits for its data. -/
def waiting (s : AxiRegs) : List (BitVec 12) := if s.wrPending then [s.wrAddr] else []

theorem addresses_concat (inputs : List AxiIn) (x : AxiIn) :
    addresses (inputs ++ [x]) = addresses inputs ++ if x.awvalid then [x.awaddr] else [] := by
  simp only [addresses, List.filter_append, List.map_append]
  cases h : x.awvalid <;> simp [h]

theorem words_concat (inputs : List AxiIn) (x : AxiIn) :
    words (inputs ++ [x]) = words inputs ++ if x.wvalid then [x.wdata] else [] := by
  simp only [words, List.filter_append, List.map_append]
  cases h : x.wvalid <;> simp [h]

theorem applied_concat (f : RegFile) (writes : List (BitVec 12 × BitVec 32))
    (w : BitVec 12 × BitVec 32) :
    applied f (writes ++ [w]) = (applied f writes).write w.1 w.2 := by
  simp [applied]

theorem zip_waiting {old : List (BitVec 12)} {data : List (BitVec 32)}
    (h : old.length = data.length) (more : List (BitVec 12)) :
    (old ++ more).zip data = old.zip data := by
  have hzip : (old ++ more).zip (data ++ []) = old.zip data ++ more.zip [] := List.zip_append h
  rwa [List.append_nil, List.zip_nil_right, List.append_nil] at hzip

theorem responses_concat (s : AxiRegs) (inputs : List AxiIn) (x : AxiIn) :
    responses s (inputs ++ [x]) = responses s inputs +
      ((after step s inputs).applies x && !(after step s inputs).bvalid).toNat := by
  unfold responses
  rw [countReplies_concat, after_concat]
  generalize after step s inputs = t
  change _ + (t.bvalid && x.bready).toNat +
    (!(t.bvalid && x.bready) && (t.applies x || t.bvalid)).toNat = _
  cases t.bvalid <;> cases x.bready <;> cases t.applies x <;> rfl

/-- What the slave holds of the writes of an orderly run. -/
structure Holds (s : AxiRegs) (inputs : List AxiIn) (old : List (BitVec 12)) : Prop where
  accepted : addresses inputs = old ++ (after step s inputs).waiting
  length : old.length = (words inputs).length
  file : (after step s inputs).file = applied s.file (old.zip (words inputs))
  answered : responses s inputs = old.length

theorem Holds.writesOnce {s : AxiRegs} {inputs : List AxiIn} {old : List (BitVec 12)}
    (h : Holds s inputs old) : WritesOnce s inputs := by
  have hpairs : pairs inputs = old.zip (words inputs) := by
    rw [pairs, h.accepted, zip_waiting h.length]
  refine ⟨?_, ?_⟩
  · rw [hpairs, h.file]
  · rw [hpairs, h.answered, List.length_zip, ← h.length, Nat.min_self]

/-- An orderly cycle applies its data word to the address of the same number. -/
theorem Holds.concat {s : AxiRegs} {inputs : List AxiIn} {old : List (BitVec 12)}
    (h : Holds s inputs old) {x : AxiIn} (hx : Orderly (after step s inputs) x) :
    ∃ old', Holds s (inputs ++ [x]) old' := by
  obtain ⟨haddresses, hlength, hfile, hresponses⟩ := h
  have hresponses' := responses_concat s inputs x
  have hstate := after_concat step s inputs x
  generalize after step s inputs = t at *
  cases hw : x.wvalid with
  | false =>
    -- no data: what was waiting still waits, or the address of this cycle does
    have happlies : t.applies x = false := by simp [applies, hw]
    refine ⟨old, ?_, ?_, ?_, ?_⟩
    · rw [hstate, addresses_concat, haddresses, List.append_assoc]
      congr 1
      cases haw : x.awvalid with
      | false => simp [waiting, step, next, happlies, haw]
      | true => simp [waiting, step, next, happlies, haw, hx.single haw]
    · rw [words_concat, hw, hlength]
      simp
    · rw [hstate, words_concat, hw]
      simp [step, next, happlies, hfile]
    · rw [hresponses', happlies, hresponses]
      rfl
  | true =>
    have happlies : t.applies x = true := by
      rw [applies, hw, Bool.true_and, Bool.or_eq_true]
      exact hx.addressed hw
    have hnone : (t.next x).waiting = [] := by simp [waiting, next, happlies]
    have hall : addresses (inputs ++ [x]) = old ++ [t.wa x] := by
      rw [addresses_concat, haddresses, List.append_assoc]
      congr 1
      cases haw : x.awvalid with
      | false =>
        have hpending : t.wrPending = true := (hx.addressed hw).resolve_right (by simp [haw])
        simp [waiting, wa, haw, hpending]
      | true => simp [waiting, wa, haw, hx.single haw]
    refine ⟨old ++ [t.wa x], ?_, ?_, ?_, ?_⟩
    · rw [hall, hstate]
      change _ = _ ++ (t.next x).waiting
      rw [hnone, List.append_nil]
    · rw [words_concat, hw, if_pos rfl, List.length_append, List.length_append, hlength]
      rfl
    · rw [hstate, words_concat, hw, if_pos rfl, List.zip_append hlength]
      change (t.next x).file = applied s.file (_ ++ [(t.wa x, x.wdata)])
      rw [applied_concat, ← hfile]
      simp [next, happlies]
    · rw [hresponses', happlies, hx.answered hw, hresponses, List.length_append]
      rfl

theorem exists_holds {s : AxiRegs} (hpending : s.wrPending = false) (hbvalid : s.bvalid = false)
    {inputs : List AxiIn} (h : EveryCall step s Orderly inputs) : ∃ old, Holds s inputs old := by
  induction inputs using List.reverseRecOn with
  | nil =>
    refine ⟨[], ?_, rfl, rfl, ?_⟩
    · simp [addresses, waiting, hpending]
    · simp [responses, countReplies, hbvalid]
  | append_singleton inputs x ih =>
    obtain ⟨hinputs, hx⟩ := (everyCall_concat step s).mp h
    obtain ⟨old, hold⟩ := ih hinputs
    exact hold.concat hx

/-- The response to the data word is the one that waits already. -/
def losesResponse (s : AxiRegs) (x : AxiIn) : Bool := s.applies x && s.bvalid

def losesWord (s : AxiRegs) (x : AxiIn) : Bool := x.wvalid && !s.applies x

def losesAddress (s : AxiRegs) (x : AxiIn) : Bool := x.awvalid && s.wrPending

theorem orderly_iff (s : AxiRegs) (x : AxiIn) : Orderly s x ↔
    s.losesResponse x = false ∧ s.losesWord x = false ∧ s.losesAddress x = false := by
  unfold losesResponse losesWord losesAddress applies
  constructor
  · rintro ⟨haddressed, hsingle, hanswered⟩
    cases hw : x.wvalid <;> cases haw : x.awvalid <;> cases hp : s.wrPending <;> simp_all
  · intro h
    refine ⟨?_, ?_, ?_⟩ <;> intro hv <;> cases hp : s.wrPending <;> simp_all

theorem length_words_concat (s : AxiRegs) (inputs : List AxiIn) (x : AxiIn) :
    (words (inputs ++ [x])).length = (words inputs).length + (s.applies x).toNat +
      (s.losesWord x).toNat := by
  rw [words_concat, List.length_append]
  unfold losesWord applies
  cases x.wvalid <;> cases x.awvalid <;> cases s.wrPending <;> rfl

theorem length_addresses_concat (s : AxiRegs) (inputs : List AxiIn) (x : AxiIn) :
    (addresses (inputs ++ [x])).length + s.wrPending.toNat = (addresses inputs).length +
      (s.applies x).toNat + (s.next x).wrPending.toNat + (s.losesAddress x).toNat := by
  rw [addresses_concat, List.length_append]
  unfold losesAddress next applies
  cases x.awvalid <;> cases s.wrPending <;> cases x.wvalid <;> rfl

theorem responses_concat_add (s : AxiRegs) (inputs : List AxiIn) (x : AxiIn) :
    responses s (inputs ++ [x]) + ((after step s inputs).losesResponse x).toNat =
      responses s inputs + ((after step s inputs).applies x).toNat := by
  rw [responses_concat]
  unfold losesResponse
  cases (after step s inputs).applies x <;> cases (after step s inputs).bvalid <;> rfl

/-- The accounts of a run, whose losses are never made good. -/
structure Accounts (s : AxiRegs) (inputs : List AxiIn) (writes : ℕ) : Prop where
  answered : responses s inputs ≤ writes
  worded : writes ≤ (words inputs).length
  addressed : writes + (after step s inputs).wrPending.toNat ≤ (addresses inputs).length
  orderly : responses s inputs = writes → writes = (words inputs).length →
    writes + (after step s inputs).wrPending.toNat = (addresses inputs).length →
    EveryCall step s Orderly inputs

theorem Accounts.concat {s : AxiRegs} {inputs : List AxiIn} {writes : ℕ}
    (h : Accounts s inputs writes) (x : AxiIn) :
    Accounts s (inputs ++ [x]) (writes + ((after step s inputs).applies x).toNat) := by
  have hresponses := responses_concat_add s inputs x
  have hwords := length_words_concat (after step s inputs) inputs x
  have haddresses := length_addresses_concat (after step s inputs) inputs x
  have hpending : (after step s (inputs ++ [x])).wrPending =
      ((after step s inputs).next x).wrPending := by
    rw [after_concat]
    rfl
  obtain ⟨hanswered, hworded, haddressed, horderly⟩ := h
  refine ⟨by omega, by omega, by rw [hpending]; omega, fun h₁ h₂ h₃ => ?_⟩
  rw [hpending] at h₃
  rw [everyCall_concat, orderly_iff]
  refine ⟨horderly (by omega) (by omega) (by omega), ?_, ?_, ?_⟩
  · rw [← Bool.toNat_eq_zero]
    omega
  · rw [← Bool.toNat_eq_zero]
    omega
  · rw [← Bool.toNat_eq_zero]
    omega

theorem exists_accounts {s : AxiRegs} (hpending : s.wrPending = false)
    (hbvalid : s.bvalid = false) (inputs : List AxiIn) : ∃ writes, Accounts s inputs writes := by
  induction inputs using List.reverseRecOn with
  | nil =>
    refine ⟨0, ?_, Nat.zero_le _, ?_, fun _ _ _ => everyCall_nil step s Orderly⟩
    · simp [responses, countReplies, hbvalid]
    · simp [hpending]
  | append_singleton inputs x ih =>
    obtain ⟨writes, hwrites⟩ := ih
    exact ⟨_, hwrites.concat x⟩

/-- Every write is applied once and answered once in an orderly run, and where in the end
every address has its data word, in no other run. -/
theorem writesOnce_iff_orderly (wrAddr : BitVec 12) (inputs : List AxiIn) :
    (EveryCall step (reset wrAddr) Orderly inputs →
      ∀ i, WritesOnce (reset wrAddr) (inputs.take i)) ∧
    ((addresses inputs).length = (words inputs).length →
      ((∀ i, WritesOnce (reset wrAddr) (inputs.take i)) ↔
        EveryCall step (reset wrAddr) Orderly inputs)) := by
  have hsufficient : EveryCall step (reset wrAddr) Orderly inputs →
      ∀ i, WritesOnce (reset wrAddr) (inputs.take i) := by
    intro h i
    obtain ⟨old, hold⟩ := exists_holds (s := reset wrAddr) rfl rfl (h.take i)
    exact hold.writesOnce
  refine ⟨hsufficient, fun hpaired => ⟨fun h => ?_, hsufficient⟩⟩
  obtain ⟨writes, haccounts⟩ := exists_accounts (s := reset wrAddr) rfl rfl inputs
  have hall := (h inputs.length).responses
  rw [List.take_length, pairs, List.length_zip, hpaired, Nat.min_self] at hall
  obtain ⟨hanswered, hworded, haddressed, horderly⟩ := haccounts
  exact horderly (by omega) (by omega) (by omega)

/-- A cycle without reads. -/
def writeCycle (aw : Option (BitVec 12)) (w : Option (BitVec 32)) (bready : Bool) : AxiIn where
  awaddr := aw.getD 0
  awvalid := aw.isSome
  wdata := w.getD 0
  wvalid := w.isSome
  bready := bready
  araddr := 0
  arvalid := false
  rready := false
  status := 0
  rssi := 0
  hopCounter := 0
  errCount := .replicate 20 0

/-- Address and data together, and then the response. -/
theorem writesOnce_iff_orderly_together (i : ℕ) : WritesOnce (reset 0)
    (([writeCycle (some regTxPower) (some 3700) true] ++ [writeCycle none none true]).take i) := by
  refine (writesOnce_iff_orderly 0 _).1 ?_ i
  rw [everyCall_concat, orderly_iff]
  refine ⟨?_, by decide⟩
  rw [← List.nil_append [writeCycle (some regTxPower) (some 3700) true], everyCall_concat,
    orderly_iff]
  exact ⟨everyCall_nil step _ _, by decide⟩

/-- Every write is applied once and answered once, however its handshakes come. -/
def EveryWriteOnce : Prop :=
  ∀ (wrAddr : BitVec 12) (inputs : List AxiIn), WritesOnce (reset wrAddr) inputs

/-- A data word that comes before its address is lost: the write is neither applied nor
answered. -/
theorem not_everyWriteOnce : ¬ EveryWriteOnce := by
  intro h
  have hlost := (h 0 [writeCycle none (some 7) true,
    writeCycle (some regTxPower) none true]).responses
  exact absurd hlost (by decide)

end AxiRegs
end Cirradio.Fpga
