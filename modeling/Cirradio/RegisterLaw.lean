import Cirradio.AxiDriver
import Cirradio.AxiReads

/-!
# The registers as a memory

What the software sees of the register block when it writes and reads one register after the
other: each register that is written keeps its last value, but four of them are left out where
addresses are decoded for reading.
-/

namespace Cirradio.Fpga

/-- The registers that the software writes and the block stores. -/
inductive PsReg where
  | fhek (i : Fin 8)
  | blacklist (i : Fin 20)
  | slotBitmap
  | txPower
  | control
  | hopRate
  | blacklistSize
  | interleaverDepth
  | paRampSteps
  | emconCtrl
  deriving DecidableEq, Repr

namespace PsReg

def addr : PsReg → BitVec 12
  | fhek i => regFhek0 + BitVec.ofNat 12 (i.val * 4)
  | blacklist i => regBlacklistBase + BitVec.ofNat 12 (i.val * 4)
  | slotBitmap => regSlotBitmap
  | txPower => regTxPower
  | control => regControl
  | hopRate => regHopRate
  | blacklistSize => regBlacklistSize
  | interleaverDepth => regInterleaverDepth
  | paRampSteps => regPaRampSteps
  | emconCtrl => regEmconCtrl

/-- The registers that are decoded for reading. -/
def Readable : PsReg → Prop
  | control | hopRate | blacklistSize | interleaverDepth | paRampSteps => False
  | _ => True

instance : DecidablePred Readable := fun r => by
  cases r <;> unfold Readable <;> infer_instance

/-- The contents of a register. -/
def get (f : RegFile) : PsReg → BitVec 32
  | fhek i => f.fhek.getD i 0
  | blacklist i => f.bl.getD i 0
  | slotBitmap => f.slotmap
  | txPower => f.txpow
  | control => f.ctrl
  | hopRate => f.hopPeriod
  | blacklistSize => f.blSize
  | interleaverDepth => f.ilDepth
  | paRampSteps => f.paStep
  | emconCtrl => f.emconCtrl

def set (f : RegFile) (data : BitVec 32) : PsReg → RegFile
  | fhek i => { f with fhek := f.fhek.setIfInBounds i data }
  | blacklist i => { f with bl := f.bl.setIfInBounds i data }
  | slotBitmap => { f with slotmap := data }
  | txPower => { f with txpow := data }
  | control => { f with ctrl := data }
  | hopRate => { f with hopPeriod := data }
  | blacklistSize => { f with blSize := data }
  | interleaverDepth => { f with ilDepth := data }
  | paRampSteps => { f with paStep := data }
  | emconCtrl => { f with emconCtrl := data }

theorem getD_setIfInBounds {α : Type*} {n : ℕ} (v : Vector α n) (i j : Fin n) (x y : α) :
    (v.setIfInBounds i x).getD j y = if j = i then x else v.getD j y := by
  have hij : (i : ℕ) = j ↔ j = i := by rw [Fin.val_inj, eq_comm]
  simp [Vector.getD, Array.getD, Array.getElem_setIfInBounds, hij]

/-- A write to one register changes no other. -/
theorem get_set (f : RegFile) (data : BitVec 32) (r r' : PsReg) :
    get (set f data r) r' = if r' = r then data else get f r' := by
  cases r with
  | fhek i =>
    cases r' with
    | fhek j =>
      rw [get, set, getD_setIfInBounds, get]
      exact if_congr (fhek.injEq j i).symm.to_iff rfl rfl
    | _ => rfl
  | blacklist i =>
    cases r' with
    | blacklist j =>
      rw [get, set, getD_setIfInBounds, get]
      exact if_congr (blacklist.injEq j i).symm.to_iff rfl rfl
    | _ => rfl
  | _ => cases r' <;> rfl

theorem write_addr (f : RegFile) (data : BitVec 32) (r : PsReg) :
    f.write r.addr data = set f data r := by
  cases r with
  | fhek i => exact AxiDriver.write_fhek f i.isLt data
  | blacklist i => exact AxiDriver.write_bl f i.isLt data
  | _ => rfl

/-- The addresses with a case of their own where they are read. -/
def readCases : List (BitVec 12) :=
  [regSlotBitmap, regTxPower, regStatus, regRssi, regHopCounter, regEmconCtrl]

theorem readWord_of_not_mem (f : RegFile) {x : AxiIn} (hx : x.araddr ∉ readCases) :
    AxiRegs.readWord f x =
      if regFhek0 ≤ x.araddr ∧ x.araddr ≤ regFhek7 then
        f.fhek.getD (RegFile.wordIndex x.araddr regFhek0) 0
      else if regBlacklistBase ≤ x.araddr ∧ x.araddr < regBlacklistBase + 20 * 4 then
        f.bl.getD (RegFile.wordIndex x.araddr regBlacklistBase) 0
      else if regErrBase ≤ x.araddr ∧ x.araddr < regErrBase + 20 * 4 then
        x.errCount.getD (RegFile.wordIndex x.araddr regErrBase) 0
      else 0 := by
  simp only [readCases, List.mem_cons, List.not_mem_nil, or_false, not_or] at hx
  obtain ⟨hslot, hpower, hstatus, hrssi, hhop, hemcon⟩ := hx
  rw [AxiRegs.readWord, if_neg hslot, if_neg hpower, if_neg hstatus, if_neg hrssi, if_neg hhop,
    if_neg hemcon]

/-- The arrays are decoded for reading as they are for writing. -/
theorem readWord_addr (f : RegFile) {x : AxiIn} {r : PsReg} (hx : x.araddr = r.addr) :
    AxiRegs.readWord f x = if r.Readable then get f r else 0 := by
  cases r with
  | fhek i =>
    have hdecode : ∀ i : Fin 8, (fhek i).addr ∉ readCases ∧
        (regFhek0 ≤ (fhek i).addr ∧ (fhek i).addr ≤ regFhek7) ∧
        RegFile.wordIndex (fhek i).addr regFhek0 = i := by decide
    obtain ⟨hcase, hrange, hindex⟩ := hdecode i
    rw [readWord_of_not_mem f (hx ▸ hcase), hx, if_pos hrange, hindex]
    rfl
  | blacklist i =>
    have hdecode : ∀ i : Fin 20, (blacklist i).addr ∉ readCases ∧
        ¬ (regFhek0 ≤ (blacklist i).addr ∧ (blacklist i).addr ≤ regFhek7) ∧
        (regBlacklistBase ≤ (blacklist i).addr ∧
          (blacklist i).addr < regBlacklistBase + 20 * 4) ∧
        RegFile.wordIndex (blacklist i).addr regBlacklistBase = i := by decide
    obtain ⟨hcase, hkey, hrange, hindex⟩ := hdecode i
    rw [readWord_of_not_mem f (hx ▸ hcase), hx, if_neg hkey, if_pos hrange, hindex]
    rfl
  | _ =>
    rw [AxiRegs.readWord, hx]
    rfl

/-- An address of a whole word is that of a register, or nothing is written to it. -/
theorem exists_addr_eq {a : BitVec 12} (ha : 4 ∣ a.toNat) :
    (∃ r : PsReg, r.addr = a) ∨ ∀ f data, RegFile.write f a data = f := by
  by_contra hnone
  rw [not_or, not_exists] at hnone
  obtain ⟨hreg, hwrites⟩ := hnone
  refine hwrites fun f data => ?_
  have hkey : ¬ (regFhek0 ≤ a ∧ a ≤ regFhek7) := by
    rintro ⟨-, hhigh⟩
    have hhigh' : a.toNat ≤ 28 := hhigh
    refine hreg (fhek ⟨a.toNat / 4, by omega⟩) (BitVec.eq_of_toNat_eq ?_)
    change (0 + a.toNat / 4 * 4 % 4096) % 4096 = a.toNat
    omega
  have hlist : ¬ (regBlacklistBase ≤ a ∧ a < regBlacklistBase + 20 * 4) := by
    rintro ⟨hlow, hhigh⟩
    have hlow' : 32 ≤ a.toNat := hlow
    have hhigh' : a.toNat < 112 := hhigh
    refine hreg (blacklist ⟨(a.toNat - 32) / 4, by omega⟩) (BitVec.eq_of_toNat_eq ?_)
    change (32 + (a.toNat - 32) / 4 * 4 % 4096) % 4096 = a.toNat
    omega
  rw [RegFile.write, if_neg hkey, if_neg hlist, if_neg fun h => hreg slotBitmap h.symm,
    if_neg fun h => hreg txPower h.symm, if_neg fun h => hreg control h.symm,
    if_neg fun h => hreg hopRate h.symm, if_neg fun h => hreg blacklistSize h.symm,
    if_neg fun h => hreg interleaverDepth h.symm, if_neg fun h => hreg paRampSteps h.symm,
    if_neg fun h => hreg emconCtrl h.symm]

theorem addr_injective : Function.Injective addr := by
  intro r r' haddr
  by_contra hne
  have hsame : set .reset (get .reset r + 1) r' = set .reset (get .reset r + 1) r := by
    rw [← write_addr, ← write_addr, haddr]
  have hcontents := congrArg (fun f => get f r) hsame
  rw [get_set, get_set, if_neg hne, if_pos rfl] at hcontents
  generalize get .reset r = v at hcontents
  bv_omega

theorem get_write (f : RegFile) {a : BitVec 12} (ha : 4 ∣ a.toNat) (data : BitVec 32) (r : PsReg) :
    get (f.write a data) r = if a = r.addr then data else get f r := by
  rcases exists_addr_eq ha with ⟨r', rfl⟩ | hnone
  · rw [write_addr, get_set]
    exact if_congr ⟨fun h => h ▸ rfl, fun h => (addr_injective h).symm⟩ rfl rfl
  · rw [hnone]
    split_ifs with hr
    · -- no register is at an address that nothing is written to
      have hall := congrArg (fun f => get f r) (hnone .reset (get .reset r + 1))
      rw [hr, write_addr, get_set, if_pos rfl] at hall
      generalize get .reset r = v at hall
      bv_omega
    · rfl

/-- The registers that no case of the read decoder names, though none is described as
write-only. -/
def unread : List PsReg := [hopRate, blacklistSize, interleaverDepth, paRampSteps]

theorem readable_iff {r : PsReg} (hr : r ≠ control) : r.Readable ↔ r ∉ unread := by
  cases r with
  | control => exact absurd rfl hr
  | _ => simp [Readable, unread]

end PsReg

/-- A write, or a read with the word that it brings. -/
inductive Transaction where
  | write (addr : BitVec 12) (data : BitVec 32)
  | read (addr : BitVec 12) (data : BitVec 32)
  deriving DecidableEq, Repr

def Transaction.addr : Transaction → BitVec 12
  | write addr _ => addr
  | read addr _ => addr

namespace AxiRegs
open CallRuns

/-- The read addresses that are accepted in a run. -/
def readAddresses (inputs : List AxiIn) : List (BitVec 12) :=
  (inputs.filter fun x => x.arvalid).map fun x => x.araddr

/-- The handshakes of some cycles are those of one transaction, up to its response. -/
def Completes (s : AxiRegs) (inputs : List AxiIn) : Transaction → Prop
  | .write addr data => addresses inputs = [addr] ∧ words inputs = [data] ∧
      countReplies step answers s inputs = 1 ∧ readAddresses inputs = []
  | .read addr data => addresses inputs = [] ∧ words inputs = [] ∧
      readAddresses inputs = [addr] ∧ answered s inputs = [data]

/-- Nothing is under way on any channel. -/
structure Idle (s : AxiRegs) : Prop where
  wrPending : s.wrPending = false
  bvalid : s.bvalid = false
  rvalid : s.rvalid = false

section Cycles
variable {s : AxiRegs} {inputs : List AxiIn}

theorem readAddresses_concat (inputs : List AxiIn) (x : AxiIn) : readAddresses (inputs ++ [x]) =
    readAddresses inputs ++ if x.arvalid then [x.araddr] else [] := by
  simp only [readAddresses, List.filter_append, List.map_append]
  cases h : x.arvalid <;> simp [h]

theorem length_asked (s : AxiRegs) (inputs : List AxiIn) :
    (asked s inputs).length = (readAddresses inputs).length := by
  induction inputs using List.reverseRecOn with
  | nil => rfl
  | append_singleton inputs x ih =>
    rw [asked_concat, readAddresses_concat, List.length_append, List.length_append, ih]
    split_ifs <;> rfl

theorem file_of_words_eq_nil (h : words inputs = []) :
    (after step s inputs).file = s.file := by
  induction inputs using List.reverseRecOn with
  | nil => rfl
  | append_singleton inputs x ih =>
    rw [words_concat, List.append_eq_nil_iff] at h
    obtain ⟨hinputs, hx⟩ := h
    have hw : x.wvalid = false := by
      by_contra hw
      rw [Bool.not_eq_false] at hw
      rw [if_pos hw] at hx
      cases hx
    rw [after_concat, ← ih hinputs]
    simp [step, next, applies, hw]

theorem asked_of_words_eq_nil (h : words inputs = []) :
    asked s inputs = (inputs.filter fun x => x.arvalid).map (readWord s.file) := by
  induction inputs using List.reverseRecOn with
  | nil => rfl
  | append_singleton inputs x ih =>
    rw [words_concat, List.append_eq_nil_iff] at h
    rw [asked_concat, ih h.1, file_of_words_eq_nil h.1, List.filter_append, List.map_append]
    cases har : x.arvalid <;> simp [har]

/-- A write with its response leaves the word in the register, and nothing under way. -/
theorem Completes.write {addr : BitVec 12} {data : BitVec 32} (hs : s.Idle)
    (h : Completes s inputs (.write addr data)) :
    (after step s inputs).Idle ∧ (after step s inputs).file = s.file.write addr data := by
  obtain ⟨haddr, hword, hanswers, hreads⟩ := h
  obtain ⟨writes, haccounts⟩ := exists_accounts hs.wrPending hs.bvalid inputs
  obtain ⟨hanswered, hworded, haddressed, horderly⟩ := haccounts
  have hasked := (length_answered_le hs.rvalid inputs).1
  unfold responses at hanswered horderly
  rw [hanswers] at hanswered horderly
  rw [hword] at hworded horderly
  rw [haddr] at haddressed horderly
  rw [length_asked, hreads] at hasked
  simp only [List.length_singleton, List.length_nil] at hworded haddressed horderly hasked
  refine ⟨⟨?_, ?_, ?_⟩, ?_⟩
  · rw [← Bool.toNat_eq_zero]
    omega
  · rw [← Bool.toNat_eq_zero]
    omega
  · rw [← Bool.toNat_eq_zero]
    omega
  · have hrun := horderly (by omega) (by omega) (by omega)
    obtain ⟨old, hold⟩ := exists_holds hs.wrPending hs.bvalid hrun
    rw [hold.writesOnce.file, pairs, haddr, hword]
    rfl

/-- A read brings the word of its address, and leaves nothing under way. -/
theorem Completes.read {addr : BitVec 12} {data : BitVec 32} (hs : s.Idle)
    (h : Completes s inputs (.read addr data)) :
    (after step s inputs).Idle ∧ (after step s inputs).file = s.file ∧
      ∃ x : AxiIn, x.araddr = addr ∧ data = readWord s.file x := by
  obtain ⟨haddr, hword, hreads, hanswered⟩ := h
  obtain ⟨writes, haccounts⟩ := exists_accounts hs.wrPending hs.bvalid inputs
  have hworded := haccounts.worded
  have haddressed := haccounts.addressed
  have hresponses := haccounts.answered
  obtain ⟨hasked, htakes⟩ := length_answered_le hs.rvalid inputs
  unfold responses at hresponses
  rw [hword] at hworded
  rw [haddr] at haddressed
  rw [length_asked, hreads, hanswered] at hasked htakes
  simp only [List.length_singleton, List.length_nil] at hworded haddressed hasked htakes
  have hrvalid : (after step s inputs).rvalid = false := by
    rw [← Bool.toNat_eq_zero]
    omega
  refine ⟨⟨?_, ?_, hrvalid⟩, file_of_words_eq_nil hword, ?_⟩
  · rw [← Bool.toNat_eq_zero]
    omega
  · rw [← Bool.toNat_eq_zero]
    omega
  · have hown := answered_append_unanswered hs.rvalid (htakes (by omega))
    rw [hanswered, unanswered, hrvalid, asked_of_words_eq_nil hword] at hown
    obtain ⟨x, hx, hxaddr⟩ := List.map_eq_singleton_iff.mp hreads
    rw [hx] at hown
    exact ⟨x, hxaddr, (List.singleton_inj.mp hown)⟩

end Cycles

/-- The cycles of a transaction. -/
def transact (s : AxiRegs) (t : Transaction × List AxiIn) : AxiRegs × Unit :=
  (after step s t.2, ())

/-- Each transaction is completed before the next starts, at addresses of whole words. -/
def OneByOne (s : AxiRegs) (ts : List (Transaction × List AxiIn)) : Prop :=
  EveryCall transact s (fun s t => Completes s t.2 t.1 ∧ 4 ∣ t.1.addr.toNat) ts

/-- The last value written to a register, and its reset value before. -/
def lastWritten (ts : List (Transaction × List AxiIn)) (r : PsReg) : BitVec 32 :=
  ts.foldl (fun value t =>
    match t.1 with
    | .write addr data => if addr = r.addr then data else value
    | .read _ _ => value) (r.get .reset)

theorem lastWritten_concat (ts : List (Transaction × List AxiIn)) (t : Transaction × List AxiIn)
    (r : PsReg) : lastWritten (ts ++ [t]) r =
      match t.1 with
      | .write addr data => if addr = r.addr then data else lastWritten ts r
      | .read _ _ => lastWritten ts r := by
  rw [lastWritten, List.foldl_concat]
  rfl

/-- Between transactions each register holds the last value written to it. -/
theorem get_after {wrAddr : BitVec 12} {ts : List (Transaction × List AxiIn)}
    (h : OneByOne (reset wrAddr) ts) :
    (after transact (reset wrAddr) ts).Idle ∧
      ∀ r, PsReg.get (after transact (reset wrAddr) ts).file r = lastWritten ts r := by
  induction ts using List.reverseRecOn with
  | nil => exact ⟨⟨rfl, rfl, rfl⟩, fun _ => rfl⟩
  | append_singleton ts t ih =>
    obtain ⟨hts, hcompletes, haligned⟩ := (everyCall_concat transact _).mp h
    obtain ⟨hidle, hvalues⟩ := ih hts
    obtain ⟨t, inputs⟩ := t
    rw [after_concat]
    cases t with
    | write addr data =>
      obtain ⟨hidle', hfile⟩ := hcompletes.write hidle
      have hword : 4 ∣ addr.toNat := haligned
      refine ⟨hidle', fun r => ?_⟩
      change PsReg.get (after step _ inputs).file r = _
      rw [hfile, PsReg.get_write _ hword, hvalues, lastWritten_concat]
    | read addr data =>
      obtain ⟨hidle', hfile, -⟩ := hcompletes.read hidle
      refine ⟨hidle', fun r => ?_⟩
      change PsReg.get (after step _ inputs).file r = _
      rw [hfile, hvalues, lastWritten_concat]

/-- Every read of a register that is not write-only returns the last value written to it. -/
def ReadsLast (ts : List (Transaction × List AxiIn)) : Prop :=
  ∀ i r data inputs, ts[i]? = some (.read (PsReg.addr r) data, inputs) → r ≠ .control →
    data = lastWritten (ts.take i) r

/-- The four registers that are not decoded for reading are read only while they hold zero. -/
def UnreadZero (ts : List (Transaction × List AxiIn)) : Prop :=
  ∀ i r data inputs, ts[i]? = some (.read (PsReg.addr r) data, inputs) → r ∈ PsReg.unread →
    lastWritten (ts.take i) r = 0

theorem read_eq_iff {wrAddr : BitVec 12} {ts : List (Transaction × List AxiIn)}
    (h : OneByOne (reset wrAddr) ts) {i : ℕ} {r : PsReg} {data : BitVec 32} {inputs : List AxiIn}
    (hi : ts[i]? = some (.read r.addr data, inputs)) (hr : r ≠ .control) :
    data = lastWritten (ts.take i) r ↔ (r ∈ PsReg.unread → lastWritten (ts.take i) r = 0) := by
  obtain ⟨hidle, hvalues⟩ := get_after (h.take i)
  obtain ⟨-, -, x, hx, hdata⟩ := (h i _ hi).1.read hidle
  rw [hdata, PsReg.readWord_addr _ hx, hvalues]
  by_cases hmem : r ∈ PsReg.unread
  · rw [if_neg fun hread => (PsReg.readable_iff hr).mp hread hmem, eq_comm]
    exact ⟨fun hzero _ => hzero, fun hzero => hzero hmem⟩
  · rw [if_pos ((PsReg.readable_iff hr).mpr hmem)]
    exact ⟨fun _ hyes => absurd hyes hmem, fun _ => rfl⟩

/-- A write changes no register but its own, and reads return the last values written in exactly
the runs that do not read one of the four other registers after a value other than zero. -/
theorem readsLast_iff_unreadZero (wrAddr : BitVec 12) {ts : List (Transaction × List AxiIn)}
    (h : OneByOne (reset wrAddr) ts) :
    (∀ i addr data inputs r, ts[i]? = some (.write addr data, inputs) → addr ≠ PsReg.addr r →
      PsReg.get (after transact (reset wrAddr) (ts.take (i + 1))).file r =
        PsReg.get (after transact (reset wrAddr) (ts.take i)).file r) ∧
      (ReadsLast ts ↔ UnreadZero ts) := by
  refine ⟨fun i addr data inputs r hi hne => ?_, ?_, ?_⟩
  · rw [(get_after (h.take (i + 1))).2, (get_after (h.take i)).2, List.take_add_one, hi,
      Option.toList_some, lastWritten_concat]
    exact if_neg hne
  · intro hlast i r data inputs hi hmem
    have hr : r ≠ .control := by
      rintro rfl
      exact absurd hmem (by decide)
    exact (read_eq_iff h hi hr).mp (hlast i r data inputs hi hr) hmem
  · intro hzero i r data inputs hi hr
    exact (read_eq_iff h hi hr).mpr (hzero i r data inputs hi)

/-- Address and data together, and then the response. -/
def writeCycles (addr : BitVec 12) (data : BitVec 32) : List AxiIn :=
  [writeCycle (some addr) (some data) true, writeCycle none none true]

def readCycles (addr : BitVec 12) : List AxiIn := [readCycle (some addr) true, readCycle none true]

/-- The transmit power can be read back. -/
theorem readsLast_iff_unreadZero_txPower :
    OneByOne (reset 0) [(.write regTxPower 3700, writeCycles regTxPower 3700),
      (.read regTxPower 3700, readCycles regTxPower)] ∧
    ReadsLast [(.write regTxPower 3700, writeCycles regTxPower 3700),
      (.read regTxPower 3700, readCycles regTxPower)] := by
  have hone : OneByOne (reset 0) [(.write regTxPower 3700, writeCycles regTxPower 3700),
      (.read regTxPower 3700, readCycles regTxPower)] := by
    rw [OneByOne, everyCall_cons, everyCall_cons]
    unfold Completes
    exact ⟨by decide, by decide, everyCall_nil _ _ _⟩
  refine ⟨hone, (readsLast_iff_unreadZero 0 hone).2.mpr ?_⟩
  intro i r data inputs hi hmem
  have hin := List.mem_of_getElem? hi
  simp only [List.mem_cons, List.not_mem_nil, or_false, Prod.mk.injEq, Transaction.read.injEq,
    reduceCtorEq, false_and, false_or] at hin
  have hr : r = .txPower := PsReg.addr_injective hin.1.1
  subst hr
  exact absurd hmem (by decide)

/-- Reads return what was written. -/
def RegisterLaw : Prop :=
  ∀ (wrAddr : BitVec 12) (ts : List (Transaction × List AxiIn)), OneByOne (reset wrAddr) ts →
    ReadsLast ts

/-- The hop period is written, and zero is read. -/
theorem not_registerLaw : ¬ RegisterLaw := by
  intro h
  have hone : OneByOne (reset 0) [(.write regHopRate 500000, writeCycles regHopRate 500000),
      (.read regHopRate 0, readCycles regHopRate)] := by
    rw [OneByOne, everyCall_cons, everyCall_cons]
    unfold Completes
    exact ⟨by decide, by decide, everyCall_nil _ _ _⟩
  have hread := h 0 _ hone 1 .hopRate 0 (readCycles regHopRate) rfl (by decide)
  exact absurd hread (by decide)

end AxiRegs
end Cirradio.Fpga
