import Cirradio.BlacklistLoading
import Cirradio.HopKey
import Cirradio.HopProgress
import Cirradio.RegisterLaw

/-!
# The driver on the bus

Each call of the register driver is some writes on the bus. What the hop engine makes of a
run of calls is decided by the last key that was accepted, unless a zeroize came after it:
the registers then hold the key of zeros, under which the engine goes on hopping. What it
checks a candidate against are the entries of all the blacklists that were loaded.
-/

namespace Cirradio.Fpga
open Security Fhss CallRuns AxiDriver Retries

/-- `CTRL_FHEK_ZEROIZE`. -/
def ctrlFhekZeroize : BitVec 32 := 1

/-- `CTRL_CLOCK_HALT`. -/
def ctrlClockHalt : BitVec 32 := 2

inductive DriverCall where
  | setFhek (fhek : Bytes)
  | setBlacklist (freqsKhz : List (BitVec 32))
  | setSlotBitmap (bitmap : BitVec 32)
  /-- Signed, in hundredths of a dBm. -/
  | setTxPower (dBmX100 : BitVec 32)
  | zeroizeFhek
  | haltFpgaClocks
  | setHopRate (cycles : BitVec 32)
  | setBlacklistSize (count : BitVec 32)
  | setInterleaverDepth (depth : BitVec 32)
  | setPaRampSteps (cycles : BitVec 32)
  | setEmconCtrl (value : BitVec 32)
  | writeEmconUnlock
  deriving DecidableEq, Repr

namespace DriverCall

def zeroWords : List (BitVec 32) := List.replicate 8 0

/-- The writes of a call. One that throws has made none. -/
def writes : DriverCall → List (BitVec 12 × BitVec 32)
  | setFhek fhek =>
    match AxiDriver.setFhek fhek with
    | .ok writes => writes
    | .error _ => []
  | setBlacklist freqsKhz => AxiDriver.setBlacklist freqsKhz
  | setSlotBitmap bitmap => [(regSlotBitmap, bitmap)]
  | setTxPower dBmX100 => [(regTxPower, dBmX100)]
  | zeroizeFhek => writesAt regFhek0 zeroWords ++ [(regControl, ctrlFhekZeroize)]
  | haltFpgaClocks => [(regControl, ctrlClockHalt)]
  | setHopRate cycles => [(regHopRate, cycles)]
  | setBlacklistSize count => [(regBlacklistSize, count)]
  | setInterleaverDepth depth => [(regInterleaverDepth, depth)]
  | setPaRampSteps cycles => [(regPaRampSteps, cycles)]
  | setEmconCtrl value => [(regEmconCtrl, value)]
  | writeEmconUnlock => [(regEmconUnlock, 0xA5C33C5A)]

/-- What a call makes of the key of the hop engine. -/
def hopKey (key : Bytes) : DriverCall → Bytes
  | setFhek fhek => if fhek.length = 32 then fhek.reverse else key
  | zeroizeFhek => List.replicate 32 0
  | _ => key

/-- What a call makes of the control register. -/
def control (ctrl : BitVec 32) : DriverCall → BitVec 32
  | zeroizeFhek => ctrlFhekZeroize
  | haltFpgaClocks => ctrlClockHalt
  | _ => ctrl

theorem applied_zeroizeFhek (f : RegFile) :
    AxiRegs.applied f zeroizeFhek.writes =
      { f with fhek := .replicate 8 0, ctrl := ctrlFhekZeroize } := by
  have hzero : overlay f.fhek zeroWords = .replicate 8 0 := by
    apply Vector.ext
    intro i hi
    simp only [overlay, Vector.getElem_ofFn, Vector.getElem_replicate]
    rw [zeroWords, List.getD_eq_getElem?_getD, List.getElem?_replicate_of_lt hi]
    rfl
  rw [writes, AxiRegs.applied_concat, applied_writesAt_fhek f (by decide), hzero]
  exact PsReg.write_addr _ _ .control

theorem coreKey_zero : coreKey ({ RegFile.reset with fhek := .replicate 8 0 }).fhekOut =
    List.replicate 32 0 := by decide

theorem fhekOut_congr {f g : RegFile} (h : f.fhek = g.fhek) : f.fhekOut = g.fhekOut := by
  unfold RegFile.fhekOut
  rw [h]

/-- The entries that a call loads into the blacklist. -/
def entries : DriverCall → Option (List (BitVec 32))
  | setBlacklist freqsKhz => some (freqsKhz.take regBlacklistCount)
  | _ => none

/-- What a call makes of the size of the blacklist. -/
def blacklistSize (size : BitVec 32) : DriverCall → BitVec 32
  | setBlacklistSize count => count
  | _ => size

/-- What a call makes of the registers that the hop engine reads, and of the control
register. -/
structure Effect (f g : RegFile) (call : DriverCall) : Prop where
  key : coreKey g.fhekOut = call.hopKey (coreKey f.fhekOut)
  blacklist : ∀ i (hi : i < 20), g.bl[i] = (call.entries.bind (·[i]?)).getD f.bl[i]
  size : g.blSize = call.blacklistSize f.blSize
  control : g.ctrl = call.control f.ctrl

theorem applied_write (f : RegFile) {r : PsReg} (hkey : ∀ i, r ≠ .fhek i)
    (hlist : ∀ i, r ≠ .blacklist i) (data : BitVec 32) :
    AxiRegs.applied f [(r.addr, data)] = PsReg.set f data r ∧
      coreKey (PsReg.set f data r).fhekOut = coreKey f.fhekOut ∧
      (PsReg.set f data r).bl = f.bl := by
  refine ⟨PsReg.write_addr f data r, ?_⟩
  cases r with
  | fhek i => exact absurd rfl (hkey i)
  | blacklist i => exact absurd rfl (hlist i)
  | _ => exact ⟨congrArg coreKey (fhekOut_congr rfl), rfl⟩

theorem Effect.of_write (f : RegFile) {call : DriverCall} {r : PsReg} {data : BitVec 32}
    (hwrites : call.writes = [(r.addr, data)]) (hkey : ∀ i, r ≠ .fhek i)
    (hlist : ∀ i, r ≠ .blacklist i) (hkeeps : ∀ key, call.hopKey key = key)
    (hentries : call.entries = none)
    (hsize : (PsReg.set f data r).blSize = call.blacklistSize f.blSize)
    (hctrl : (PsReg.set f data r).ctrl = call.control f.ctrl) :
    Effect f (AxiRegs.applied f call.writes) call := by
  obtain ⟨happlied, hcore, hbl⟩ := applied_write f hkey hlist data
  rw [hwrites, happlied]
  refine ⟨by rw [hcore, hkeeps], fun i hi => ?_, hsize, hctrl⟩
  rw [hentries]
  exact congrArg (·[i]) hbl

theorem effect_writes (f : RegFile) (call : DriverCall) :
    Effect f (AxiRegs.applied f call.writes) call := by
  cases call with
  | setFhek fhek =>
    by_cases hkey : fhek.length = 32
    · have hset : (setFhek fhek).writes = writesAt regFhek0 (keyWords fhek) := by
        simp [writes, AxiDriver.setFhek, hkey]
      have hlen : (keyWords fhek).length ≤ 8 := by simp [keyWords]
      have happlied := applied_writesAt_fhek f hlen
      refine ⟨?_, fun i hi => ?_, ?_, ?_⟩ <;> rw [hset]
      · rw [hopKey, if_pos hkey, coreKey_setFhek hkey]
      all_goals rw [happlied]; rfl
    · have hnone : (setFhek fhek).writes = [] := by simp [writes, AxiDriver.setFhek, hkey]
      rw [hnone]
      refine ⟨?_, fun i hi => rfl, rfl, rfl⟩
      rw [hopKey, if_neg hkey]
      rfl
  | setBlacklist freqsKhz =>
    rw [writes, applied_setBlacklist]
    exact ⟨congrArg coreKey (fhekOut_congr rfl), fun i hi => getElem_overlay f.bl _ hi, rfl, rfl⟩
  | zeroizeFhek =>
    rw [applied_zeroizeFhek]
    refine ⟨?_, fun i hi => rfl, rfl, rfl⟩
    rw [hopKey, ← coreKey_zero]
    exact congrArg coreKey (fhekOut_congr rfl)
  | setSlotBitmap bitmap =>
    exact .of_write f (r := .slotBitmap) rfl (by simp) (by simp) (fun _ => rfl) rfl rfl rfl
  | setTxPower dBmX100 =>
    exact .of_write f (r := .txPower) rfl (by simp) (by simp) (fun _ => rfl) rfl rfl rfl
  | haltFpgaClocks =>
    exact .of_write f (r := .control) rfl (by simp) (by simp) (fun _ => rfl) rfl rfl rfl
  | setHopRate cycles =>
    exact .of_write f (r := .hopRate) rfl (by simp) (by simp) (fun _ => rfl) rfl rfl rfl
  | setBlacklistSize count =>
    exact .of_write f (r := .blacklistSize) rfl (by simp) (by simp) (fun _ => rfl) rfl rfl rfl
  | setInterleaverDepth depth =>
    exact .of_write f (r := .interleaverDepth) rfl (by simp) (by simp) (fun _ => rfl) rfl rfl rfl
  | setPaRampSteps cycles =>
    exact .of_write f (r := .paRampSteps) rfl (by simp) (by simp) (fun _ => rfl) rfl rfl rfl
  | setEmconCtrl value =>
    exact .of_write f (r := .emconCtrl) rfl (by simp) (by simp) (fun _ => rfl) rfl rfl rfl
  | writeEmconUnlock => exact ⟨rfl, fun i hi => rfl, rfl, rfl⟩

/-- The registers after a run of calls. -/
structure Effects (f g : RegFile) (calls : List DriverCall) : Prop where
  key : coreKey g.fhekOut = calls.foldl hopKey (coreKey f.fhekOut)
  blacklist : ∀ i (hi : i < 20), g.bl[i] = (lastEntry (calls.filterMap entries) i).getD f.bl[i]
  size : g.blSize = calls.foldl blacklistSize f.blSize
  control : g.ctrl = calls.foldl control f.ctrl

theorem Effects.concat {f g h : RegFile} {calls : List DriverCall} {call : DriverCall}
    (hcalls : Effects f g calls) (hcall : Effect g h call) : Effects f h (calls ++ [call]) := by
  refine ⟨?_, fun i hi => ?_, ?_, ?_⟩
  · rw [List.foldl_concat, hcall.key, hcalls.key]
  · rw [hcall.blacklist i hi, hcalls.blacklist i hi, List.filterMap_append]
    cases hentries : call.entries with
    | none => simp [hentries]
    | some freqsKhz =>
      have hone : [call].filterMap entries = [freqsKhz] := by simp [hentries]
      rw [hone, lastEntry_concat, Option.bind_some]
      cases freqsKhz[i]? <;> rfl
  · rw [List.foldl_concat, hcall.size, hcalls.size]
  · rw [List.foldl_concat, hcall.control, hcalls.control]

theorem effects_flatMap (f : RegFile) (calls : List DriverCall) :
    Effects f (AxiRegs.applied f (calls.flatMap writes)) calls := by
  induction calls using List.reverseRecOn with
  | nil => exact ⟨rfl, fun i hi => rfl, rfl, rfl⟩
  | append_singleton calls call ih =>
    have happend : AxiRegs.applied f ((calls ++ [call]).flatMap writes) =
        AxiRegs.applied (AxiRegs.applied f (calls.flatMap writes)) call.writes := by
      rw [AxiRegs.applied, List.flatMap_append, List.flatMap_singleton, List.foldl_append]
      rfl
    rw [happend]
    exact ih.concat (effect_writes _ call)

/-- The key that the hop engine has after a run of calls from reset. -/
def hopKeyAfter (calls : List DriverCall) : Bytes :=
  calls.foldl hopKey (List.replicate 32 0)

/-- No key is loaded. -/
def NoKey (calls : List DriverCall) : Prop := ∀ fhek, setFhek fhek ∉ calls

/-- After a zeroize the key is zero until another is loaded. -/
theorem hopKeyAfter_zeroizeFhek (before : List DriverCall) {after : List DriverCall}
    (h : NoKey after) : hopKeyAfter (before ++ zeroizeFhek :: after) = List.replicate 32 0 := by
  unfold hopKeyAfter
  rw [List.foldl_append, List.foldl_cons]
  change after.foldl hopKey (List.replicate 32 0) = _
  induction after with
  | nil => rfl
  | cons call after ih =>
    have hrest : NoKey after := fun fhek hmem => h fhek (List.mem_cons_of_mem call hmem)
    have hcall : hopKey (List.replicate 32 0) call = List.replicate 32 0 := by
      cases call with
      | setFhek fhek => exact absurd List.mem_cons_self (h fhek)
      | _ => rfl
    rw [List.foldl_cons, hcall]
    exact ih hrest

/-- The frequencies that the hop engine looks for after a run of calls from reset: of the
entries in use, those that a list was loaded to. -/
def listedAfter (calls : List DriverCall) : Set (BitVec 32) :=
  {freq | freq ≠ 0 ∧ ∃ i < 20, i < ((calls.foldl blacklistSize 20).setWidth 6).toNat ∧
    lastEntry (calls.filterMap entries) i = some freq}

theorem jammed_of_effects {g : RegFile} {calls : List DriverCall} (h : Effects .reset g calls) :
    FhssEngine.jammed g.bl (g.blSize.setWidth 6) = listedAfter calls := by
  have hentry : ∀ i (hi : i < 20),
      g.bl[i] = (lastEntry (calls.filterMap entries) i).getD 0 := by
    intro i hi
    rw [h.blacklist i hi]
    simp [RegFile.reset]
  have hsize : g.blSize = calls.foldl blacklistSize 20 := h.size
  ext freq
  rw [FhssEngine.jammed, listedAfter, ← hsize]
  constructor
  · rintro ⟨i, hi, hnonzero, rfl⟩
    change g.bl[i.val] ≠ 0 at hnonzero
    change g.bl[i.val] ≠ 0 ∧ _
    refine ⟨hnonzero, i.val, i.isLt, hi, ?_⟩
    change _ = some g.bl[i.val]
    rw [hentry i.val i.isLt] at hnonzero ⊢
    cases hlast : lastEntry (calls.filterMap entries) i.val with
    | none =>
      rw [hlast] at hnonzero
      exact absurd rfl hnonzero
    | some freq => rfl
  · rintro ⟨hnonzero, i, hin, hi, hlast⟩
    have hvalue : g.bl[i] = freq := by
      rw [hentry i hin, hlast]
      rfl
    exact ⟨⟨i, hin⟩, hi, fun hzero => hnonzero (hvalue.symm.trans hzero), hvalue⟩

end DriverCall

open DriverCall FhssEngine

/-- What the registers give the engine for a hop. -/
def RegFile.hopJob (f : RegFile) (slot : BitVec 5) (frame : BitVec 32) : HopJob :=
  ⟨f.bl, f.blSize.setWidth 6, slot, frame⟩

theorem AxiRegs.file_of_calls {wrAddr : BitVec 12} {inputs : List AxiIn}
    (horderly : EveryCall AxiRegs.step (AxiRegs.reset wrAddr) AxiRegs.Orderly inputs)
    {calls : List DriverCall} (hpairs : AxiRegs.pairs inputs = calls.flatMap writes) :
    (after AxiRegs.step (AxiRegs.reset wrAddr) inputs).file =
      AxiRegs.applied .reset (calls.flatMap writes) := by
  obtain ⟨old, hholds⟩ := AxiRegs.exists_holds (s := AxiRegs.reset wrAddr) rfl rfl horderly
  rw [hholds.writesOnce.file, hpairs]
  rfl

/-- Writes with address and data together, each with its response before the next. -/
def AxiRegs.busCycles (writes : List (BitVec 12 × BitVec 32)) : List AxiIn :=
  writes.flatMap fun w => AxiRegs.writeCycles w.1 w.2

/-- Any writes can be made in an orderly run. -/
theorem AxiRegs.orderly_busCycles (wrAddr : BitVec 12) (writes : List (BitVec 12 × BitVec 32)) :
    EveryCall AxiRegs.step (AxiRegs.reset wrAddr) AxiRegs.Orderly (busCycles writes) ∧
      AxiRegs.pairs (busCycles writes) = writes := by
  have haddresses : AxiRegs.addresses (busCycles writes) = writes.map Prod.fst := by
    induction writes with
    | nil => rfl
    | cons w writes ih => exact congrArg (w.1 :: ·) ih
  have hwords : AxiRegs.words (busCycles writes) = writes.map Prod.snd := by
    clear haddresses
    induction writes with
    | nil => rfl
    | cons w writes ih => exact congrArg (w.2 :: ·) ih
  refine ⟨?_, ?_⟩
  · have hidle (s : AxiRegs) (hpending : s.wrPending = false) (hbvalid : s.bvalid = false) :
        EveryCall AxiRegs.step s AxiRegs.Orderly (busCycles writes) := by
      clear haddresses hwords
      induction writes generalizing s with
      | nil => exact everyCall_nil _ s _
      | cons w writes ih =>
        unfold busCycles AxiRegs.writeCycles
        simp only [List.flatMap_cons, List.cons_append, List.nil_append, everyCall_cons]
        refine ⟨⟨fun _ => .inr rfl, fun _ => hpending, fun _ => hbvalid⟩, ⟨nofun, nofun, nofun⟩, ?_⟩
        apply ih
        · simp [AxiRegs.step, AxiRegs.next, AxiRegs.applies, AxiRegs.writeCycle]
        · simp [AxiRegs.step, AxiRegs.next, AxiRegs.applies, AxiRegs.writeCycle]
    exact hidle _ rfl rfl
  · rw [AxiRegs.pairs, haddresses, hwords, List.zip_map', List.map_id'']
    exact fun _ => rfl

/-- From the calls of the driver over the bus to the frequencies of the engine, whose core
encrypts by `aes` under the key of the registers: a hop takes a candidate under the last
accepted key, backwards, and from a zeroize on under the key of zeros; it is checked, one
attempt late, against the entries loaded. Whatever the calls were, halting the clocks included,
no hop whose core answers in time is lost. -/
theorem hops_of_calls (aes : Bytes → AesBlock → AesBlock) {wrAddr : BitVec 12}
    {inputs : List AxiIn}
    (horderly : EveryCall AxiRegs.step (AxiRegs.reset wrAddr) AxiRegs.Orderly inputs)
    {calls : List DriverCall} (hpairs : AxiRegs.pairs inputs = calls.flatMap writes)
    (powerUp : FhssEngine) (setup xs : List FhssIn) (slot : BitVec 5) (frame : BitVec 32) :
    let file := (after AxiRegs.step (AxiRegs.reset wrAddr) inputs).file
    let s := after step (FhssEngine.reset powerUp) setup
    let fed := xs.map file.fhssIn
    let candidate := attemptFreq (aes (hopKeyAfter calls)) slot frame s.hopIndex
    file.ctrl = calls.foldl control 0 ∧
      (∀ before later, calls = before ++ zeroizeFhek :: later → NoKey later →
        hopKeyAfter calls = List.replicate 32 0) ∧
      (HopRun (aes (coreKey file.fhekOut)) (file.hopJob slot frame) s fed →
        (∀ k, Delivered s (fed.take k) →
          Picked (listedAfter calls) (late s.candidateFreq candidate) candidate 9
              (after step s (fed.take k)).freqKhz ∧
            ∃ channel < 11480,
              (after step s (fed.take k)).freqKhz.toNat = 225000 + 25 * channel) ∧
        ∀ limit, AnswersWithin limit s fed → 20 * limit + 11 < fed.length →
          ∃ k ≤ fed.length, Delivered s (fed.take k)) := by
  intro file s fed candidate
  have hfile : file = AxiRegs.applied .reset (calls.flatMap writes) :=
    AxiRegs.file_of_calls horderly hpairs
  have heffects : Effects .reset file calls := by
    rw [hfile]
    exact effects_flatMap .reset calls
  have hkey : coreKey file.fhekOut = hopKeyAfter calls := by
    have hreset : coreKey RegFile.reset.fhekOut = List.replicate 32 0 := coreKey_zero
    rw [heffects.key, hreset]
    rfl
  refine ⟨heffects.control, ?_,
    fun hrun => ⟨fun k hdelivered => ?_, fun limit hanswers hlen => ?_⟩⟩
  · rintro before later rfl hnokey
    exact hopKeyAfter_zeroizeFhek before hnokey
  · have hpos : 0 < k := by
      have hlen := hdelivered.pos
      rw [List.length_take] at hlen
      omega
    have hpicked := (hrun.take hpos).picked_late hdelivered
    rw [hkey] at hpicked
    change Picked (jammed file.bl (file.blSize.setWidth 6)) _ _ 9 _ at hpicked
    rw [jammed_of_effects heffects] at hpicked
    refine ⟨hpicked, ?_⟩
    obtain ⟨a, -, hfreq, -⟩ := hpicked
    refine ⟨(attemptWord (aes (hopKeyAfter calls)) slot frame s.hopIndex a).toNat % 11480,
      Nat.mod_lt _ (by decide), ?_⟩
    rw [hfreq]
    exact candidate_toNat _
  · obtain ⟨k, -, hk, hdelivered⟩ := hrun.exists_delivered hanswers hlen
    exact ⟨k, hk, hdelivered⟩

/-- A cipher that masks a block with the first byte of the key. -/
def maskByKey (key : Bytes) (block : AesBlock) : AesBlock := block.map (· ^^^ key.headD 0)

theorem maskByKey_zero : maskByKey (List.replicate 32 0) = id := by
  funext block
  apply Vector.ext
  intro i hi
  simp [maskByKey]

/-- A key and a blacklist are loaded, the key is zeroized, and the clocks are halted. -/
def zeroizedCalls : List DriverCall :=
  [.setFhek (List.replicate 32 0x42), .setBlacklist [469400], .setHopRate 1000, .zeroizeFhek,
    .haltFpgaClocks]

theorem zeroizedCalls_file {file : RegFile}
    (hfile : file = AxiRegs.applied .reset (zeroizedCalls.flatMap writes)) :
    maskByKey (coreKey file.fhekOut) = id ∧ file.hopJob 0 0 = jamJob 469400 ∧
      (jamHop 469400).map file.fhssIn = jamHop 469400 := by
  have heffects : Effects .reset file zeroizedCalls := by
    rw [hfile]
    exact effects_flatMap .reset zeroizedCalls
  have hjob : file.hopJob 0 0 = jamJob 469400 := by
    rw [hfile]
    decide +kernel
  refine ⟨?_, hjob, ?_⟩
  · rw [heffects.key]
    exact maskByKey_zero
  · have hrate : file.hopPeriod = 1000 := by
      rw [hfile]
      decide +kernel
    have hlist : file.bl = (jamIn 469400).blacklist := congrArg HopJob.blacklist hjob
    have hsize : file.blSize.setWidth 6 = 20 := congrArg HopJob.blacklistSize hjob
    refine (List.map_congr_left fun x hx => ?_).trans (List.map_id _)
    rw [RegFile.fhssIn, hrate, hlist, hsize]
    simp only [jamHop, jamRun, List.mem_append, List.mem_cons, List.not_mem_nil, or_false,
      List.mem_replicate] at hx
    rcases hx with (rfl | rfl | rfl | rfl) | ⟨-, rfl⟩ <;> rfl

/-- The engine goes on, to the frequency that was listed. -/
theorem hops_of_calls_zeroized :
    let file := (after AxiRegs.step (AxiRegs.reset 0)
      (AxiRegs.busCycles (zeroizedCalls.flatMap writes))).file
    let s := after step (FhssEngine.reset blank) jamSetup
    let fed := (jamHop 469400).map file.fhssIn
    file.ctrl = ctrlClockHalt ∧ 469400 ∈ listedAfter zeroizedCalls ∧
      ∃ k ≤ fed.length, Delivered s (fed.take k) ∧
        (after step s (fed.take k)).freqKhz = 469400 := by
  obtain ⟨horderly, hpairs⟩ := AxiRegs.orderly_busCycles 0 (zeroizedCalls.flatMap writes)
  obtain ⟨hctrl, hzeroized, hhops⟩ :=
    hops_of_calls maskByKey horderly hpairs blank jamSetup (jamHop 469400) 0 0
  obtain ⟨hcore, hjob, hfed⟩ := zeroizedCalls_file (AxiRegs.file_of_calls horderly hpairs)
  have hkey : hopKeyAfter zeroizedCalls = List.replicate 32 0 :=
    hzeroized [.setFhek (List.replicate 32 0x42), .setBlacklist [469400], .setHopRate 1000]
      [.haltFpgaClocks] rfl (by simp [NoKey])
  rw [hcore, hjob, hfed, hkey, maskByKey_zero] at hhops
  simp only [hfed]
  obtain ⟨hdelivers, hanswered⟩ := hhops (jamHop_hopRun 469400)
  obtain ⟨k, hk, hdelivered⟩ := hanswered 1 (jamHop_answers 469400) (by decide)
  refine ⟨hctrl, ⟨by decide, 0, by decide, by decide, rfl⟩, k, hk, hdelivered, ?_⟩
  obtain ⟨hpicked, -⟩ := hdelivers k hdelivered
  rw [picked_late_of_notMem (fun hmem => hmem.1 rfl) hpicked]
  exact (jamJob_candidate 469400).1

end Cirradio.Fpga
