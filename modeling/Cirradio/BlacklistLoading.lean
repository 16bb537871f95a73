import Cirradio.AxiDriver
import Cirradio.HopDelivery

/-!
# Loading a blacklist

The driver writes the frequencies of a blacklist to the first entries and leaves the others,
and the size register, as they are. Behind the end of a list the entries of earlier, longer
ones are still there, and the hop engine still looks at them.
-/

namespace Cirradio.Fpga
open AxiDriver

namespace RegFile

/-- The registers after blacklists are loaded in order. -/
def loaded (f : RegFile) (lists : List (List (BitVec 32))) : RegFile :=
  lists.foldl (fun f freqsKhz => AxiRegs.applied f (setBlacklist freqsKhz)) f

theorem loaded_concat (f : RegFile) (lists : List (List (BitVec 32)))
    (freqsKhz : List (BitVec 32)) :
    f.loaded (lists ++ [freqsKhz]) =
      AxiRegs.applied (f.loaded lists) (setBlacklist freqsKhz) := by
  simp [loaded]

/-- The inputs of the hop engine that come from the registers, by the names of the ports. -/
def fhssIn (f : RegFile) (x : FhssIn) : FhssIn :=
  { x with
    blacklist := f.bl
    hopPeriod := f.hopPeriod
    blacklistSize := f.blSize.setWidth 6 }

end RegFile

/-- What the last list that reaches a position has there. -/
def lastEntry (lists : List (List (BitVec 32))) (i : ℕ) : Option (BitVec 32) :=
  lists.reverse.findSome? fun freqsKhz => freqsKhz[i]?

theorem lastEntry_concat (lists : List (List (BitVec 32))) (freqsKhz : List (BitVec 32))
    (i : ℕ) : lastEntry (lists ++ [freqsKhz]) i = freqsKhz[i]?.or (lastEntry lists i) := by
  rw [lastEntry, List.reverse_concat, List.findSome?_cons]
  cases freqsKhz[i]? <;> rfl

theorem exists_mem_of_lastEntry {lists : List (List (BitVec 32))} {i : ℕ} {freq : BitVec 32}
    (h : lastEntry lists i = some freq) : ∃ freqsKhz ∈ lists, freqsKhz[i]? = some freq := by
  obtain ⟨freqsKhz, hmem, hfreq⟩ := List.exists_of_findSome?_eq_some h
  exact ⟨freqsKhz, List.mem_reverse.mp hmem, hfreq⟩

theorem RegFile.loaded_spec (f : RegFile) {lists : List (List (BitVec 32))}
    (hlen : ∀ freqsKhz ∈ lists, freqsKhz.length ≤ regBlacklistCount) :
    (f.loaded lists).blSize = f.blSize ∧
      ∀ i (hi : i < 20), (f.loaded lists).bl[i] = (lastEntry lists i).getD f.bl[i] := by
  induction lists using List.reverseRecOn with
  | nil => exact ⟨rfl, fun i hi => rfl⟩
  | append_singleton lists freqsKhz ih =>
    obtain ⟨hsize, hentries⟩ := ih fun l hl => hlen l (List.mem_append_left _ hl)
    have hshort : freqsKhz.take regBlacklistCount = freqsKhz :=
      List.take_of_length_le (hlen freqsKhz (by simp))
    rw [loaded_concat, applied_setBlacklist, hshort]
    refine ⟨hsize, fun i hi => ?_⟩
    rw [lastEntry_concat, getElem_overlay, hentries i hi]
    cases freqsKhz[i]? <;> rfl

theorem blacklisted_fhssIn {f : RegFile} (hsize : f.blSize = 20) (s : FhssEngine)
    (x : FhssIn) :
    s.blacklisted (f.fhssIn x) = true ↔
      ∃ i, ∃ hi : i < 20, f.bl[i] ≠ 0 ∧ f.bl[i] = s.candidateFreq := by
  have htwenty : (f.blSize.setWidth 6).toNat = 20 := by rw [hsize]; rfl
  rw [FhssEngine.blacklisted_iff]
  constructor
  · rintro ⟨i, -, hentry⟩
    exact ⟨i.val, i.isLt, hentry⟩
  · rintro ⟨i, hi, hentry⟩
    exact ⟨⟨i, hi⟩, hi.trans_eq htwenty.symm, hentry⟩

/-- A list that the driver is given. -/
structure Loadable (freqsKhz : List (BitVec 32)) : Prop where
  length_le : freqsKhz.length ≤ regBlacklistCount
  nonzero : 0 ∉ freqsKhz

/-- After the last load the engine blacklists the frequencies of its list, and no others. -/
def Replaces (earlier : List (List (BitVec 32))) (freqsKhz : List (BitVec 32)) : Prop :=
  ∀ (s : FhssEngine) (x : FhssIn),
    s.blacklisted ((RegFile.reset.loaded (earlier ++ [freqsKhz])).fhssIn x) = true ↔
      s.candidateFreq ∈ freqsKhz

/-- A load replaces the lists before it exactly if what they have left behind its end is in
it anyway. -/
theorem replaces_iff {earlier : List (List (BitVec 32))} {freqsKhz : List (BitVec 32)}
    (hearlier : ∀ l ∈ earlier, Loadable l) (hlast : Loadable freqsKhz) :
    Replaces earlier freqsKhz ↔
      ∀ i, freqsKhz.length ≤ i → ∀ freq, lastEntry earlier i = some freq → freq ∈ freqsKhz := by
  have hall : ∀ l ∈ earlier ++ [freqsKhz], l.length ≤ regBlacklistCount := by
    intro l hl
    rcases List.mem_append.mp hl with hl | hl
    · exact (hearlier l hl).length_le
    · rw [List.mem_singleton.mp hl]
      exact hlast.length_le
  obtain ⟨hsize, hentries⟩ := RegFile.reset.loaded_spec hall
  have hreset : ∀ i (hi : i < 20), RegFile.reset.bl[i] = 0 := by simp [RegFile.reset]
  unfold Replaces
  simp only [blacklisted_fhssIn hsize]
  constructor
  · intro hreplaces i hi freq hfreq
    obtain ⟨l, hl, hentry⟩ := exists_mem_of_lastEntry hfreq
    have hin : i < 20 := by
      have hlt := (List.getElem?_eq_some_iff.mp hentry).1
      have hle := (hearlier l hl).length_le
      unfold regBlacklistCount at hle
      omega
    have hnonzero : freq ≠ 0 := by
      rintro rfl
      exact (hearlier l hl).nonzero (List.mem_of_getElem? hentry)
    have hvalue : (RegFile.reset.loaded (earlier ++ [freqsKhz])).bl[i] = freq := by
      rw [hentries i hin, lastEntry_concat, List.getElem?_eq_none hi, Option.none_or, hfreq]
      rfl
    refine (hreplaces { FhssEngine.blank with candidateFreq := freq }
      (FhssEngine.askIn 0 0)).mp ⟨i, hin, ?_, hvalue⟩
    rwa [hvalue]
  · intro hleft s x
    constructor
    · rintro ⟨i, hi, hnonzero, hvalue⟩
      rw [← hvalue]
      rw [hentries i hi, lastEntry_concat, hreset i hi] at hnonzero ⊢
      rcases Nat.lt_or_ge i freqsKhz.length with hlt | hge
      · rw [List.getElem?_eq_getElem hlt]
        exact List.getElem_mem hlt
      · rw [List.getElem?_eq_none hge, Option.none_or] at hnonzero ⊢
        cases hfreq : lastEntry earlier i with
        | none =>
          rw [hfreq] at hnonzero
          exact absurd rfl hnonzero
        | some freq => exact hleft i hge freq hfreq
    · intro hmem
      obtain ⟨i, hi, hvalue⟩ := List.getElem_of_mem hmem
      have hin : i < 20 := Nat.lt_of_lt_of_le hi hlast.length_le
      have hentry : (RegFile.reset.loaded (earlier ++ [freqsKhz])).bl[i] = s.candidateFreq := by
        rw [hentries i hin, lastEntry_concat, List.getElem?_eq_getElem hi, hvalue]
        rfl
      refine ⟨i, hin, ?_, hentry⟩
      rw [hentry]
      rintro hzero
      exact hlast.nonzero (hzero ▸ hmem)

/-- A list over one that is as long. -/
theorem replaces_iff_same_length : Replaces [[225000, 225025]] [300000, 225000] := by
  refine (replaces_iff ?_ ⟨by decide, by decide⟩).mpr ?_
  · intro l hl
    rw [List.mem_singleton.mp hl]
    exact ⟨by decide, by decide⟩
  · intro i hi freq hfreq
    obtain ⟨l, hl, hentry⟩ := exists_mem_of_lastEntry hfreq
    have hout : ([225000, 225025] : List (BitVec 32))[i]? = none := List.getElem?_eq_none hi
    rw [List.mem_singleton.mp hl, hout] at hentry
    cases hentry

/-- A shorter list leaves the last entry of the longer one. -/
theorem not_loadsReplace : ¬ ∀ (earlier : List (List (BitVec 32))) (freqsKhz : List (BitVec 32)),
    (∀ l ∈ earlier, Loadable l) → Loadable freqsKhz → Replaces earlier freqsKhz := by
  intro h
  have hreplaces := h [[225000, 225025]] [300000] (by
    intro l hl
    rw [List.mem_singleton.mp hl]
    exact ⟨by decide, by decide⟩) ⟨by decide, by decide⟩
  have hmem := (hreplaces { FhssEngine.blank with candidateFreq := 225025 }
    (FhssEngine.askIn 0 0)).mp (by decide)
  revert hmem
  decide

end Cirradio.Fpga
