import Cirradio.JitterBuffer
import Mathlib.Data.List.Range

/-!
# Streams through the jitter buffer

As long as no frame is dropped, the frames of a stream are played once each and in order, in
whatever order they come in, and a frame is played as it was last pushed.
-/

namespace Cirradio.Voice
namespace JitterBuffer
open OrderedMaps CallRuns

variable {b : JitterBuffer} {depth k n c : ℕ} {ops : List Op}

/-- The payload that was last pushed under a number. -/
def lastPushed (ops : List Op) (sequence : UInt32) : Option VoiceFrame :=
  ops.foldl (fun last op =>
    match op with
    | .push s frame => if s = sequence then some frame else last
    | .pop => last) none

theorem lastPushed_push (ops : List Op) (s sequence : UInt32) (frame : VoiceFrame) :
    lastPushed (ops ++ [.push s frame]) sequence =
      if s = sequence then some frame else lastPushed ops sequence := by
  rw [lastPushed, List.foldl_append]
  rfl

theorem lastPushed_pop (ops : List Op) (sequence : UInt32) :
    lastPushed (ops ++ [.pop]) sequence = lastPushed ops sequence := by
  rw [lastPushed, List.foldl_append]
  rfl

/-- Whether an operation has played a frame. -/
def plays (_ : Op) (r : Option (Option VoiceFrame)) : Bool :=
  match r with
  | some (some _) => true
  | _ => false

/-- How many frames a run has played. -/
def played (depth : ℕ) (ops : List Op) : ℕ := countReplies step plays (new depth) ops

/-- Frames with numbers from `k` on, `n` of them, come in any order and any number of times, and
the first attempt to play comes behind frame `k`. -/
structure Stream (k n : ℕ) (ops : List Op) : Prop where
  bound : k + n < 2 ^ 32
  pushes : ∀ sequence frame, .push sequence frame ∈ ops →
    k ≤ sequence.toNat ∧ sequence.toNat < k + n
  start : ∀ i : ℕ, ops[i]? = some .pop → (lastPushed (ops.take i) (UInt32.ofNat k)).isSome

/-- The frame that is next in a stream of which so many have been played. -/
def nextOf (k c : ℕ) : UInt32 := UInt32.ofNat (k + c)

theorem Stream.init {op : Op} (h : Stream k n (ops ++ [op])) : Stream k n ops where
  bound := h.bound
  pushes sequence frame hmem := h.pushes sequence frame (List.mem_append_left _ hmem)
  start i hi := by
    have hlt : i < ops.length := (List.getElem?_eq_some_iff.mp hi).1
    have hstart := h.start i (by rw [List.getElem?_append_left hlt]; exact hi)
    rwa [List.take_append_of_le_length (Nat.le_of_lt hlt)] at hstart

theorem Stream.range (h : Stream k n ops) {sequence : UInt32}
    (hpushed : (lastPushed ops sequence).isSome) : k ≤ sequence.toNat ∧ sequence.toNat < k + n := by
  induction ops using List.reverseRecOn with
  | nil => cases hpushed
  | append_singleton ops op ih =>
    cases op with
    | pop =>
      rw [lastPushed_pop] at hpushed
      exact ih h.init hpushed
    | push s frame =>
      rw [lastPushed_push] at hpushed
      split_ifs at hpushed with heq
      · subst heq
        exact h.pushes s frame (List.mem_append_right _ List.mem_cons_self)
      · exact ih h.init hpushed

/-- Nothing has been played yet, and playback starts with the lowest number. -/
structure Collecting (ops : List Op) (b : JitterBuffer) : Prop where
  held : ∀ sequence : UInt32, b.buffer[sequence]? = lastPushed ops sequence
  lowest : ∀ oldest, b.buffer.minKey? = some oldest → b.nextSeq = oldest

/-- Some frames have been played, and those behind them are kept as they have come in. -/
structure Playing (k c : ℕ) (ops : List Op) (b : JitterBuffer) : Prop where
  nextSeq : b.nextSeq = nextOf k c
  held : ∀ sequence : UInt32, k + c ≤ sequence.toNat → b.buffer[sequence]? = lastPushed ops sequence

/-- The state of a stream of which some frames have been played. -/
structure Follows (k n c : ℕ) (ops : List Op) (b : JitterBuffer) : Prop where
  le : c ≤ n
  collecting : b.firstPush = true → c = 0 ∧ Collecting ops b
  playing : b.firstPush = false → Playing k c ops b

theorem follows_new (k n depth : ℕ) : Follows k n 0 [] (new depth) where
  le := Nat.zero_le n
  collecting _ := ⟨rfl, fun _ => Std.ExtTreeMap.getElem?_empty, fun _ h => by
    rw [show (new depth).buffer = ∅ from rfl, Std.ExtTreeMap.minKey?_empty] at h
    cases h⟩
  playing := nofun

theorem toNat_nextOf (h : k + c < 2 ^ 32) : (nextOf k c).toNat = k + c := by
  rw [nextOf, UInt32.toNat_ofNat']
  exact Nat.mod_eq_of_lt h

section Steps
variable {sequence : UInt32} {frame : VoiceFrame}

/-- A frame comes in, and the buffer has room. -/
theorem Follows.store (h : Follows k n c ops b) (sequence : UInt32) (frame : VoiceFrame) :
    Follows k n c (ops ++ [.push sequence frame]) (b.store sequence frame) := by
  have hinsert : ∀ s : UInt32, b.buffer[s]? = lastPushed ops s →
      (b.store sequence frame).buffer[s]? = lastPushed (ops ++ [.push sequence frame]) s := by
    intro s hs
    rw [lastPushed_push, ← hs]
    exact (getElem?_insert_ite _ _ _ _).trans (by simp only [eq_comm])
  refine ⟨h.le, fun hfirst => ?_, fun hfirst => ?_⟩
  · obtain ⟨hc, hheld, -⟩ := h.collecting hfirst
    refine ⟨hc, fun s => hinsert s (hheld s), fun oldest hmin => ?_⟩
    have hfirst' : b.firstPush = true := hfirst
    rw [nextSeq_store hmin, if_pos hfirst']
  · have hfirst' : b.firstPush = false := hfirst
    obtain ⟨hnext, hheld⟩ := h.playing hfirst'
    refine ⟨?_, fun s hs => hinsert s (hheld s hs)⟩
    unfold JitterBuffer.store
    rw [hfirst']
    exact hnext

/-- Once frame `k` has come in, the next frame is the one behind those that have been played. -/
theorem Follows.start (h : Follows k n c ops b) (hstream : Stream k n ops)
    (hk : (lastPushed ops (UInt32.ofNat k)).isSome) : Playing k c ops b := by
  cases hfirst : b.firstPush with
  | false => exact h.playing hfirst
  | true =>
    obtain ⟨rfl, hheld, hlowest⟩ := h.collecting hfirst
    refine ⟨hlowest _ (minKey?_eq_some_iff.mpr ⟨?_, fun j hj => ?_⟩), fun s _ => hheld s⟩
    · rw [← Std.ExtTreeMap.isSome_getElem?_iff_mem, hheld]
      exact hk
    · rw [← Std.ExtTreeMap.isSome_getElem?_iff_mem, hheld] at hj
      have hrange := hstream.range hj
      have hnat : (nextOf k 0).toNat = k :=
        toNat_nextOf (Nat.lt_of_le_of_lt (by omega) hstream.bound)
      rw [UInt32.le_iff_toNat_le, hnat]
      exact hrange.1

theorem Playing.pop_eq (h : Playing k c ops b) (hbound : k + c < 2 ^ 32) :
    b.pop.2 = lastPushed ops (nextOf k c) := by
  have hheld := h.held (nextOf k c) (Nat.le_of_eq (toNat_nextOf hbound).symm)
  rw [← hheld, ← h.nextSeq]
  cases hnext : b.buffer[b.nextSeq]? with
  | none => rw [pop_of_none hnext]
  | some frame => rw [pop_of_some hnext]

theorem follows_pop (h : Playing k c ops b) (hle : c ≤ n) (hstream : Stream k n ops) :
    Follows k n (c + (plays .pop (some b.pop.2)).toNat) (ops ++ [.pop]) b.pop.1 := by
  have hbound : k + c < 2 ^ 32 := Nat.lt_of_le_of_lt (by omega) hstream.bound
  have hpop := h.pop_eq hbound
  cases hnext : b.buffer[b.nextSeq]? with
  | none =>
    rw [pop_of_none hnext]
    refine ⟨hle, nofun, fun _ => ⟨h.nextSeq, fun s hs => ?_⟩⟩
    rw [lastPushed_pop]
    exact h.held s hs
  | some frame =>
    rw [pop_of_some hnext] at hpop ⊢
    have hrange := (hstream.range (by rw [← hpop]; rfl)).2
    rw [toNat_nextOf hbound] at hrange
    refine ⟨by change c + 1 ≤ n; omega, nofun, fun _ => ⟨?_, fun s hs => ?_⟩⟩
    · change b.nextSeq + 1 = nextOf k (c + 1)
      rw [h.nextSeq, nextOf, nextOf, ← Nat.add_assoc]
      exact (UInt32.ofNat_add _ _).symm
    · change k + (c + 1) ≤ s.toNat at hs
      have hne : s ≠ b.nextSeq := by
        rw [h.nextSeq]
        rintro rfl
        rw [toNat_nextOf hbound] at hs
        omega
      rw [lastPushed_pop]
      change (b.buffer.erase b.nextSeq)[s]? = _
      rw [getElem?_erase_ite, if_neg hne]
      exact h.held s (by omega)

end Steps

theorem played_concat (depth : ℕ) (ops : List Op) (op : Op) :
    played depth (ops ++ [op]) =
      played depth ops + (plays op (step (after step (new depth) ops) op).2).toNat :=
  countReplies_concat ..

theorem Stream.started (h : Stream k n (ops ++ [.pop])) :
    (lastPushed ops (UInt32.ofNat k)).isSome := by
  have hstart := h.start ops.length (by simp)
  rwa [List.take_left] at hstart

theorem follows_run (hstream : Stream k n ops) (hfits : EveryCall step (new depth) Fits ops) :
    Follows k n (played depth ops) ops (after step (new depth) ops) := by
  induction ops using List.reverseRecOn with
  | nil => exact follows_new k n depth
  | append_singleton ops op ih =>
    obtain ⟨hbefore, hlast⟩ := (everyCall_concat ..).mp hfits
    have h := ih hstream.init hbefore
    rw [after_concat, played_concat]
    cases op with
    | push sequence frame =>
      have hpush : (after step (new depth) ops).push sequence frame =
          (after step (new depth) ops).store sequence frame := dropOldest_of_le hlast
      change Follows k n (played depth ops) _ ((after step (new depth) ops).push sequence frame)
      rw [hpush]
      exact h.store sequence frame
    | pop => exact follows_pop (h.start hstream.init hstream.started) h.le hstream.init

/-- An attempt to play returns the next frame as it was last pushed, if it has come in. -/
theorem step_pop_of_stream (hstream : Stream k n (ops ++ [.pop]))
    (hfits : EveryCall step (new depth) Fits ops) :
    (step (after step (new depth) ops) .pop).2 =
      some (lastPushed ops (nextOf k (played depth ops))) := by
  have h := follows_run hstream.init hfits
  have hle := h.le
  have hbound := hstream.bound
  exact congrArg some ((h.start hstream.init hstream.started).pop_eq (by omega))

theorem Stream.take (h : Stream k n ops) (i : ℕ) : Stream k n (ops.take i) where
  bound := h.bound
  pushes sequence frame hmem := h.pushes sequence frame (List.mem_of_mem_take hmem)
  start j hj := by
    have hlt : j < (ops.take i).length := (List.getElem?_eq_some_iff.mp hj).1
    rw [List.length_take] at hlt
    rw [List.getElem?_take_of_lt (by omega)] at hj
    have hstart := h.start j hj
    rwa [List.take_take, Nat.min_eq_left (by omega)]

/-- All frames have come in. -/
def Complete (k n : ℕ) (ops : List Op) : Prop :=
  ∀ sequence : UInt32, k ≤ sequence.toNat → sequence.toNat < k + n →
    (lastPushed ops sequence).isSome

theorem lastPushed_pops (ops : List Op) (j : ℕ) :
    lastPushed (ops ++ List.replicate j .pop) = lastPushed ops := by
  induction j with
  | zero => rw [List.replicate_zero, List.append_nil]
  | succ j ih =>
    funext s
    rw [List.replicate_succ', ← List.append_assoc, lastPushed_pop, ih]

theorem Stream.pops (h : Stream k n ops) (hk : (lastPushed ops (UInt32.ofNat k)).isSome) (j : ℕ) :
    Stream k n (ops ++ List.replicate j .pop) where
  bound := h.bound
  pushes sequence frame hmem := by
    rcases List.mem_append.mp hmem with hmem | hmem
    · exact h.pushes sequence frame hmem
    · cases List.eq_of_mem_replicate hmem
  start i hi := by
    rcases Nat.lt_or_ge i ops.length with hlt | hge
    · rw [List.getElem?_append_left hlt] at hi
      rw [List.take_append_of_le_length (Nat.le_of_lt hlt)]
      exact h.start i hi
    · have htake : (ops ++ List.replicate j Op.pop).take i =
          ops ++ List.replicate (min (i - ops.length) j) Op.pop := by
        rw [List.take_append, List.take_of_length_le hge, List.take_replicate]
      rw [htake, lastPushed_pops]
      exact hk

theorem everyCall_fits_pops (hfits : EveryCall step (new depth) Fits ops) (j : ℕ) :
    EveryCall step (new depth) Fits (ops ++ List.replicate j .pop) := by
  induction j with
  | zero => rwa [List.replicate_zero, List.append_nil]
  | succ j ih =>
    rw [List.replicate_succ', ← List.append_assoc]
    exact (everyCall_concat ..).mpr ⟨ih, trivial⟩

/-- Once all frames have come in, every further attempt plays a frame. -/
theorem played_pops (hstream : Stream k n ops) (hfits : EveryCall step (new depth) Fits ops)
    (hall : Complete k n ops) {j : ℕ} (hj : played depth ops + j ≤ n) :
    played depth (ops ++ List.replicate j .pop) = played depth ops + j := by
  induction j with
  | zero => rw [List.replicate_zero, List.append_nil, Nat.add_zero]
  | succ j ih =>
    have hcount := ih (by omega)
    have hbound := hstream.bound
    have hk : (lastPushed ops (UInt32.ofNat k)).isSome := by
      have hnat : (UInt32.ofNat k).toNat = k := toNat_nextOf (c := 0) (by omega)
      exact hall _ (by omega) (by omega)
    have hnext : (lastPushed ops (nextOf k (played depth ops + j))).isSome := by
      have hnat := toNat_nextOf (k := k) (c := played depth ops + j) (by omega)
      exact hall _ (by omega) (by omega)
    have hpops := hstream.pops hk (j + 1)
    rw [List.replicate_succ', ← List.append_assoc] at hpops ⊢
    rw [played_concat, step_pop_of_stream hpops (everyCall_fits_pops hfits j), lastPushed_pops,
      hcount]
    obtain ⟨frame, hframe⟩ := Option.isSome_iff_exists.mp hnext
    rw [hframe]
    rfl

/-- In a stream of which no frame is dropped every attempt to play returns the next frame, as it
was last pushed, and fails only if that has not come in. Once all frames have come in, all can be
played. -/
theorem plays_stream {depth k n : ℕ} {ops : List Op} (hstream : Stream k n ops)
    (hfits : EveryCall step (new depth) Fits ops) :
    (∀ i : ℕ, ops[i]? = some .pop → reply step (new depth) ops i =
      some (some (lastPushed (ops.take i) (nextOf k (played depth (ops.take i)))))) ∧
    (Complete k n ops →
      played depth (ops ++ List.replicate (n - played depth ops) .pop) = n) := by
  constructor
  · intro i hi
    have htake : ops.take (i + 1) = ops.take i ++ [.pop] := by
      rw [List.take_add_one, hi]
      rfl
    have hstart : Stream k n (ops.take i ++ [.pop]) := htake ▸ hstream.take (i + 1)
    rw [reply_eq_some]
    exact ⟨.pop, hi, step_pop_of_stream hstart (hfits.take i)⟩
  · intro hall
    have hle := (follows_run hstream hfits).le
    rw [played_pops hstream hfits hall (by omega)]
    omega

/-- Two frames that come in the wrong order. -/
def swapped : List Op := [.push 6 [2], .push 5 [1], .pop]

theorem stream_swapped : Stream 5 2 swapped where
  bound := by decide
  pushes sequence frame hmem := by
    rcases List.mem_cons.mp hmem with h | hmem
    · cases h
      decide
    · rcases List.mem_cons.mp hmem with h | hmem
      · cases h
        decide
      · cases List.mem_singleton.mp hmem
  start := by
    rintro (_ | _ | _ | i) hi
    · cases hi
    · cases hi
    · rfl
    · cases hi

theorem fits_swapped : EveryCall step (new 2) Fits swapped := by
  have hfirst : ((new 2).store 6 [2]).Bounded := by unfold Bounded; decide
  have hpush : (new 2).push 6 [2] = (new 2).store 6 [2] := dropOldest_of_le hfirst
  refine (everyCall_cons ..).mpr ⟨hfirst, (everyCall_cons ..).mpr ⟨?_, ?_⟩⟩
  · change ((new 2).push 6 [2]).store 5 [1] |>.Bounded
    rw [hpush]
    unfold Bounded
    decide
  · exact (everyCall_cons ..).mpr ⟨trivial, everyCall_nil _ _ _⟩

/-- Frame 5 is played first. -/
theorem plays_swapped : reply step (new 2) swapped 2 = some (some (some [1])) :=
  (plays_stream stream_swapped fits_swapped).1 2 rfl

end JitterBuffer
end Cirradio.Voice
