import Cirradio.CallRuns
import Cirradio.OrderedMaps
import Mathlib.Algebra.Group.Nat.Defs
import Mathlib.Order.Basic

/-!
# The jitter buffer

Voice frames are kept under their sequence numbers and played in order. Up to the first
attempt to play, playback is to start with the lowest number in the buffer. A buffer that
holds too many frames drops the oldest ones.
-/

namespace Cirradio.Voice
open OrderedMaps CallRuns

abbrev VoiceFrame := List Int16

structure JitterBuffer where
  depth : ℕ
  nextSeq : UInt32
  firstPush : Bool
  buffer : Std.ExtTreeMap UInt32 VoiceFrame

namespace JitterBuffer

def new (depth : ℕ) : JitterBuffer where
  depth := depth
  nextSeq := 0
  firstPush := true
  buffer := ∅

def reset (b : JitterBuffer) : JitterBuffer :=
  { b with buffer := ∅, nextSeq := 0, firstPush := true }

theorem reset_eq_new (b : JitterBuffer) : b.reset = new b.depth := rfl

/-- A frame is dropped. If it is the next to be played, the one after it is. -/
def drop (b : JitterBuffer) (oldest : UInt32) : JitterBuffer :=
  { b with
    nextSeq := if oldest = b.nextSeq then b.nextSeq + 1 else b.nextSeq
    buffer := b.buffer.erase oldest }

/-- While the buffer holds too many frames, the oldest is dropped. -/
def dropOldest (b : JitterBuffer) : JitterBuffer :=
  if b.depth < b.buffer.size then
    match _hmin : b.buffer.minKey? with
    | some oldest => dropOldest (b.drop oldest)
    | none => b
  else b
termination_by b.buffer.size
decreasing_by
  have hsize := size_erase_add_one (Std.ExtTreeMap.minKey?_mem _hmin)
  change (b.buffer.erase oldest).size < b.buffer.size
  omega

/-- A frame has come in. Before the first attempt to play, the lowest number is next. -/
def store (b : JitterBuffer) (sequence : UInt32) (frame : VoiceFrame) : JitterBuffer :=
  let buffer := b.buffer.insert sequence frame
  { b with buffer, nextSeq := if b.firstPush then buffer.minKey?.getD b.nextSeq else b.nextSeq }

def push (b : JitterBuffer) (sequence : UInt32) (frame : VoiceFrame) : JitterBuffer :=
  dropOldest (b.store sequence frame)

def pop (b : JitterBuffer) : JitterBuffer × Option VoiceFrame :=
  match b.buffer[b.nextSeq]? with
  | none => ({ b with firstPush := false }, none)
  | some frame =>
    ({ b with firstPush := false, buffer := b.buffer.erase b.nextSeq, nextSeq := b.nextSeq + 1 },
      some frame)

inductive Op where
  | push (sequence : UInt32) (frame : VoiceFrame)
  | pop
  deriving DecidableEq, Repr

/-- An operation, and what it returns; `push` returns nothing. -/
def step (b : JitterBuffer) : Op → JitterBuffer × Option (Option VoiceFrame)
  | .push sequence frame => (b.push sequence frame, none)
  | .pop => (b.pop.1, some b.pop.2)

variable {b : JitterBuffer} {sequence oldest : UInt32} {frame : VoiceFrame}

/-- The buffer holds no more frames than it may. -/
def Bounded (b : JitterBuffer) : Prop := b.buffer.size ≤ b.depth

/-- The push drops no frame. -/
def Fits (b : JitterBuffer) : Op → Prop
  | .push sequence frame => (b.store sequence frame).Bounded
  | .pop => True

theorem bounded_new (depth : ℕ) : (new depth).Bounded := Nat.zero_le depth

theorem dropOldest_of_le (h : b.buffer.size ≤ b.depth) : b.dropOldest = b := by
  rw [dropOldest, if_neg (Nat.not_lt.mpr h)]

theorem dropOldest_of_lt (h : b.depth < b.buffer.size) :
    ∃ oldest, b.buffer.minKey? = some oldest ∧ b.dropOldest = (b.drop oldest).dropOldest := by
  rw [dropOldest, if_pos h]
  split
  · next oldest holdest => exact ⟨oldest, holdest, rfl⟩
  · next hnone =>
    rw [Std.ExtTreeMap.minKey?_eq_none_iff.mp hnone] at h
    exact absurd h (Nat.not_lt_zero _)

/-- Before the first attempt to play, the oldest frame is next when a frame has come in. -/
theorem nextSeq_store (hmin : (b.store sequence frame).buffer.minKey? = some oldest) :
    (b.store sequence frame).nextSeq = if b.firstPush then oldest else b.nextSeq := by
  change (b.buffer.insert sequence frame).minKey? = some oldest at hmin
  unfold store
  simp only [hmin, Option.getD_some]

/-- What a `push` leaves of a bounded buffer: at most one frame is dropped. -/
theorem push_cases (h : b.Bounded) (sequence : UInt32) (frame : VoiceFrame) :
    ((b.store sequence frame).Bounded ∧ b.push sequence frame = b.store sequence frame) ∨
      ∃ oldest, (b.store sequence frame).buffer.minKey? = some oldest ∧
        (b.store sequence frame).buffer.size = b.depth + 1 ∧
        b.push sequence frame = (b.store sequence frame).drop oldest := by
  unfold push
  rcases Nat.lt_or_ge b.depth (b.store sequence frame).buffer.size with hover | hfits
  · have hsize : (b.store sequence frame).buffer.size ≤ b.buffer.size + 1 :=
      Std.ExtTreeMap.size_insert_le
    have hdepth : b.buffer.size ≤ b.depth := h
    obtain ⟨oldest, holdest, hdrop⟩ := dropOldest_of_lt (b := b.store sequence frame) hover
    have hleft := size_erase_add_one (Std.ExtTreeMap.minKey?_mem holdest)
    have hfew : ((b.store sequence frame).drop oldest).Bounded := by
      change ((b.store sequence frame).buffer.erase oldest).size ≤ b.depth
      omega
    rw [hdrop, dropOldest_of_le hfew]
    exact .inr ⟨oldest, holdest, by omega, rfl⟩
  · exact .inl ⟨hfits, dropOldest_of_le hfits⟩

theorem depth_push (h : b.Bounded) : (b.push sequence frame).depth = b.depth := by
  rcases push_cases h sequence frame with ⟨-, heq⟩ | ⟨oldest, -, -, heq⟩
  · rw [heq]
    rfl
  · rw [heq]
    rfl

theorem bounded_push (h : b.Bounded) : (b.push sequence frame).Bounded := by
  rcases push_cases h sequence frame with ⟨hfits, heq⟩ | ⟨oldest, holdest, hsize, heq⟩
  · rw [heq]
    exact hfits
  · have hleft := size_erase_add_one (Std.ExtTreeMap.minKey?_mem holdest)
    rw [heq]
    change ((b.store sequence frame).buffer.erase oldest).size ≤ b.depth
    omega

theorem firstPush_push (h : b.Bounded) : (b.push sequence frame).firstPush = b.firstPush := by
  rcases push_cases h sequence frame with ⟨-, heq⟩ | ⟨oldest, -, -, heq⟩
  · rw [heq]
    rfl
  · rw [heq]
    rfl

theorem exists_of_mem {m : Std.ExtTreeMap UInt32 VoiceFrame} {k : UInt32} (h : k ∈ m) :
    ∃ frame, m[k]? = some frame := by
  rw [← Option.isSome_iff_exists, Std.ExtTreeMap.isSome_getElem?_iff_mem]
  exact h

theorem pop_of_none (h : b.buffer[b.nextSeq]? = none) :
    b.pop = ({ b with firstPush := false }, none) := by
  unfold pop
  rw [h]

theorem pop_of_some (h : b.buffer[b.nextSeq]? = some frame) :
    b.pop = ({ b with
      firstPush := false, buffer := b.buffer.erase b.nextSeq, nextSeq := b.nextSeq + 1 },
      some frame) := by
  unfold pop
  rw [h]

theorem bounded_pop (h : b.Bounded) : b.pop.1.Bounded := by
  cases hnext : b.buffer[b.nextSeq]? with
  | none =>
    rw [pop_of_none hnext]
    exact h
  | some frame =>
    rw [pop_of_some hnext]
    exact Nat.le_trans Std.ExtTreeMap.size_erase_le h

theorem bounded_step (h : b.Bounded) (op : Op) : (b.step op).1.Bounded := by
  cases op with
  | push sequence frame => exact bounded_push h
  | pop => exact bounded_pop h

theorem bounded_after (depth : ℕ) (ops : List Op) : (after step (new depth) ops).Bounded :=
  invariant_after step (new depth) Bounded (bounded_new depth) (fun _ op h => bounded_step h op) ops

end JitterBuffer
end Cirradio.Voice
