import Cirradio.JitterBuffer

/-!
# Attempts to play from an empty jitter buffer

The first attempt to play fixes the frame that is next. An attempt before any frame has come in
fixes frame 0, and the stream that follows is played only if it comes to be at the frame that
would have been next without it.
-/

namespace Cirradio.Voice
namespace JitterBuffer
open OrderedMaps CallRuns

variable {b b' : JitterBuffer}

def pushes (frames : List (UInt32 × VoiceFrame)) : List Op :=
  frames.map fun f => .push f.1 f.2

/-- A fresh jitter buffer that has been polled. -/
def polled (depth : ℕ) : JitterBuffer := { new depth with firstPush := false }

theorem pop_of_empty (h : b.buffer = ∅) : b.pop = ({ b with firstPush := false }, none) := by
  refine pop_of_none ?_
  rw [h]
  exact Std.ExtTreeMap.getElem?_empty

/-- Attempts to play from a fresh jitter buffer all fail. -/
theorem replies_polls (depth n : ℕ) (ops : List Op) :
    replies step (new depth) (List.replicate (n + 1) .pop ++ ops) =
      List.replicate (n + 1) (some none) ++ replies step (polled depth) ops := by
  have hpolled : ∀ n, replies step (polled depth) (List.replicate n .pop ++ ops) =
      List.replicate n (some none) ++ replies step (polled depth) ops := by
    intro n
    induction n with
    | zero => rfl
    | succ n ih =>
      have hpop : (polled depth).pop = (polled depth, none) := pop_of_empty rfl
      change some (polled depth).pop.2 :: replies step (polled depth).pop.1 _ = _
      rw [hpop]
      exact congrArg (some none :: ·) ih
  have hpop : (new depth).pop = (polled depth, none) := pop_of_empty rfl
  change some (new depth).pop.2 :: replies step (new depth).pop.1 _ = _
  rw [hpop]
  exact congrArg (some none :: ·) (hpolled n)

/-- The same frames are held, and equally many may be. -/
structure SameFrames (b b' : JitterBuffer) : Prop where
  depth : b'.depth = b.depth
  buffer : b'.buffer = b.buffer
  bounded : b.Bounded

theorem SameFrames.bounded' (h : SameFrames b b') : b'.Bounded := by
  have hb : b.buffer.size ≤ b.depth := h.bounded
  unfold Bounded
  rwa [h.depth, h.buffer]

theorem SameFrames.store_buffer (h : SameFrames b b') (sequence : UInt32) (frame : VoiceFrame) :
    (b'.store sequence frame).buffer = (b.store sequence frame).buffer := by
  change b'.buffer.insert sequence frame = b.buffer.insert sequence frame
  rw [h.buffer]

theorem SameFrames.push_of_fits (h : SameFrames b b') {sequence : UInt32} {frame : VoiceFrame}
    (hfits : (b.store sequence frame).Bounded) :
    b'.push sequence frame = b'.store sequence frame := by
  have hsize : (b.store sequence frame).buffer.size ≤ b.depth := hfits
  refine dropOldest_of_le ?_
  change (b'.store sequence frame).buffer.size ≤ b'.depth
  rwa [h.store_buffer, h.depth]

/-- Which frames are dropped does not depend on which one is next. -/
theorem SameFrames.push (h : SameFrames b b') (sequence : UInt32) (frame : VoiceFrame) :
    SameFrames (b.push sequence frame) (b'.push sequence frame) := by
  have hstore := h.store_buffer sequence frame
  refine ⟨?_, ?_, bounded_push h.bounded⟩
  · rw [depth_push h.bounded', depth_push h.bounded, h.depth]
  · rcases push_cases h.bounded sequence frame with ⟨hfits, heq⟩ | ⟨oldest, hmin, hsize, heq⟩
    · rw [heq, h.push_of_fits hfits, hstore]
    · rcases push_cases h.bounded' sequence frame with ⟨hfits', -⟩ | ⟨oldest', hmin', -, heq'⟩
      · have hover : (b'.store sequence frame).buffer.size ≤ b'.depth := hfits'
        rw [hstore, h.depth] at hover
        omega
      · rw [hstore] at hmin'
        cases hmin.symm.trans hmin'
        rw [heq, heq']
        exact congrArg (·.erase oldest) hstore

theorem replies_of_depth_zero (hb : b.Bounded) (hb' : b'.Bounded) (hzero : b.depth = 0)
    (hzero' : b'.depth = 0) (ops : List Op) : replies step b ops = replies step b' ops := by
  have hempty : ∀ b : JitterBuffer, b.Bounded ∧ b.depth = 0 → b.buffer[b.nextSeq]? = none := by
    rintro b ⟨hb, hzero⟩
    have hsize : b.buffer.size = 0 := Nat.le_zero.mp (hzero ▸ hb)
    rw [Std.ExtTreeMap.eq_empty_iff_size_eq_zero.mpr hsize]
    exact Std.ExtTreeMap.getElem?_empty
  have hdepth : ∀ (b : JitterBuffer) (op : Op), b.Bounded ∧ b.depth = 0 →
      (b.step op).1.Bounded ∧ (b.step op).1.depth = 0 := by
    rintro b op ⟨hb, hzero⟩
    refine ⟨bounded_step hb op, ?_⟩
    cases op with
    | push sequence frame => exact (depth_push hb).trans hzero
    | pop =>
      change b.pop.1.depth = 0
      rw [pop_of_none (hempty b ⟨hb, hzero⟩)]
      exact hzero
  refine replies_eq_of_rel
    (R := fun b b' => (b.Bounded ∧ b.depth = 0) ∧ (b'.Bounded ∧ b'.depth = 0)) ?_
    ⟨⟨hb, hzero⟩, hb', hzero'⟩ ops
  rintro b b' op ⟨h, h'⟩
  refine ⟨?_, hdepth b op h, hdepth b' op h'⟩
  cases op with
  | push sequence frame => rfl
  | pop =>
    change some b.pop.2 = some b'.pop.2
    rw [pop_of_none (hempty b h), pop_of_none (hempty b' h')]

/-- No frame is held that comes before the next one. -/
def NextLowest (b : JitterBuffer) : Prop := ∀ j ∈ b.buffer, b.nextSeq ≤ j

theorem toNat_add_one_of_lt {i j : UInt32} (h : i < j) : (i + 1).toNat = i.toNat + 1 := by
  have hlt : i.toNat < j.toNat := h
  have hj := j.toNat_lt
  rw [UInt32.toNat_add]
  refine Nat.mod_eq_of_lt ?_
  change i.toNat + 1 < 2 ^ 32
  omega

theorem add_one_le_of_lt {i j : UInt32} (h : i < j) : i + 1 ≤ j := by
  rw [UInt32.le_iff_toNat_le, toNat_add_one_of_lt h]
  exact h

theorem NextLowest.drop (h : b.NextLowest) {oldest : UInt32}
    (hmin : b.buffer.minKey? = some oldest) : (b.drop oldest).NextLowest := by
  intro j hj
  obtain ⟨hne, hmem⟩ := mem_erase_iff.mp hj
  have hle := (minKey?_eq_some_iff.mp hmin).2 j hmem
  unfold JitterBuffer.drop
  split_ifs with hnext
  · exact add_one_le_of_lt (hnext ▸ UInt32.lt_of_le_of_ne hle fun heq => hne heq.symm)
  · exact h j hmem

/-- Before the first attempt to play the lowest number is next after every push. -/
theorem nextLowest_push_first (hb : b.Bounded) (hfirst : b.firstPush = true) (sequence : UInt32)
    (frame : VoiceFrame) : (b.push sequence frame).NextLowest := by
  have hstore : (b.store sequence frame).NextLowest := by
    intro j hj
    cases hmin : (b.store sequence frame).buffer.minKey? with
    | none =>
      rw [Std.ExtTreeMap.minKey?_eq_none_iff.mp hmin] at hj
      exact absurd hj Std.ExtTreeMap.not_mem_empty
    | some oldest =>
      rw [nextSeq_store hmin, if_pos hfirst]
      exact (minKey?_eq_some_iff.mp hmin).2 j hj
  rcases push_cases hb sequence frame with ⟨-, heq⟩ | ⟨oldest, hmin, -, heq⟩
  · rw [heq]
    exact hstore
  · rw [heq]
    exact hstore.drop hmin

/-- Without an attempt to play between them, pushes move the next frame only where they drop it,
and then the buffer is full. -/
structure Polled (b : JitterBuffer) : Prop where
  firstPush : b.firstPush = false
  full : b.nextSeq = 0 ∨ b.buffer.size = b.depth
  lowest : b.NextLowest

theorem polled_polled (depth : ℕ) : (polled depth).Polled where
  firstPush := rfl
  full := .inl rfl
  lowest _ hj := absurd hj Std.ExtTreeMap.not_mem_empty

theorem nextSeq_store_polled (hfirst : b.firstPush = false) (sequence : UInt32)
    (frame : VoiceFrame) : (b.store sequence frame).nextSeq = b.nextSeq := by
  unfold store
  rw [hfirst]
  rfl

theorem Polled.nextLowest_store (h : b.Polled) {sequence : UInt32} (hle : b.nextSeq ≤ sequence)
    (frame : VoiceFrame) : (b.store sequence frame).NextLowest := by
  intro j hj
  rw [nextSeq_store_polled h.firstPush]
  rcases mem_insert_iff.mp hj with rfl | hold
  · exact hle
  · exact h.lowest j hold

/-- A frame that comes before the next one is the one that is dropped. -/
theorem Polled.nextLowest_drop (h : b.Polled) {sequence oldest : UInt32}
    (hbefore : ¬ b.nextSeq ≤ sequence) {frame : VoiceFrame}
    (hmin : (b.store sequence frame).buffer.minKey? = some oldest) :
    ((b.store sequence frame).drop oldest).NextLowest := by
  obtain ⟨hmem, holdest⟩ := minKey?_eq_some_iff.mp hmin
  have hseq : oldest ≤ sequence := holdest sequence (mem_insert_iff.mpr (.inl rfl))
  have hdropped : oldest = sequence := by
    refine (mem_insert_iff.mp hmem).resolve_right fun hold => hbefore ?_
    exact UInt32.le_trans (h.lowest oldest hold) hseq
  subst hdropped
  have hne : oldest ≠ b.nextSeq := fun heq => hbefore (heq ▸ UInt32.le_refl _)
  intro j hj
  obtain ⟨hnot, hold⟩ := mem_erase_iff.mp hj
  unfold JitterBuffer.drop
  rw [nextSeq_store_polled h.firstPush, if_neg hne]
  exact h.lowest j ((mem_insert_iff.mp hold).resolve_left hnot)

theorem Polled.push (h : b.Polled) (hb : b.Bounded) (sequence : UInt32) (frame : VoiceFrame) :
    (b.push sequence frame).Polled := by
  have hnext := nextSeq_store_polled h.firstPush sequence frame
  have hfirst : (b.push sequence frame).firstPush = false :=
    (firstPush_push hb).trans h.firstPush
  rcases push_cases hb sequence frame with ⟨hfits, heq⟩ | ⟨oldest, hmin, hsize, heq⟩
  · rw [heq] at hfirst ⊢
    have hgrow : b.buffer.size ≤ (b.store sequence frame).buffer.size :=
      Std.ExtTreeMap.size_le_size_insert
    have hdepth : (b.store sequence frame).buffer.size ≤ b.depth := hfits
    rcases h.full with hzero | hfull
    · exact ⟨hfirst, .inl (hnext.trans hzero), h.nextLowest_store (hzero ▸ UInt32.zero_le) frame⟩
    · have hmem : sequence ∈ b.buffer := by
        by_contra hnot
        change (b.buffer.insert sequence frame).size ≤ b.depth at hdepth
        rw [size_insert_of_not_mem hnot] at hdepth
        omega
      exact ⟨hfirst, .inr (Nat.le_antisymm hdepth (hfull ▸ hgrow)),
        h.nextLowest_store (h.lowest _ hmem) frame⟩
  · rw [heq] at hfirst ⊢
    have hleft := size_erase_add_one (Std.ExtTreeMap.minKey?_mem hmin)
    have hfull : ((b.store sequence frame).drop oldest).buffer.size = b.depth := by
      change ((b.store sequence frame).buffer.erase oldest).size = b.depth
      omega
    refine ⟨hfirst, .inr hfull, ?_⟩
    by_cases hle : b.nextSeq ≤ sequence
    · exact (h.nextLowest_store hle frame).drop hmin
    · exact h.nextLowest_drop hle hmin

theorem SameFrames.symm (h : SameFrames b b') : SameFrames b' b :=
  ⟨h.depth.symm, h.buffer.symm, h.bounded'⟩

/-- The frame that is next has come in for one of the two and not for the other. -/
theorem replies_pop_ne (h : SameFrames b b') (hnone : b.nextSeq ∉ b.buffer)
    (hsome : b'.nextSeq ∈ b.buffer) (ops : List Op) :
    replies step b (.pop :: ops) ≠ replies step b' (.pop :: ops) := by
  intro heq
  have hfails : b.pop.2 = none := by
    rw [pop_of_none (Std.ExtTreeMap.getElem?_eq_none hnone)]
  obtain ⟨frame, hframe⟩ := exists_of_mem hsome
  have hplays : b'.pop.2 = some frame := by
    rw [pop_of_some (h.buffer ▸ hframe)]
  have hhead := (List.cons.inj heq).1
  change some b.pop.2 = some b'.pop.2 at hhead
  rw [hfails, hplays] at hhead
  cases hhead

theorem not_mem_of_lowest {m : Std.ExtTreeMap UInt32 VoiceFrame} {i j : UInt32} (hlt : i < j)
    (hlowest : ∀ k ∈ m, j ≤ k) : i ∉ m :=
  fun hmem => absurd hlt (UInt32.not_lt.mpr (hlowest i hmem))

/-- A full buffer drops a frame that comes before all that it holds. -/
theorem push_below (hfull : b.buffer.size = b.depth) (hfirst : b.firstPush = false)
    {sequence : UInt32} (hbelow : ∀ j ∈ b.buffer, sequence < j) (frame : VoiceFrame) :
    b.push sequence frame =
      { b with nextSeq := if sequence = b.nextSeq then b.nextSeq + 1 else b.nextSeq } := by
  have hnot : sequence ∉ b.buffer := fun h => UInt32.lt_irrefl _ (hbelow sequence h)
  have hsize : (b.store sequence frame).buffer.size = b.buffer.size + 1 :=
    size_insert_of_not_mem hnot
  have hmin : (b.store sequence frame).buffer.minKey? = some sequence := by
    refine minKey?_eq_some_iff.mpr ⟨mem_insert_iff.mpr (.inl rfl), fun j hj => ?_⟩
    rcases mem_insert_iff.mp hj with rfl | hold
    · exact UInt32.le_refl _
    · exact UInt32.le_of_lt (hbelow j hold)
  have herase : (b.buffer.insert sequence frame).erase sequence = b.buffer := by
    refine Std.ExtTreeMap.ext_getElem? fun j => ?_
    rw [getElem?_erase_ite, getElem?_insert_ite]
    split_ifs with hj
    · rw [hj, Std.ExtTreeMap.getElem?_eq_none hnot]
    · rfl
  rcases push_cases (Nat.le_of_eq hfull) sequence frame with ⟨hfits, -⟩ | ⟨oldest, hmin', -, heq⟩
  · have hfew : (b.store sequence frame).buffer.size ≤ b.depth := hfits
    omega
  · cases hmin.symm.trans hmin'
    have hnext := nextSeq_store_polled hfirst sequence frame
    rw [heq]
    unfold drop
    rw [hnext]
    change JitterBuffer.mk _ _ _ ((b.buffer.insert sequence frame).erase sequence) = _
    rw [herase]
    rfl

/-- Where the buffer is full, the frames between the next one and the lowest that is held move the
next frame up to it without being kept. -/
theorem exists_replies_ne_of_full (n : ℕ) (h : SameFrames b b') (hfull : b.buffer.size = b.depth)
    (hfirst : b.firstPush = false) (hfirst' : b'.firstPush = false) (hlt : b.nextSeq < b'.nextSeq)
    (hlowest : ∀ j ∈ b.buffer, b'.nextSeq ≤ j) {q : UInt32} (hq : q ∈ b.buffer)
    (hnear : q.toNat ≤ b'.nextSeq.toNat + n) :
    ∃ ops, replies step b ops ≠ replies step b' ops := by
  induction n generalizing b b' with
  | zero =>
    have hsame : b'.nextSeq = q :=
      UInt32.le_antisymm (hlowest q hq) (UInt32.le_iff_toNat_le.mpr hnear)
    have hnone := not_mem_of_lowest hlt hlowest
    exact ⟨[.pop], replies_pop_ne h hnone (hsame ▸ hq) []⟩
  | succ n ih =>
    by_cases hmem : b'.nextSeq ∈ b.buffer
    · have hnone := not_mem_of_lowest hlt hlowest
      exact ⟨[.pop], replies_pop_ne h hnone hmem []⟩
    · have hbelow : ∀ j ∈ b.buffer, b'.nextSeq < j := fun j hj =>
        UInt32.lt_of_le_of_ne (hlowest j hj) fun heq => hmem (heq ▸ hj)
      have hne : b'.nextSeq ≠ b.nextSeq := fun heq => UInt32.lt_irrefl _ (heq ▸ hlt)
      have hpush := push_below hfull hfirst hbelow []
      rw [if_neg hne] at hpush
      have hfull' : b'.buffer.size = b'.depth := by rw [h.buffer, h.depth, hfull]
      have hpush' := push_below hfull' hfirst' (h.buffer ▸ hbelow) []
      rw [if_pos rfl] at hpush'
      have hnat := toNat_add_one_of_lt (hbelow q hq)
      have hnext : b.nextSeq < b'.nextSeq + 1 := by
        have hlt' : b.nextSeq.toNat < b'.nextSeq.toNat := hlt
        rw [UInt32.lt_iff_toNat_lt, hnat]
        omega
      have hlater : SameFrames b { b' with nextSeq := b'.nextSeq + 1 } :=
        ⟨h.depth, h.buffer, h.bounded⟩
      have hnear' : q.toNat ≤ (b'.nextSeq + 1).toNat + n := by omega
      obtain ⟨ops, hops⟩ := ih hlater hfull hfirst hfirst' hnext
        (fun j hj => add_one_le_of_lt (hbelow j hj)) hq hnear'
      refine ⟨.push b'.nextSeq [] :: ops, fun heq => hops ?_⟩
      have htail := (List.cons.inj heq).2
      change replies step (b.push b'.nextSeq []) ops =
        replies step (b'.push b'.nextSeq []) ops at htail
      rwa [hpush, hpush'] at htail

section Different
variable (h : SameFrames b b') (hpos : 0 < b.depth) (hlt : b.nextSeq < b'.nextSeq)
  (hlowest : ∀ j ∈ b.buffer, b'.nextSeq ≤ j)
include h hpos hlt hlowest

theorem exists_replies_ne (hfirst : b.firstPush = false) (hfirst' : b'.firstPush = false) :
    ∃ ops, replies step b ops ≠ replies step b' ops := by
  rcases Nat.lt_or_ge b.buffer.size b.depth with hspace | hfull
  · -- there is room for the frame that is next for one of the two
    have hsize : (b.store b'.nextSeq []).buffer.size ≤ b.buffer.size + 1 :=
      Std.ExtTreeMap.size_insert_le
    have hfits : (b.store b'.nextSeq []).Bounded := Nat.le_trans hsize hspace
    have hpush : b.push b'.nextSeq [] = b.store b'.nextSeq [] := dropOldest_of_le hfits
    have hpush' : b'.push b'.nextSeq [] = b'.store b'.nextSeq [] := h.push_of_fits hfits
    have hsame := h.push b'.nextSeq []
    have hnone : b.nextSeq ∉ b.buffer.insert b'.nextSeq [] := by
      rw [mem_insert_iff]
      rintro (heq | hmem)
      · exact UInt32.lt_irrefl _ (heq ▸ hlt)
      · exact not_mem_of_lowest hlt hlowest hmem
    rw [hpush, hpush'] at hsame
    refine ⟨[.push b'.nextSeq [], .pop], fun heq => ?_⟩
    have htail := (List.cons.inj heq).2
    change replies step (b.push b'.nextSeq []) [.pop] =
      replies step (b'.push b'.nextSeq []) [.pop] at htail
    rw [hpush, hpush'] at htail
    refine replies_pop_ne hsame ?_ ?_ [] htail
    · rw [nextSeq_store_polled hfirst]
      exact hnone
    · rw [nextSeq_store_polled hfirst']
      exact mem_insert_iff.mpr (.inl rfl)
  · have hsize : b.buffer.size = b.depth := Nat.le_antisymm h.bounded hfull
    cases hmin : b.buffer.minKey? with
    | none =>
      rw [Std.ExtTreeMap.minKey?_eq_none_iff.mp hmin] at hsize
      exact absurd hsize (Nat.ne_of_lt hpos)
    | some q =>
      exact exists_replies_ne_of_full (q.toNat - b'.nextSeq.toNat) h hsize hfirst hfirst' hlt
        hlowest (Std.ExtTreeMap.minKey?_mem hmin) (by omega)

theorem exists_replies_pop_ne :
    ∃ ops, replies step b (.pop :: ops) ≠ replies step b' (.pop :: ops) := by
  have hnone := not_mem_of_lowest hlt hlowest
  by_cases hmem : b'.nextSeq ∈ b.buffer
  · exact ⟨[], replies_pop_ne h hnone hmem []⟩
  · have hpolled : SameFrames { b with firstPush := false } { b' with firstPush := false } :=
      ⟨h.depth, h.buffer, h.bounded⟩
    obtain ⟨ops, hops⟩ := exists_replies_ne hpolled hpos hlt hlowest rfl rfl
    refine ⟨ops, fun heq => hops ?_⟩
    have hpop := pop_of_none (Std.ExtTreeMap.getElem?_eq_none hnone)
    have hpop' := pop_of_none (Std.ExtTreeMap.getElem?_eq_none (h.buffer ▸ hmem))
    have htail := (List.cons.inj heq).2
    change replies step b.pop.1 ops = replies step b'.pop.1 ops at htail
    rwa [hpop, hpop'] at htail

end Different

theorem replies_pop_eq (h : SameFrames b b') (hnext : b.nextSeq = b'.nextSeq) (ops : List Op) :
    replies step b (.pop :: ops) = replies step b' (.pop :: ops) := by
  have hsame : ({ b with firstPush := false } : JitterBuffer) = { b' with firstPush := false } := by
    obtain ⟨depth, nextSeq, firstPush, buffer⟩ := b
    obtain ⟨depth', nextSeq', firstPush', buffer'⟩ := b'
    obtain ⟨rfl, rfl, -⟩ := h
    cases hnext
    rfl
  have hpop : b.pop = b'.pop :=
    calc b.pop = ({ b with firstPush := false } : JitterBuffer).pop := rfl
      _ = ({ b' with firstPush := false } : JitterBuffer).pop := by rw [hsame]
      _ = b'.pop := rfl
  change some b.pop.2 :: replies step b.pop.1 ops = some b'.pop.2 :: replies step b'.pop.1 ops
  rw [hpop]

section Runs
variable (depth : ℕ) (frames : List (UInt32 × VoiceFrame))

theorem pushes_concat (f : UInt32 × VoiceFrame) :
    pushes (frames ++ [f]) = pushes frames ++ [.push f.1 f.2] := List.map_append

theorem after_pushes_concat (b : JitterBuffer) (f : UInt32 × VoiceFrame) :
    after step b (pushes (frames ++ [f])) = (after step b (pushes frames)).push f.1 f.2 := by
  rw [pushes_concat, after_concat]
  rfl

theorem sameFrames_after : SameFrames (after step (new depth) (pushes frames))
    (after step (polled depth) (pushes frames)) := by
  induction frames using List.reverseRecOn with
  | nil => exact ⟨rfl, rfl, bounded_new depth⟩
  | append_singleton frames f ih =>
    rw [after_pushes_concat, after_pushes_concat]
    exact ih.push f.1 f.2

theorem nextLowest_after : (after step (new depth) (pushes frames)).firstPush = true ∧
    (after step (new depth) (pushes frames)).NextLowest := by
  induction frames using List.reverseRecOn with
  | nil => exact ⟨rfl, fun _ hj => absurd hj Std.ExtTreeMap.not_mem_empty⟩
  | append_singleton frames f ih =>
    have hbounded := (sameFrames_after depth frames).bounded
    rw [after_pushes_concat]
    exact ⟨(firstPush_push hbounded).trans ih.1, nextLowest_push_first hbounded ih.1 f.1 f.2⟩

theorem polled_after : (after step (polled depth) (pushes frames)).Polled := by
  induction frames using List.reverseRecOn with
  | nil => exact polled_polled depth
  | append_singleton frames f ih =>
    rw [after_pushes_concat]
    exact ih.push (sameFrames_after depth frames).bounded' f.1 f.2

theorem depth_after : (after step (new depth) (pushes frames)).depth = depth := by
  induction frames using List.reverseRecOn with
  | nil => rfl
  | append_singleton frames f ih =>
    rw [after_pushes_concat]
    exact (depth_push (sameFrames_after depth frames).bounded).trans ih

/-- Behind the pushes the same frame is next as without the attempts to play before them. -/
def SameNext : Prop :=
  (after step (new depth) (pushes frames)).nextSeq =
    (after step (polled depth) (pushes frames)).nextSeq

theorem replies_pushes (b : JitterBuffer) :
    replies step b (pushes frames) = List.replicate frames.length none := by
  induction frames generalizing b with
  | nil => rfl
  | cons f frames ih => exact congrArg (none :: ·) (ih (b.push f.1 f.2))

theorem replies_pop_eq_iff :
    (∀ ops, replies step (after step (polled depth) (pushes frames)) (.pop :: ops) =
        replies step (after step (new depth) (pushes frames)) (.pop :: ops)) ↔
      depth = 0 ∨ SameNext depth frames := by
  have hsame := sameFrames_after depth frames
  have hdepth := depth_after depth frames
  obtain ⟨-, hnew⟩ := nextLowest_after depth frames
  have hpolled := (polled_after depth frames).lowest
  constructor
  · intro h
    by_contra hnot
    obtain ⟨hzero, hne⟩ := not_or.mp hnot
    have hpos : 0 < (after step (new depth) (pushes frames)).depth := by omega
    rcases UInt32.lt_or_lt_of_ne hne with hlt | hlt
    · obtain ⟨ops, hops⟩ := exists_replies_pop_ne hsame hpos hlt (hsame.buffer ▸ hpolled)
      exact hops (h ops).symm
    · have hpos' := hsame.depth ▸ hpos
      obtain ⟨ops, hops⟩ := exists_replies_pop_ne hsame.symm hpos' hlt (hsame.buffer ▸ hnew)
      exact hops (h ops)
  · rintro (hzero | hnext) ops
    · have hdepth' := hsame.depth.trans (hdepth.trans hzero)
      exact replies_of_depth_zero hsame.bounded' hsame.bounded hdepth' (hdepth.trans hzero) _
    · exact (replies_pop_eq hsame hnext ops).symm

variable {depth frames} in
/-- What pushes that all fit leave: all their frames, of which the lowest is next, and after an
attempt to play frame 0. -/
theorem after_of_fits (hfits : EveryCall step (new depth) Fits (pushes frames)) :
    (∀ s, s ∈ (after step (new depth) (pushes frames)).buffer ↔ ∃ frame, (s, frame) ∈ frames) ∧
      (frames ≠ [] → (after step (new depth) (pushes frames)).buffer.minKey? =
        some (after step (new depth) (pushes frames)).nextSeq) ∧
      (after step (polled depth) (pushes frames)).nextSeq = 0 := by
  induction frames using List.reverseRecOn with
  | nil =>
    refine ⟨fun s => iff_of_false Std.ExtTreeMap.not_mem_empty ?_, fun h => absurd rfl h, rfl⟩
    rintro ⟨_, hmem⟩
    cases hmem
  | append_singleton frames f ih =>
    rw [pushes_concat] at hfits
    obtain ⟨hbefore, hlast⟩ := (everyCall_concat ..).mp hfits
    obtain ⟨hmem, -, hzero⟩ := ih hbefore
    have hsame := sameFrames_after depth frames
    have hfirst := (nextLowest_after depth frames).1
    have hpush : (after step (new depth) (pushes frames)).push f.1 f.2 =
        (after step (new depth) (pushes frames)).store f.1 f.2 := dropOldest_of_le hlast
    have hpush' : (after step (polled depth) (pushes frames)).push f.1 f.2 =
        (after step (polled depth) (pushes frames)).store f.1 f.2 := hsame.push_of_fits hlast
    rw [after_pushes_concat, after_pushes_concat, hpush, hpush']
    refine ⟨fun s => ?_, fun _ => ?_, ?_⟩
    · refine mem_insert_iff.trans ?_
      rw [hmem]
      simp only [List.mem_append, List.mem_singleton]
      constructor
      · rintro (rfl | ⟨frame, hold⟩)
        · exact ⟨f.2, .inr rfl⟩
        · exact ⟨frame, .inl hold⟩
      · rintro ⟨frame, hold | rfl⟩
        · exact .inr ⟨frame, hold⟩
        · exact .inl rfl
    · obtain ⟨oldest, hmin⟩ : ∃ oldest,
          ((after step (new depth) (pushes frames)).store f.1 f.2).buffer.minKey? = some oldest :=
        Option.isSome_iff_exists.mp Std.ExtTreeMap.isSome_minKey?_insert
      rw [nextSeq_store hmin, if_pos hfirst, hmin]
    · rw [nextSeq_store_polled (polled_after depth frames).firstPush]
      exact hzero

variable {depth frames} in
theorem sameNext_iff_of_fits (hfits : EveryCall step (new depth) Fits (pushes frames)) :
    SameNext depth frames ↔ frames = [] ∨ ∃ frame, (0, frame) ∈ frames := by
  obtain ⟨hmem, hlowest, hzero⟩ := after_of_fits hfits
  rw [SameNext, hzero, ← hmem 0]
  by_cases hnil : frames = []
  · subst hnil
    exact iff_of_true rfl (.inl rfl)
  · obtain ⟨hnext, hle⟩ := minKey?_eq_some_iff.mp (hlowest hnil)
    rw [or_iff_right hnil]
    constructor
    · intro heq
      exact heq ▸ hnext
    · intro hheld
      exact UInt32.le_antisymm (hle 0 hheld) UInt32.zero_le

end Runs

/-- In a new buffer, and a reset one is as new, attempts to play before the first frame comes
change no result of pushes, and none of what follows, whatever that is, exactly if the depth is 0
or the same frame is next as without them. If the pushes before the next attempt fit in the
buffer, there are none or frame 0 is among them. -/
theorem polls_harmless_iff (depth n : ℕ) (frames : List (UInt32 × VoiceFrame)) :
    (∀ b : JitterBuffer, b.depth = depth → b.reset = new depth) ∧
      replies step (new depth) (List.replicate (n + 1) .pop ++ pushes frames) =
        List.replicate (n + 1) (some none) ++ replies step (new depth) (pushes frames) ∧
      ((∀ ops, replies step (new depth)
          (List.replicate (n + 1) .pop ++ (pushes frames ++ .pop :: ops)) =
            List.replicate (n + 1) (some none) ++
              replies step (new depth) (pushes frames ++ .pop :: ops)) ↔
        depth = 0 ∨ SameNext depth frames) ∧
      (EveryCall step (new depth) Fits (pushes frames) →
        (SameNext depth frames ↔ frames = [] ∨ ∃ frame, (0, frame) ∈ frames)) := by
  refine ⟨?_, ?_, ?_, sameNext_iff_of_fits⟩
  · rintro b rfl
    exact reset_eq_new b
  · rw [replies_polls, replies_pushes, replies_pushes]
  · rw [← replies_pop_eq_iff]
    refine forall_congr' fun ops => ?_
    rw [replies_polls, replies_append, replies_append, replies_pushes, replies_pushes,
      List.append_cancel_left_eq, List.append_cancel_left_eq]

/-- Attempts to play before the first frame comes change no later result. -/
def PollsHarmless : Prop :=
  ∀ (depth n : ℕ) (ops : List Op), replies step (new depth) (List.replicate n .pop ++ ops) =
    List.replicate n (some none) ++ replies step (new depth) ops

/-- The stream starts with frame 5, and after an attempt to play frame 0 is waited for. -/
theorem not_pollsHarmless : ¬ PollsHarmless := by
  intro h
  have hfits : EveryCall step (new 5) Fits (pushes [(5, [1])]) := by
    refine (everyCall_cons ..).mpr ⟨?_, everyCall_nil _ _ _⟩
    change ((new 5).store 5 [1]).Bounded
    unfold Bounded
    decide
  obtain ⟨hmem, hlowest, hzero⟩ := after_of_fits hfits
  have hsame := (sameFrames_after 5 [(5, [1])]).symm
  refine replies_pop_ne hsame ?_ ?_ [] ?_
  · rw [hzero, ← hsame.buffer, hmem]
    rintro ⟨frame, hframe⟩
    cases List.mem_singleton.mp hframe
  · rw [← hsame.buffer]
    exact (minKey?_eq_some_iff.mp (hlowest (List.cons_ne_nil _ _))).1
  · have hrun := h 5 1 (pushes [(5, [1])] ++ [.pop])
    rw [replies_polls 5 0, replies_append, replies_append, replies_pushes, replies_pushes,
      List.append_cancel_left_eq, List.append_cancel_left_eq] at hrun
    exact hrun

end JitterBuffer
end Cirradio.Voice
