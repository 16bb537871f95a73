import Mathlib.Data.List.Induction
import Mathlib.Tactic.Common

/-!
# Runs of a machine that answers calls

A machine is a step function from a state and a call to the next state and the
reply. A run is a list of calls. Facts about whole runs are proved by adding one
call at the end, so that an invariant may mention the calls made so far.
-/

namespace Cirradio.CallRuns

universe u v w
variable {σ : Type u} {κ : Type v} {ρ : Type w}

/-- The state after a list of calls. -/
def after (step : σ → κ → σ × ρ) (s : σ) (calls : List κ) : σ :=
  calls.foldl (fun s c => (step s c).1) s

/-- The reply to the call at a position, given in the state its predecessors leave. -/
def reply (step : σ → κ → σ × ρ) (s : σ) (calls : List κ) (i : ℕ) : Option ρ :=
  calls[i]?.map fun c => (step (after step s (calls.take i)) c).2

variable (step : σ → κ → σ × ρ) (s : σ)

@[simp] theorem after_nil : after step s [] = s := rfl

@[simp] theorem after_cons (c : κ) (calls : List κ) :
    after step s (c :: calls) = after step (step s c).1 calls := rfl

@[simp] theorem after_append (calls more : List κ) :
    after step s (calls ++ more) = after step (after step s calls) more :=
  List.foldl_append

theorem after_concat (calls : List κ) (c : κ) :
    after step s (calls ++ [c]) = (step (after step s calls) c).1 := by simp

/-- Induction along a run. The invariant relates the calls made so far to the
state they leave. -/
theorem run_induction (Inv : List κ → σ → Prop) (start : Inv [] s)
    (next : ∀ calls c, Inv calls (after step s calls) →
      Inv (calls ++ [c]) (step (after step s calls) c).1) :
    ∀ calls, Inv calls (after step s calls) := by
  intro calls
  induction calls using List.reverseRecOn with
  | nil => exact start
  | append_singleton calls c ih =>
    rw [after_concat]
    exact next calls c ih

theorem invariant_after (Inv : σ → Prop) (start : Inv s)
    (next : ∀ s c, Inv s → Inv (step s c).1) (calls : List κ) :
    Inv (after step s calls) :=
  run_induction step s (fun _ s => Inv s) start (fun _ c h => next _ c h) calls

variable {step s}

theorem reply_eq_some {calls : List κ} {i : ℕ} {r : ρ} :
    reply step s calls i = some r ↔
      ∃ c, calls[i]? = some c ∧ (step (after step s (calls.take i)) c).2 = r := by
  simp [reply]

theorem reply_append {calls more : List κ} {i : ℕ} (hi : i < calls.length) :
    reply step s (calls ++ more) i = reply step s calls i := by
  rw [reply, reply, List.getElem?_append_left hi, List.take_append_of_le_length (Nat.le_of_lt hi)]

variable (step s)

/-- A condition on the state before a call and the call holds at every call of a run. -/
def EveryCall (p : σ → κ → Prop) (calls : List κ) : Prop :=
  ∀ i c, calls[i]? = some c → p (after step s (calls.take i)) c

/-- A property holds in every state of a run. -/
def EveryState (Good : σ → Prop) (calls : List κ) : Prop :=
  ∀ i, Good (after step s (calls.take i))

theorem everyCall_nil (p : σ → κ → Prop) : EveryCall step s p [] := by
  intro i c hc
  cases hc

theorem everyCall_concat {p : σ → κ → Prop} {calls : List κ} {c : κ} :
    EveryCall step s p (calls ++ [c]) ↔ EveryCall step s p calls ∧ p (after step s calls) c := by
  constructor
  · intro h
    refine ⟨fun i c' hc' => ?_, ?_⟩
    · have hi : i < calls.length := (List.getElem?_eq_some_iff.mp hc').1
      have hlater := h i c' (by rw [List.getElem?_append_left hi]; exact hc')
      rwa [List.take_append_of_le_length (Nat.le_of_lt hi)] at hlater
    · have hlast := h calls.length c (by simp)
      rwa [List.take_left] at hlast
  · rintro ⟨hcalls, hlast⟩ i c' hc'
    rcases Nat.lt_trichotomy i calls.length with hi | hi | hi
    · rw [List.getElem?_append_left hi] at hc'
      rw [List.take_append_of_le_length (Nat.le_of_lt hi)]
      exact hcalls i c' hc'
    · subst hi
      rw [List.getElem?_concat_length] at hc'
      cases hc'
      rwa [List.take_left]
    · have hlen : (calls ++ [c]).length ≤ i := by
        rw [List.length_append, List.length_singleton]
        exact hi
      rw [List.getElem?_eq_none hlen] at hc'
      cases hc'

theorem everyCall_append {p : σ → κ → Prop} {calls more : List κ} :
    EveryCall step s p (calls ++ more) ↔
      EveryCall step s p calls ∧ EveryCall step (after step s calls) p more := by
  induction more using List.reverseRecOn with
  | nil =>
    rw [List.append_nil]
    exact (and_iff_left (everyCall_nil step _ p)).symm
  | append_singleton more c ih =>
    rw [← List.append_assoc, everyCall_concat, everyCall_concat, ih, after_append, and_assoc]

theorem everyCall_cons {p : σ → κ → Prop} {c : κ} {calls : List κ} :
    EveryCall step s p (c :: calls) ↔ p s c ∧ EveryCall step (step s c).1 p calls := by
  have hfirst : EveryCall step s p ([] ++ [c]) ↔ _ := everyCall_concat step s
  rw [List.nil_append] at hfirst
  rw [← List.singleton_append, everyCall_append, hfirst]
  exact and_congr_left' (and_iff_right (everyCall_nil step s p))

variable {step s} in
theorem EveryCall.take {p : σ → κ → Prop} {calls : List κ} (h : EveryCall step s p calls)
    (n : ℕ) : EveryCall step s p (calls.take n) := by
  intro i c hc
  have hi : i < (calls.take n).length := (List.getElem?_eq_some_iff.mp hc).1
  rw [List.length_take] at hi
  have hin : i < n := by omega
  rw [List.getElem?_take_of_lt hin] at hc
  rw [List.take_take, Nat.min_eq_left (Nat.le_of_lt hin)]
  exact h i c hc

theorem everyState_concat {Good : σ → Prop} {calls : List κ} {c : κ} :
    EveryState step s Good (calls ++ [c]) ↔
      EveryState step s Good calls ∧ Good (step (after step s calls) c).1 := by
  constructor
  · intro h
    refine ⟨fun i => ?_, ?_⟩
    · rcases Nat.le_total i calls.length with hi | hi
      · have hearlier := h i
        rwa [List.take_append_of_le_length hi] at hearlier
      · have hend := h calls.length
        rw [List.take_left] at hend
        rwa [List.take_of_length_le hi]
    · have hlast := h (calls.length + 1)
      rw [← after_concat]
      rwa [List.take_of_length_le (by simp)] at hlast
  · rintro ⟨hcalls, hlast⟩ i
    rcases Nat.lt_or_ge calls.length i with hi | hi
    · have hlen : (calls ++ [c]).length ≤ i := by
        rw [List.length_append, List.length_singleton]
        exact hi
      rw [List.take_of_length_le hlen, after_concat]
      exact hlast
    · rw [List.take_append_of_le_length hi]
      exact hcalls i

/-- Where a condition on the calls says which of them keep a property, the property holds
in every state of a run exactly if every call meets the condition. -/
theorem everyState_iff_everyCall {Good : σ → Prop} {p : σ → κ → Prop} (start : Good s)
    (next : ∀ s c, Good s → (Good (step s c).1 ↔ p s c)) (calls : List κ) :
    EveryState step s Good calls ↔ EveryCall step s p calls := by
  induction calls using List.reverseRecOn with
  | nil => exact ⟨fun _ => everyCall_nil step s p, fun _ i => by rwa [List.take_nil]⟩
  | append_singleton calls c ih =>
    rw [everyState_concat, everyCall_concat, ih]
    constructor
    · rintro ⟨hcalls, hlast⟩
      have hstate := ih.mpr hcalls calls.length
      rw [List.take_length] at hstate
      exact ⟨hcalls, (next _ c hstate).mp hlast⟩
    · rintro ⟨hcalls, hlast⟩
      have hstate := ih.mpr hcalls calls.length
      rw [List.take_length] at hstate
      exact ⟨hcalls, (next _ c hstate).mpr hlast⟩

/-- How many calls of a run are counted by a predicate on the call and its reply. -/
def countReplies (p : κ → ρ → Bool) : σ → List κ → ℕ
  | _, [] => 0
  | s, c :: calls => (p c (step s c).2).toNat + countReplies p (step s c).1 calls

theorem countReplies_append (p : κ → ρ → Bool) (calls more : List κ) :
    countReplies step p s (calls ++ more) =
      countReplies step p s calls + countReplies step p (after step s calls) more := by
  induction calls generalizing s with
  | nil => simp [countReplies]
  | cons c calls ih => simp [countReplies, ih, Nat.add_assoc]

theorem countReplies_concat (p : κ → ρ → Bool) (calls : List κ) (c : κ) :
    countReplies step p s (calls ++ [c]) =
      countReplies step p s calls + (p c (step (after step s calls) c).2).toNat := by
  simp [countReplies_append, countReplies]

theorem countReplies_take_le (p : κ → ρ → Bool) (calls : List κ) {i j : ℕ} (hij : i ≤ j) :
    countReplies step p s (calls.take i) ≤ countReplies step p s (calls.take j) := by
  have hsplit : calls.take j = calls.take i ++ (calls.drop i).take (j - i) := by
    rw [← List.take_add, Nat.add_sub_cancel' hij]
  rw [hsplit, countReplies_append]
  omega

theorem after_take_succ {calls : List κ} {i : ℕ} {c : κ} (hc : calls[i]? = some c) :
    after step s (calls.take (i + 1)) = (step (after step s (calls.take i)) c).1 := by
  rw [List.take_add_one, hc, Option.toList_some, after_concat]

theorem countReplies_take_succ (p : κ → ρ → Bool) {calls : List κ} {i : ℕ} {c : κ}
    (hc : calls[i]? = some c)
    (hp : p c (step (after step s (calls.take i)) c).2 = true) :
    countReplies step p s (calls.take (i + 1)) = countReplies step p s (calls.take i) + 1 := by
  rw [List.take_add_one, hc, Option.toList_some, countReplies_concat, hp, Bool.toNat_true]

/-- What the calls of a run yield, each in the state before it. -/
def events {α : Type*} (f : σ → κ → List α) : σ → List κ → List α
  | _, [] => []
  | s, c :: calls => f s c ++ events f (step s c).1 calls

theorem events_append {α : Type*} (f : σ → κ → List α) (calls more : List κ) :
    events step f s (calls ++ more) =
      events step f s calls ++ events step f (after step s calls) more := by
  induction calls generalizing s with
  | nil => rfl
  | cons c calls ih =>
    rw [List.cons_append, events, events, ih, List.append_assoc]
    rfl

theorem events_concat {α : Type*} (f : σ → κ → List α) (calls : List κ) (c : κ) :
    events step f s (calls ++ [c]) = events step f s calls ++ f (after step s calls) c := by
  rw [events_append, events, events, List.append_nil]

theorem length_toList {α : Type*} (x : Option α) : x.toList.length = x.isSome.toNat := by
  cases x <;> rfl

/-- What calls lose is never made good: a run that has got all that was due has lost nothing. -/
theorem everyCall_of_balance (got due : List κ → ℕ) (lost : σ → κ → Bool) {p : σ → κ → Prop}
    (kept : ∀ s c, lost s c = false → p s c) (start : got [] = due [])
    (next : ∀ calls c, got (calls ++ [c]) + (lost (after step s calls) c).toNat + due calls =
      got calls + due (calls ++ [c])) (calls : List κ) :
    got calls ≤ due calls ∧ (got calls = due calls → EveryCall step s p calls) := by
  induction calls using List.reverseRecOn with
  | nil => exact ⟨Nat.le_of_eq start, fun _ => everyCall_nil step s p⟩
  | append_singleton calls c ih =>
    obtain ⟨hle, hall⟩ := ih
    have hcycle := next calls c
    refine ⟨by omega, fun hsum => (everyCall_concat step s).mpr ⟨hall (by omega), kept _ _ ?_⟩⟩
    rw [← Bool.toNat_eq_zero]
    omega

/-- The replies of a run, in order. -/
def replies : σ → List κ → List ρ
  | _, [] => []
  | s, c :: calls => (step s c).2 :: replies (step s c).1 calls

theorem replies_append (calls more : List κ) :
    replies step s (calls ++ more) =
      replies step s calls ++ replies step (after step s calls) more := by
  induction calls generalizing s with
  | nil => rfl
  | cons c calls ih => exact congrArg ((step s c).2 :: ·) (ih (step s c).1)

variable {step} in
/-- Related states give the same replies, if a step keeps the relation and its reply does not tell
the states apart. -/
theorem replies_eq_of_rel {R : σ → σ → Prop}
    (next : ∀ s s' c, R s s' → (step s c).2 = (step s' c).2 ∧ R (step s c).1 (step s' c).1)
    {s s' : σ} (h : R s s') (calls : List κ) : replies step s calls = replies step s' calls := by
  induction calls generalizing s s' with
  | nil => rfl
  | cons c calls ih =>
    obtain ⟨hreply, hnext⟩ := next s s' c h
    exact congrArg₂ List.cons hreply (ih hnext)

universe t
variable {ι : Type t} [DecidableEq ι]

/-- Several machines, each call addressed to one of them. -/
def parallel (m : ι → σ) (c : ι × κ) : (ι → σ) × ρ :=
  (Function.update m c.1 (step (m c.1) c.2).1, (step (m c.1) c.2).2)

variable {step}

@[simp] theorem parallel_self (m : ι → σ) (i : ι) (c : κ) :
    (parallel step m (i, c)).1 i = (step (m i) c).1 := Function.update_self ..

theorem parallel_of_ne (m : ι → σ) {i j : ι} (c : κ) (h : j ≠ i) :
    (parallel step m (i, c)).1 j = m j := Function.update_of_ne h ..

@[simp] theorem parallel_reply (m : ι → σ) (c : ι × κ) :
    (parallel step m c).2 = (step (m c.1) c.2).2 := rfl

theorem invariant_after_parallel (Inv : σ → Prop) (next : ∀ s c, Inv s → Inv (step s c).1)
    {m : ι → σ} (start : ∀ i, Inv (m i)) (calls : List (ι × κ)) (i : ι) :
    Inv (after (parallel step) m calls i) := by
  refine invariant_after (parallel step) m (fun m => ∀ i, Inv (m i)) start ?_ calls i
  rintro m ⟨j, c⟩ h i
  by_cases hij : i = j
  · subst hij
    rw [parallel_self]
    exact next _ _ (h i)
  · rw [parallel_of_ne _ _ hij]
    exact h i

end Cirradio.CallRuns
