import Mathlib.Data.DFinsupp.WellFounded
import Mathlib.Tactic.Common

/-!
# Loops with a turn limit

A loop is run for at most a given number of turns. What a program with such limits
returns is what it gives for every limit from some number on; such results compose, are
unique, and exist for a loop whose turns go down in a well-founded relation.
-/

namespace Cirradio.WhileLoops

variable {σ τ υ ι : Type}

/-- At most the given number of turns; a turn goes on with a state or ends with a
result, or has no result itself. -/
def loop (turn : σ → Option (σ ⊕ τ)) : ℕ → σ → Option τ
  | 0, _ => none
  | limit + 1, s =>
    match turn s with
    | none => none
    | some (.inl s') => loop turn limit s'
    | some (.inr t) => some t

/-- The result does not depend on the limit. -/
theorem loop_unique {turn : σ → Option (σ ⊕ τ)} {limit limit' : ℕ} {s : σ} {t t' : τ}
    (h : loop turn limit s = some t) (h' : loop turn limit' s = some t') : t = t' := by
  induction limit generalizing s limit' with
  | zero => cases h
  | succ limit ih =>
    cases limit' with
    | zero => cases h'
    | succ limit' =>
      unfold loop at h h'
      split at h
      · cases h
      · next s₁ hturn =>
        rw [hturn] at h'
        exact ih h h'
      · next t₁ hturn =>
        rw [hturn] at h'
        exact Option.some.inj (h.symm.trans h')

theorem loop_eq_some {turn : σ → Option (σ ⊕ τ)} (Inv : σ → Prop)
    (hstep : ∀ s s', Inv s → turn s = some (.inl s') → Inv s') {limit : ℕ} {s : σ} {t : τ}
    (hs : Inv s) (h : loop turn limit s = some t) : ∃ s', Inv s' ∧ turn s' = some (.inr t) := by
  induction limit generalizing s with
  | zero => cases h
  | succ limit ih =>
    unfold loop at h
    split at h
    · cases h
    · next s' hturn => exact ih (hstep s s' hs hturn) h
    · next t' hturn =>
      cases h
      exact ⟨s, hs, hturn⟩

/-- A loop that does more than another one, and goes on and ends with it, has its result. -/
theorem map_loop {σ' τ' : Type} {turn : σ → Option (σ ⊕ τ)} {turn' : σ' → Option (σ' ⊕ τ')}
    (g : σ' → σ) (h : τ' → τ) (hturn : ∀ s, (turn' s).map (Sum.map g h) = turn (g s))
    (limit : ℕ) (s : σ') : (loop turn' limit s).map h = loop turn limit (g s) := by
  induction limit generalizing s with
  | zero => rfl
  | succ limit ih =>
    unfold loop
    rw [← hturn s]
    cases turn' s with
    | none => rfl
    | some next =>
      cases next with
      | inl s' => exact ih s'
      | inr t => rfl

/-- The result at every limit from some number on. -/
def Returns (f : ℕ → Option τ) (t : τ) : Prop := ∃ n, ∀ m, n ≤ m → f m = some t

theorem Returns.unique {f : ℕ → Option τ} {t t' : τ} (h : Returns f t) (h' : Returns f t') :
    t = t' := by
  obtain ⟨n, hn⟩ := h
  obtain ⟨n', hn'⟩ := h'
  have heq := (hn _ (Nat.le_max_left n n')).symm.trans (hn' _ (Nat.le_max_right n n'))
  exact Option.some.inj heq

theorem Returns.pure (t : τ) : Returns (fun _ => some t) t := ⟨0, fun _ _ => rfl⟩

theorem Returns.bind {f : ℕ → Option τ} {g : ℕ → τ → Option υ} {t : τ} {u : υ}
    (h : Returns f t) (h' : Returns (fun n => g n t) u) :
    Returns (fun n => f n >>= g n) u := by
  obtain ⟨n, hn⟩ := h
  obtain ⟨n', hn'⟩ := h'
  refine ⟨max n n', fun m hm => ?_⟩
  change f m >>= g m = some u
  rw [hn m (Nat.le_trans (Nat.le_max_left n n') hm)]
  exact hn' m (Nat.le_trans (Nat.le_max_right n n') hm)

theorem Returns.map {f : ℕ → Option τ} {t : τ} (h : Returns f t) (g : τ → υ) :
    Returns (fun n => (f n).map g) (g t) := by
  obtain ⟨n, hn⟩ := h
  refine ⟨n, fun m hm => ?_⟩
  change (f m).map g = some (g t)
  rw [hn m hm, Option.map_some]

theorem exists_returns_foldlM {f : ℕ → υ → ι → Option υ} (Inv : υ → Prop) (is : List ι)
    (hstep : ∀ i ∈ is, ∀ u, Inv u → ∃ u', Returns (fun n => f n u i) u' ∧ Inv u')
    {u : υ} (hu : Inv u) :
    ∃ u', Returns (fun n => is.foldlM (f n) u) u' ∧ Inv u' := by
  induction is generalizing u with
  | nil => exact ⟨u, .pure u, hu⟩
  | cons i is ih =>
    obtain ⟨u₁, hfirst, hu₁⟩ := hstep i List.mem_cons_self u hu
    obtain ⟨u', hrest, hu'⟩ := ih (fun j hj => hstep j (List.mem_cons_of_mem i hj)) hu₁
    refine ⟨u', ?_, hu'⟩
    simp only [List.foldlM_cons]
    exact hfirst.bind hrest

/-- A loop has a result, whatever the limits of its turns and of the loop from some
number on. -/
def Ends (turn : ℕ → σ → Option (σ ⊕ τ)) (s : σ) (t : τ) : Prop :=
  ∃ n, ∀ m k, n ≤ m → n ≤ k → loop (turn m) k s = some t

theorem Ends.returns {turn : ℕ → σ → Option (σ ⊕ τ)} {s : σ} {t : τ} (h : Ends turn s t) :
    Returns (fun n => loop (turn n) n s) t := by
  obtain ⟨n, hn⟩ := h
  exact ⟨n, fun m hm => hn m m hm hm⟩

theorem Ends.of_inr {turn : ℕ → σ → Option (σ ⊕ τ)} {s : σ} {t : τ}
    (h : Returns (fun n => turn n s) (.inr t)) : Ends turn s t := by
  obtain ⟨n, hn⟩ := h
  refine ⟨n + 1, fun m k hm hk => ?_⟩
  obtain ⟨k, rfl⟩ : ∃ k', k = k' + 1 := ⟨k - 1, by omega⟩
  simp only [loop, hn m (by omega)]

theorem Ends.of_inl {turn : ℕ → σ → Option (σ ⊕ τ)} {s s' : σ} {t : τ}
    (h : Returns (fun n => turn n s) (.inl s')) (h' : Ends turn s' t) : Ends turn s t := by
  obtain ⟨n, hn⟩ := h
  obtain ⟨n', hn'⟩ := h'
  refine ⟨max n n' + 1, fun m k hm hk => ?_⟩
  obtain ⟨k, rfl⟩ : ∃ k', k = k' + 1 := ⟨k - 1, by omega⟩
  simp only [loop, hn m (by omega)]
  exact hn' m k (by omega) (by omega)

/-- A loop whose turns follow those of another one ends when that one has ended. -/
theorem exists_ends_of_loop {σ' τ' : Type} {turn : ℕ → σ → Option (σ ⊕ τ)}
    {turn' : σ' → Option (σ' ⊕ τ')} (R : σ' → σ → Prop) (R' : τ' → τ → Prop)
    (hturn : ∀ s' s next', R s' s → turn' s' = some next' →
      ∃ next, Returns (fun n => turn n s) next ∧ Sum.LiftRel R R' next' next)
    {limit : ℕ} {s' : σ'} {s : σ} {t' : τ'} (hs : R s' s)
    (h : loop turn' limit s' = some t') : ∃ t, Ends turn s t ∧ R' t' t := by
  induction limit generalizing s' s with
  | zero => cases h
  | succ limit ih =>
    unfold loop at h
    split at h
    · cases h
    · next s₁' hnext =>
      obtain ⟨next, hreturns, hrel⟩ := hturn s' s _ hs hnext
      cases hrel with
      | inl hs₁ =>
        obtain ⟨t, hends, ht⟩ := ih hs₁ h
        exact ⟨t, .of_inl hreturns hends, ht⟩
    · next t₁' hnext =>
      cases h
      obtain ⟨next, hreturns, hrel⟩ := hturn s' s _ hs hnext
      cases hrel with
      | inr ht => exact ⟨_, .of_inr hreturns, ht⟩

/-- A loop whose turns keep an invariant and go down ends, from a state with the
invariant in which it ends. -/
theorem exists_ends {turn : σ → σ ⊕ τ} {r : σ → σ → Prop} (hwf : WellFounded r)
    (Inv : σ → Prop) (hstep : ∀ s s', Inv s → turn s = .inl s' → Inv s' ∧ r s' s)
    {s : σ} (hs : Inv s) :
    ∃ s' t, Inv s' ∧ turn s' = .inr t ∧ Ends (fun _ s => some (turn s)) s t := by
  induction s using hwf.induction with
  | _ s ih =>
    cases hturn : turn s with
    | inr t =>
      refine ⟨s, t, hs, hturn, .of_inr ?_⟩
      rw [hturn]
      exact .pure _
    | inl s₁ =>
      obtain ⟨hs₁, hdown⟩ := hstep s s₁ hs hturn
      obtain ⟨s', t, hs', hend, hends⟩ := ih s₁ hdown hs₁
      refine ⟨s', t, hs', hend, .of_inl ?_ hends⟩
      rw [hturn]
      exact .pure _

end Cirradio.WhileLoops
