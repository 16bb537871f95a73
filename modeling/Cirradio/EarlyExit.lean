import Mathlib.Tactic.Common

/-!
# Computations with early exits

What it takes for a computation with state and exceptions to end normally. The state
at an exit is kept, so a sequence ends normally exactly when each part does, and what
every part keeps, the sequence keeps, whether it ends normally or early.
-/

namespace Cirradio.EarlyExit

universe u
variable {ε σ α β : Type u}

/-- A sequence ends normally when both parts do. -/
theorem bind_eq_ok {x : EStateM ε σ α} {f : α → EStateM ε σ β} {s s'' : σ} {b : β} :
    (x >>= f) s = .ok b s'' ↔ ∃ a s', x s = .ok a s' ∧ f a s' = .ok b s'' := by
  constructor
  · intro h
    change EStateM.bind x f s = _ at h
    unfold EStateM.bind at h
    cases hx : x s with
    | ok a s' =>
      rw [hx] at h
      exact ⟨a, s', rfl, h⟩
    | error e s' =>
      rw [hx] at h
      cases h
  · rintro ⟨a, s', hx, hf⟩
    change EStateM.bind x f s = _
    unfold EStateM.bind
    rw [hx]
    exact hf

theorem bind_of_ok {x : EStateM ε σ α} {f : α → EStateM ε σ β} {s s' : σ} {a : α}
    (h : x s = .ok a s') : (x >>= f) s = f a s' := by
  change EStateM.bind x f s = _
  unfold EStateM.bind
  rw [h]

theorem exists_bind_ok {x : EStateM ε σ α} {f : α → EStateM ε σ β} {s s' : σ} {a : α} {b : β}
    (hx : x s = .ok a s') (hf : ∃ s'', f a s' = .ok b s'') : ∃ s'', (x >>= f) s = .ok b s'' := by
  obtain ⟨s'', hf⟩ := hf
  exact ⟨s'', bind_eq_ok.mpr ⟨a, s', hx, hf⟩⟩

/-- A sequence ends normally if its second part does after its first, which leaves some
state of a kind. -/
theorem exists_bind_ok_of_exists {τ : Sort*} {x : EStateM ε σ α} {f : α → EStateM ε σ β}
    {s : σ} {a : α} {b : β} {left : τ → σ} (hx : ∃ t, x s = .ok a (left t))
    (hf : ∀ t, ∃ s'', f a (left t) = .ok b s'') : ∃ s'', (x >>= f) s = .ok b s'' := by
  obtain ⟨t, hx⟩ := hx
  exact exists_bind_ok hx (hf t)

theorem pure_eq_ok {a b : α} {s s' : σ} :
    (pure a : EStateM ε σ α) s = .ok b s' ↔ a = b ∧ s = s' := by
  constructor
  · intro h
    cases h
    exact ⟨rfl, rfl⟩
  · rintro ⟨rfl, rfl⟩
    rfl

/-- A sequence ends early when its first part does, or its second part after it. -/
theorem bind_eq_error {x : EStateM ε σ α} {f : α → EStateM ε σ β} {s s'' : σ} {e : ε} :
    (x >>= f) s = .error e s'' ↔
      x s = .error e s'' ∨ ∃ a s', x s = .ok a s' ∧ f a s' = .error e s'' := by
  change EStateM.bind x f s = _ ↔ _
  unfold EStateM.bind
  cases x s with
  | ok a s' =>
    constructor
    · intro h
      exact .inr ⟨a, s', rfl, h⟩
    · rintro (h | ⟨a', s₁, heq, h⟩)
      · cases h
      · cases heq
        exact h
  | error e' s' =>
    constructor
    · intro h
      cases h
      exact .inl rfl
    · rintro (h | ⟨a', s₁, heq, -⟩)
      · cases h
        rfl
      · cases heq

/-- The state in which a computation ends, normally or early. -/
def endState : EStateM.Result ε σ α → σ
  | .ok _ s => s
  | .error _ s => s

/-- However it ends, the computation leaves a state related to the one before it. -/
def Keeps (R : σ → σ → Prop) (x : EStateM ε σ α) : Prop := ∀ s, R s (endState (x s))

section Keeps
variable {R : σ → σ → Prop} {x : EStateM ε σ α}

theorem Keeps.ok (h : Keeps R x) {s s' : σ} {a : α} (heq : x s = .ok a s') : R s s' := by
  have hend := h s
  rwa [heq] at hend

theorem Keeps.error (h : Keeps R x) {s s' : σ} {e : ε} (heq : x s = .error e s') : R s s' := by
  have hend := h s
  rwa [heq] at hend

theorem keeps_pure (hrefl : ∀ s, R s s) (a : α) : Keeps R (pure a : EStateM ε σ α) := hrefl

theorem Keeps.bind (htrans : ∀ {s s' s''}, R s s' → R s' s'' → R s s'')
    {f : α → EStateM ε σ β} (hx : Keeps R x) (hf : ∀ a, Keeps R (f a)) :
    Keeps R (x >>= f) := by
  intro s
  cases h : (x >>= f) s with
  | ok b s'' =>
    obtain ⟨a, s', hxs, hfs⟩ := bind_eq_ok.mp h
    exact htrans (hx.ok hxs) ((hf a).ok hfs)
  | error e s'' =>
    rcases bind_eq_error.mp h with hxs | ⟨a, s', hxs, hfs⟩
    · exact hx.error hxs
    · exact htrans (hx.ok hxs) ((hf a).error hfs)

theorem Keeps.ite {c : Prop} [Decidable c] {y : EStateM ε σ α} (hx : Keeps R x)
    (hy : Keeps R y) : Keeps R (if c then x else y) := by
  split
  · exact hx
  · exact hy

end Keeps

/-- The computation ends early, in a state with the property. -/
def ExitsIn (P : σ → Prop) (x : EStateM ε σ α) (s : σ) : Prop := ∃ e s', x s = .error e s' ∧ P s'

section ExitsIn
variable {P : σ → Prop} {x : EStateM ε σ α} {s : σ}

theorem exitsIn_bind {f : α → EStateM ε σ β} :
    ExitsIn P (x >>= f) s ↔ ExitsIn P x s ∨ ∃ a s', x s = .ok a s' ∧ ExitsIn P (f a) s' := by
  constructor
  · rintro ⟨e, s', h, hP⟩
    rcases bind_eq_error.mp h with hx | ⟨a, s₁, hx, hf⟩
    · exact .inl ⟨e, s', hx, hP⟩
    · exact .inr ⟨a, s₁, hx, e, s', hf, hP⟩
  · rintro (⟨e, s', hx, hP⟩ | ⟨a, s₁, hx, e, s', hf, hP⟩)
    · exact ⟨e, s', bind_eq_error.mpr (.inl hx), hP⟩
    · exact ⟨e, s', bind_eq_error.mpr (.inr ⟨a, s₁, hx, hf⟩), hP⟩

theorem exitsIn_bind_of_not {f : α → EStateM ε σ β} (h : ¬ ExitsIn P x s) :
    ExitsIn P (x >>= f) s ↔ ∃ a s', x s = .ok a s' ∧ ExitsIn P (f a) s' :=
  exitsIn_bind.trans (or_iff_right h)

theorem not_exitsIn_bind {f : α → EStateM ε σ β} (hx : ¬ ExitsIn P x s)
    (hf : ∀ a s', x s = .ok a s' → ¬ ExitsIn P (f a) s') : ¬ ExitsIn P (x >>= f) s := by
  rw [exitsIn_bind_of_not hx]
  rintro ⟨a, s', h, hexit⟩
  exact hf a s' h hexit

theorem not_exitsIn_of_ok {s' : σ} {a : α} (h : x s = .ok a s') : ¬ ExitsIn P x s := by
  rintro ⟨e, s'', hx, -⟩
  cases h.symm.trans hx

end ExitsIn

end Cirradio.EarlyExit
