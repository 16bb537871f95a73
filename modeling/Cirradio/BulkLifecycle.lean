import Cirradio.ComponentManager
import Mathlib.Data.List.TakeWhile

/-!
# Stepping all components

The bulk operations step the registered components in the order of their names and stop at the
first that refuses or throws. Those before it stay stepped. However the components have drifted
apart in this way, as many rounds as there are components bring them all back to idle.
-/

namespace Cirradio.Core
open EarlyExit CallRuns

variable {α : Type} [DecidableEq α]

namespace World

/-- The components have made their steps. -/
def advanceAll (w : World α) (t : Component.Transition) (components : List α) : World α :=
  components.foldl (fun w component => w.advance t component) w

theorem state_advanceAll (w : World α) (t : Component.Transition) (components : List α)
    (other : α) :
    (w.advanceAll t components).state other =
      if other ∈ components then t.leaves else w.state other := by
  induction components generalizing w with
  | nil => rfl
  | cons component components ih =>
    change ((w.advance t component).advanceAll t components).state other = _
    rw [ih]
    by_cases hlater : other ∈ components
    · rw [if_pos hlater, if_pos (List.mem_cons_of_mem _ hlater)]
    · rw [if_neg hlater]
      change Function.update w.state component t.leaves other = _
      by_cases hfirst : other = component
      · rw [hfirst, Function.update_self, if_pos List.mem_cons_self]
      · rw [Function.update_of_ne hfirst, if_neg]
        exact fun hmem => (List.mem_cons.mp hmem).elim hfirst hlater

theorem components_advanceAll (w : World α) (t : Component.Transition) (components : List α) :
    (w.advanceAll t components).components = w.components := by
  induction components generalizing w with
  | nil => rfl
  | cons component components ih => exact ih _

end World

namespace Component

/-- Nothing keeps the components from a step: they are in the state it asks for, none of their
hooks throws, and none is there twice. -/
structure Ready (w : World α) (t : Transition) (throws : α → Bool) (components : List α) :
    Prop where
  nodup : components.Nodup
  needs : ∀ component ∈ components, w.state component = t.need
  returns : ∀ component ∈ components, throws component = false

/-- How stepping components one after the other ends. -/
inductive Outcome (w : World α) (t : Transition) (throws : α → Bool) (components : List α) :
    EStateM.Result Failure (World α) Unit → Prop
  | stepped (ready : Ready w t throws components) :
    Outcome w t throws components (.ok () (w.advanceAll t components))
  | refused {before component later} (hsplit : components = before ++ component :: later)
    (ready : Ready w t throws before)
    (hstate : w.state component ≠ t.need ∨ component ∈ before) :
    Outcome w t throws components (.error (.runtimeError t.refusal) (w.advanceAll t before))
  | thrown {before component later} (hsplit : components = before ++ component :: later)
    (ready : Ready w t throws before) (hneed : w.state component = t.need)
    (hnew : component ∉ before) (hthrows : throws component = true) :
    Outcome w t throws components
      (.error .thrown ((w.advanceAll t before).record component t.hook false))

variable {t : Transition} {throws : α → Bool} {w : World α} {component : α} {components : List α}

/-- Before components that are ready behind the step of another, the other is ready. -/
theorem Ready.cons (hregular : t.need ≠ t.leaves) (hneed : w.state component = t.need)
    (hreturns : throws component = false)
    (h : Ready (w.advance t component) t throws components) :
    Ready w t throws (component :: components) := by
  have hstate : ∀ other ∈ components,
      other ≠ component ∧ w.state other = t.need := by
    intro other hother
    have hneeds := h.needs other hother
    change Function.update w.state component t.leaves other = t.need at hneeds
    by_cases hsame : other = component
    · rw [hsame, Function.update_self] at hneeds
      exact absurd hneeds.symm hregular
    · rw [Function.update_of_ne hsame] at hneeds
      exact ⟨hsame, hneeds⟩
  refine ⟨List.nodup_cons.mpr ⟨fun hmem => (hstate component hmem).1 rfl, h.nodup⟩, ?_, ?_⟩
  · exact List.forall_mem_cons.mpr ⟨hneed, fun other hother => (hstate other hother).2⟩
  · exact List.forall_mem_cons.mpr ⟨hreturns, h.returns⟩

/-- What keeps a component from the step of another is its own state or that it is the other. -/
theorem state_advance_ne_iff (hregular : t.need ≠ t.leaves) {other : α} :
    (w.advance t component).state other ≠ t.need ↔
      w.state other ≠ t.need ∨ other = component := by
  change Function.update w.state component t.leaves other ≠ t.need ↔ _
  by_cases hsame : other = component
  · rw [hsame, Function.update_self]
    exact iff_of_true hregular.symm (.inr rfl)
  · rw [Function.update_of_ne hsame]
    exact (or_iff_left hsame).symm

/-- A component that makes its step comes before the outcome of the rest. -/
theorem Outcome.cons (hregular : t.need ≠ t.leaves) (hneed : w.state component = t.need)
    (hreturns : throws component = false) {result : EStateM.Result Failure (World α) Unit}
    (h : Outcome (w.advance t component) t throws components result) :
    Outcome w t throws (component :: components) result := by
  cases h with
  | stepped ready => exact .stepped (ready.cons hregular hneed hreturns)
  | @refused before other later hsplit ready hstate =>
    have hsplit' : component :: components = (component :: before) ++ other :: later := by
      rw [hsplit, List.cons_append]
    apply Outcome.refused hsplit'
    · exact ready.cons hregular hneed hreturns
    · rw [List.mem_cons, ← or_assoc, ← state_advance_ne_iff hregular]
      exact hstate
  | @thrown before other later hsplit ready hneed' hnew hthrows =>
    have hown : ¬ (w.state other ≠ t.need ∨ other = component) := by
      rw [← state_advance_ne_iff hregular]
      exact not_not.mpr hneed'
    obtain ⟨hneed₀, hne⟩ := not_or.mp hown
    have hsplit' : component :: components = (component :: before) ++ other :: later := by
      rw [hsplit, List.cons_append]
    apply Outcome.thrown hsplit'
    · exact ready.cons hregular hneed hreturns
    · exact not_not.mp hneed₀
    · exact fun hmem => (List.mem_cons.mp hmem).elim hne hnew
    · exact hthrows

theorem outcome_forM (hregular : t.need ≠ t.leaves) (throws : α → Bool) (components : List α)
    (w : World α) : Outcome w t throws components (components.forM (transition t throws) w) := by
  induction components generalizing w with
  | nil => exact .stepped ⟨List.nodup_nil, nofun, nofun⟩
  | cons component components ih =>
    have hready : Ready w t throws ([] : List α) := ⟨List.nodup_nil, nofun, nofun⟩
    have hforM : (component :: components).forM (transition t throws) w =
      (transition t throws component >>= fun _ =>
        components.forM (transition t throws)) w := rfl
    have hstep := transition_apply t throws component w
    by_cases hneed : w.state component = t.need
    · rw [if_neg (not_not.mpr hneed)] at hstep
      cases hthrows : throws component with
      | true =>
        rw [if_pos hthrows] at hstep
        have hend := bind_eq_error (f := fun _ => components.forM (transition t throws)).mpr
          (.inl hstep)
        rw [hforM, hend]
        exact .thrown rfl hready hneed List.not_mem_nil hthrows
      | false =>
        rw [if_neg (by rw [hthrows]; exact Bool.false_ne_true)] at hstep
        rw [hforM, bind_of_ok hstep]
        exact (ih (w.advance t component)).cons hregular hneed hthrows
    · rw [if_pos hneed] at hstep
      have hend := bind_eq_error (f := fun _ => components.forM (transition t throws)).mpr
        (.inl hstep)
      rw [hforM, hend]
      exact .refused rfl hready (.inl hneed)

theorem Outcome.ok_iff {result : EStateM.Result Failure (World α) Unit}
    (h : Outcome w t throws components result) :
    (∃ w', result = .ok () w') ↔ Ready w t throws components := by
  cases h with
  | stepped ready => exact iff_of_true ⟨_, rfl⟩ ready
  | refused hsplit ready hstate =>
    refine iff_of_false nofun fun hall => ?_
    subst hsplit
    rcases hstate with hstate | hbefore
    · exact hstate (hall.needs _ (List.mem_append_right _ List.mem_cons_self))
    · exact (List.nodup_append.mp hall.nodup).2.2 _ hbefore _ List.mem_cons_self rfl
  | thrown hsplit ready hneed hnew hthrows =>
    refine iff_of_false nofun fun hall => ?_
    subst hsplit
    have hreturns := hall.returns _ (List.mem_append_right _ List.mem_cons_self)
    rw [hthrows] at hreturns
    cases hreturns

/-- The step that calls a hook. -/
def transitionOf : Hook → Transition
  | .onConfigure => toConfigure
  | .onStart => toStart
  | .onStop => toStop

theorem need_ne_leaves (hook : Hook) : (transitionOf hook).need ≠ (transitionOf hook).leaves := by
  cases hook with
  | onConfigure => decide
  | onStart => decide
  | onStop => decide

end Component

namespace ComponentManager
open Component

/-- A bulk operation succeeds exactly if every registered component is in the state that it asks
for, no hook throws, and no component has two names. Otherwise exactly the components before the
first that refuses or throws have made their step, and the failure is that one's. -/
theorem outcome_all (hook : Hook) (throws : α → Bool) (w : World α) :
    Outcome w (transitionOf hook) throws w.registered (all (transitionOf hook) throws w) ∧
      ((∃ w', all (transitionOf hook) throws w = .ok () w') ↔
        Ready w (transitionOf hook) throws w.registered) := by
  have houtcome : Outcome w (transitionOf hook) throws w.registered
      (all (transitionOf hook) throws w) :=
    outcome_forM (need_ne_leaves hook) throws w.registered w
  exact ⟨houtcome, houtcome.ok_iff⟩

/-- No hook throws. -/
def quiet : α → Bool := fun _ => false

/-- The components that step are those up to the first that is in another state. -/
theorem state_all (hook : Hook) {w : World α} (hnodup : w.registered.Nodup) (other : α) :
    (endState (all (transitionOf hook) quiet w)).state other =
      if other ∈ w.registered.takeWhile
          (fun component => w.state component = (transitionOf hook).need) then
        (transitionOf hook).leaves
      else w.state other := by
  have houtcome := (outcome_all hook quiet w).1
  generalize all (transitionOf hook) quiet w = result at houtcome ⊢
  cases houtcome with
  | stepped ready =>
    have htake : w.registered.takeWhile
        (fun component => w.state component = (transitionOf hook).need) =
        w.registered := by
      rw [List.takeWhile_eq_self_iff]
      exact fun component hmem => decide_eq_true (ready.needs component hmem)
    rw [htake]
    exact World.state_advanceAll ..
  | @refused before component later hsplit ready hstate =>
    have hneed : w.state component ≠ (transitionOf hook).need := by
      rw [hsplit] at hnodup
      apply hstate.resolve_right
      exact fun hbefore =>
        (List.nodup_append.mp hnodup).2.2 _ hbefore _ List.mem_cons_self rfl
    have htake : w.registered.takeWhile
        (fun component => w.state component = (transitionOf hook).need) = before := by
      rw [hsplit, List.takeWhile_append_of_pos
        fun component hmem => decide_eq_true (ready.needs component hmem),
        List.takeWhile_cons_of_neg (by simpa using hneed), List.append_nil]
    rw [htake]
    exact World.state_advanceAll ..
  | thrown hsplit ready hneed hnew hthrows => cases hthrows

theorem components_all (hook : Hook) (throws : α → Bool) (w : World α) :
    (endState (all (transitionOf hook) throws w)).components = w.components := by
  have houtcome := (outcome_all hook throws w).1
  generalize all (transitionOf hook) throws w = result at houtcome ⊢
  cases houtcome with
  | stepped ready => exact World.components_advanceAll ..
  | refused hsplit ready hstate => exact World.components_advanceAll ..
  | thrown hsplit ready hneed hnew hthrows => exact World.components_advanceAll ..

theorem registered_all (hook : Hook) (throws : α → Bool) (w : World α) :
    (endState (all (transitionOf hook) throws w)).registered = w.registered :=
  congrArg (fun components => components.toList.map Prod.snd) (components_all hook throws w)

/-- Components before which nothing is in another state step, and so does the next if it is in
that state. -/
theorem state_all_prefix (hook : Hook) {w : World α} (hnodup : w.registered.Nodup)
    {before later : List α} {component : α}
    (hsplit : w.registered = before ++ component :: later)
    (hbefore : ∀ other ∈ before, w.state other = (transitionOf hook).need) :
    (∀ other ∈ before,
      (endState (all (transitionOf hook) quiet w)).state other = (transitionOf hook).leaves) ∧
    (endState (all (transitionOf hook) quiet w)).state component =
      if w.state component = (transitionOf hook).need then (transitionOf hook).leaves
      else w.state component := by
  have htake : w.registered.takeWhile
      (fun component => w.state component = (transitionOf hook).need) =
      before ++ (component :: later).takeWhile
        (fun component => w.state component = (transitionOf hook).need) := by
    rw [hsplit, List.takeWhile_append_of_pos
      fun other hother => decide_eq_true (hbefore other hother)]
  refine ⟨fun other hother => ?_, ?_⟩
  · rw [state_all hook hnodup, htake, if_pos (List.mem_append_left _ hother)]
  · rw [state_all hook hnodup, htake]
    by_cases hneed : w.state component = (transitionOf hook).need
    · rw [if_pos hneed, List.takeWhile_cons_of_pos (by simpa using hneed)]
      exact if_pos (List.mem_append_right _ List.mem_cons_self)
    · rw [if_neg hneed, if_neg]
      rw [List.takeWhile_cons_of_neg (by simpa using hneed), List.append_nil]
      rw [hsplit] at hnodup
      exact fun hmem => (List.nodup_append.mp hnodup).2.2 _ hmem _ List.mem_cons_self rfl

/-- All components are configured, started and stopped. -/
def round : List (Call α) := [.configureAll quiet, .startAll quiet, .stopAll quiet]

def rounds (n : ℕ) : List (Call α) := (List.replicate n round).flatten

theorem after_round (w : World α) :
    after step w round = endState (all (transitionOf .onStop) quiet
      (endState (all (transitionOf .onStart) quiet
        (endState (all (transitionOf .onConfigure) quiet w))))) := by
  change (step (step (step w _).1 _).1 _).1 = _
  rw [step_fst, step_fst, step_fst]
  rfl

theorem components_round (w : World α) : (after step w round).components = w.components := by
  rw [after_round, components_all, components_all, components_all]

/-- A round leaves idle those that were, and the first of the rest. -/
theorem idle_round {w : World α} (hnodup : w.registered.Nodup) {before later : List α}
    {component : α} (hsplit : w.registered = before ++ component :: later)
    (hbefore : ∀ other ∈ before, w.state other = .idle) :
    ∀ other ∈ before ++ [component], (after step w round).state other = .idle := by
  obtain ⟨hconfigured, hnext⟩ := state_all_prefix .onConfigure hnodup hsplit hbefore
  generalize hw₁ : endState (all (transitionOf .onConfigure) quiet w) = w₁ at hconfigured hnext
  have hregistered₁ : w₁.registered = w.registered := hw₁ ▸ registered_all ..
  obtain ⟨hrunning, hnext₁⟩ := state_all_prefix .onStart (hregistered₁ ▸ hnodup)
    (hregistered₁ ▸ hsplit) hconfigured
  generalize hw₂ : endState (all (transitionOf .onStart) quiet w₁) = w₂ at hrunning hnext₁
  have hregistered₂ : w₂.registered = w.registered := hw₂ ▸ hregistered₁ ▸ registered_all ..
  obtain ⟨hidle, hnext₂⟩ := state_all_prefix .onStop (hregistered₂ ▸ hnodup)
    (hregistered₂ ▸ hsplit) hrunning
  rw [after_round, hw₁, hw₂]
  intro other hother
  rcases List.mem_append.mp hother with hother | hother
  · exact hidle other hother
  · obtain rfl := List.mem_singleton.mp hother
    rw [hnext₂, hnext₁, hnext]
    -- wherever it was, it takes the steps that are left to it
    cases w.state other with
    | idle => rfl
    | configured => rfl
    | running => rfl

omit [DecidableEq α] in
theorem rounds_succ (n : ℕ) : (rounds (n + 1) : List (Call α)) = rounds n ++ round := by
  rw [rounds, List.replicate_succ', List.flatten_append, List.flatten_singleton]
  rfl

theorem components_rounds (w : World α) (n : ℕ) :
    (after step w (rounds n)).components = w.components := by
  induction n with
  | zero => rfl
  | succ n ih => rw [rounds_succ, after_append, components_round, ih]

/-- Every round brings back at least one more. -/
theorem idle_take_rounds (w : World α) (hnodup : w.registered.Nodup) (n : ℕ) :
    ∀ component ∈ w.registered.take n,
      (after step w (rounds n)).state component = .idle := by
  induction n with
  | zero => exact nofun
  | succ n ih =>
    rw [rounds_succ, after_append]
    have hregistered : (after step w (rounds n)).registered = w.registered :=
      congrArg (fun components => components.toList.map Prod.snd) (components_rounds w n)
    generalize after step w (rounds n) = w' at ih hregistered
    rw [← hregistered] at hnodup ih ⊢
    rcases Nat.lt_or_ge n w'.registered.length with hn | hn
    · have hsplit : w'.registered = w'.registered.take n ++
          w'.registered[n] :: w'.registered.drop (n + 1) := by
        rw [← List.drop_eq_getElem_cons hn, List.take_append_drop]
      rw [List.take_add_one, List.getElem?_eq_getElem hn]
      exact idle_round hnodup hsplit ih
    · rw [List.take_of_length_le (Nat.le_succ_of_le hn)]
      rw [List.take_of_length_le hn] at ih
      rcases List.eq_nil_or_concat w'.registered with hnil | ⟨before, component, hsplit⟩
      · rw [hnil]
        exact nofun
      · rw [List.concat_eq_append] at hsplit
        rw [hsplit] at ih ⊢
        exact idle_round hnodup hsplit fun other hother => ih other (List.mem_append_left _ hother)

/-- However far the components have drifted apart, they are all idle again after as many rounds
as there are components, even though the calls may fail. -/
theorem idle_after_rounds (w : World α) (hnodup : w.registered.Nodup) {n : ℕ}
    (hn : w.components.size ≤ n) :
    ∀ component ∈ w.registered, (after step w (rounds n)).state component = .idle := by
  have hall := idle_take_rounds w hnodup n
  rwa [List.take_of_length_le] at hall
  rwa [World.registered, List.length_map, Std.ExtTreeMap.length_toList]

/-- Two components, the second of which has failed to be configured. -/
def drifted : World ℕ :=
  after step fresh [.registerComponent "modem" 0, .registerComponent "radio" 1,
    .configureAll fun component => component == 1]

theorem idle_after_rounds_drifted :
    drifted.state 0 = .configured ∧ drifted.state 1 = .idle ∧
      ∀ component ∈ drifted.registered, (after step drifted (rounds 2)).state component = .idle :=
  ⟨by decide +kernel, by decide +kernel,
    idle_after_rounds drifted (by decide +kernel) (by decide +kernel)⟩

end ComponentManager

end Cirradio.Core
