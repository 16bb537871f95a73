import Cirradio.CallRuns
import Cirradio.EarlyExit
import Cirradio.OrderedMaps
import Mathlib.Logic.Function.Iterate

/-!
# Components and their manager

A component goes from idle to configured to running and back to idle, and each step runs one of
its hooks, which may throw. The manager knows components by their names. Several names may stand
for one component, and whoever holds a component may also step it behind the manager's back.
-/

namespace Cirradio.Core
open EarlyExit CallRuns

inductive ComponentState where
  | idle
  | configured
  | running
  deriving DecidableEq, Repr

inductive Hook where
  | onConfigure
  | onStart
  | onStop
  deriving DecidableEq, Repr

inductive Failure where
  | runtimeError (what : String)
  /-- A hook has thrown. -/
  | thrown
  deriving DecidableEq, Repr

/-- The components, the names of those that are registered, and which hooks of which components
have been called, with whether they returned. -/
structure World (α : Type) where
  state : α → ComponentState
  called : List (α × Hook × Bool)
  components : Std.ExtTreeMap String α

/-- The registered components in the order of their names. -/
def World.registered {α : Type} (w : World α) : List α := w.components.toList.map Prod.snd

/-- A computation on the components. -/
abbrev Lifecycle (α β : Type) := EStateM Failure (World α) β

variable {α : Type} [DecidableEq α]

namespace Component

/-- A step of a component: the state it asks for, the hook and the state it leaves. -/
structure Transition where
  need : ComponentState
  refusal : String
  hook : Hook
  leaves : ComponentState
  deriving DecidableEq, Repr

/-- The state changes when the hook has returned, not when it has thrown. -/
def transition (t : Transition) (throws : α → Bool) (component : α) : Lifecycle α Unit := do
  if (← get).state component ≠ t.need then throw (.runtimeError t.refusal)
  modify fun w => { w with called := w.called ++ [(component, t.hook, !throws component)] }
  if throws component then throw .thrown
  modify fun w => { w with state := Function.update w.state component t.leaves }

def toConfigure : Transition :=
  ⟨.idle, "Component must be Idle to configure", .onConfigure, .configured⟩

def toStart : Transition :=
  ⟨.configured, "Component must be Configured to start", .onStart, .running⟩

def toStop : Transition := ⟨.running, "Component must be Running to stop", .onStop, .idle⟩

def configure (throws : α → Bool) (component : α) : Lifecycle α Unit :=
  transition toConfigure throws component

def start (throws : α → Bool) (component : α) : Lifecycle α Unit :=
  transition toStart throws component

def stop (throws : α → Bool) (component : α) : Lifecycle α Unit :=
  transition toStop throws component

end Component

namespace ComponentManager
open Component

def registerComponent (name : String) (component : α) : Lifecycle α Unit := do
  if name ∈ (← get).components then
    throw (.runtimeError ("Component already registered: " ++ name))
  modify fun w => { w with components := w.components.insert name component }

def unregisterComponent (name : String) : Lifecycle α Unit := do
  if name ∉ (← get).components then throw (.runtimeError ("Component not found: " ++ name))
  modify fun w => { w with components := w.components.erase name }

def get (name : String) : Lifecycle α α := do
  match (← EStateM.get).components[name]? with
  | none => throw (.runtimeError ("Component not found: " ++ name))
  | some component => pure component

def configure (throws : α → Bool) (name : String) : Lifecycle α Unit := do
  Component.configure throws (← get name)

def start (throws : α → Bool) (name : String) : Lifecycle α Unit := do
  Component.start throws (← get name)

def stop (throws : α → Bool) (name : String) : Lifecycle α Unit := do
  Component.stop throws (← get name)

/-- The components are stepped in the order of their names. -/
def all (t : Transition) (throws : α → Bool) : Lifecycle α Unit := do
  (← EStateM.get).registered.forM (transition t throws)

def configureAll (throws : α → Bool) : Lifecycle α Unit := all toConfigure throws

def startAll (throws : α → Bool) : Lifecycle α Unit := all toStart throws

def stopAll (throws : α → Bool) : Lifecycle α Unit := all toStop throws

/-- What can be done with the manager and with a component, and which hooks throw meanwhile. -/
inductive Call (α : Type) where
  | registerComponent (name : String) (component : α)
  | unregisterComponent (name : String)
  | configure (name : String) (throws : α → Bool)
  | start (name : String) (throws : α → Bool)
  | stop (name : String) (throws : α → Bool)
  | configureAll (throws : α → Bool)
  | startAll (throws : α → Bool)
  | stopAll (throws : α → Bool)
  | configureComponent (component : α) (throws : α → Bool)
  | startComponent (component : α) (throws : α → Bool)
  | stopComponent (component : α) (throws : α → Bool)

def perform : Call α → Lifecycle α Unit
  | .registerComponent name component => registerComponent name component
  | .unregisterComponent name => unregisterComponent name
  | .configure name throws => configure throws name
  | .start name throws => start throws name
  | .stop name throws => stop throws name
  | .configureAll throws => configureAll throws
  | .startAll throws => startAll throws
  | .stopAll throws => stopAll throws
  | .configureComponent component throws => Component.configure throws component
  | .startComponent component throws => Component.start throws component
  | .stopComponent component throws => Component.stop throws component

/-- Whoever makes the calls catches what they throw. -/
def step (w : World α) (c : Call α) : World α × Option Failure :=
  match perform c w with
  | .ok _ w' => (w', none)
  | .error e w' => (w', some e)

/-- No component has been stepped and none is registered. -/
def fresh : World α where
  state _ := .idle
  called := []
  components := ∅

end ComponentManager

/-- A hook has been called. -/
def World.record (w : World α) (component : α) (hook : Hook) (returned : Bool) : World α :=
  { w with called := w.called ++ [(component, hook, returned)] }

/-- A component has made its step. -/
def World.advance (w : World α) (t : Component.Transition) (component : α) : World α :=
  { w.record component t.hook true with state := Function.update w.state component t.leaves }

omit [DecidableEq α] in
theorem Lifecycle.get_apply (w : World α) :
    (MonadState.get : Lifecycle α (World α)) w = .ok w w := rfl

theorem Component.transition_apply (t : Transition) (throws : α → Bool) (component : α)
    (w : World α) :
    transition t throws component w =
      if w.state component ≠ t.need then .error (.runtimeError t.refusal) w
      else if throws component then .error .thrown (w.record component t.hook false)
      else .ok () (w.advance t component) := by
  rw [transition, bind_of_ok (Lifecycle.get_apply w)]
  split
  · rfl
  · cases hthrows : throws component with
    | true => rfl
    | false => rfl

/-- The hook that is due in a state. -/
def ComponentState.due : ComponentState → Hook
  | .idle => .onConfigure
  | .configured => .onStart
  | .running => .onStop

/-- The state after the hook that is due. -/
def ComponentState.next : ComponentState → ComponentState
  | .idle => .configured
  | .configured => .running
  | .running => .idle

/-- The state of a component of which so many hooks have returned. -/
def stateAfter (turns : ℕ) : ComponentState := ComponentState.next^[turns] .idle

theorem stateAfter_succ (turns : ℕ) : stateAfter (turns + 1) = (stateAfter turns).next :=
  Function.iterate_succ_apply' ..

/-- How many hooks have returned. -/
def turns (hooks : List (Hook × Bool)) : ℕ := hooks.countP fun call => call.2

/-- Every hook that was called was due: the one after those that had returned before it. -/
def InOrder (hooks : List (Hook × Bool)) : Prop :=
  ∀ i call, hooks[i]? = some call → call.1 = (stateAfter (turns (hooks.take i))).due

theorem inOrder_nil : InOrder [] := by
  intro i call hcall
  cases hcall

theorem turns_concat (hooks : List (Hook × Bool)) (call : Hook × Bool) :
    turns (hooks ++ [call]) = turns hooks + call.2.toNat := by
  obtain ⟨hook, returned⟩ := call
  rw [turns, List.countP_append]
  cases returned with
  | true => rfl
  | false => rfl

theorem InOrder.concat {hooks : List (Hook × Bool)} (h : InOrder hooks) {call : Hook × Bool}
    (hdue : call.1 = (stateAfter (turns hooks)).due) : InOrder (hooks ++ [call]) := by
  intro i call' hcall'
  rcases Nat.lt_trichotomy i hooks.length with hi | hi | hi
  · rw [List.getElem?_append_left hi] at hcall'
    rw [List.take_append_of_le_length (Nat.le_of_lt hi)]
    exact h i call' hcall'
  · subst hi
    rw [List.getElem?_concat_length] at hcall'
    cases hcall'
    rwa [List.take_left]
  · have hlen : (hooks ++ [call]).length ≤ i := by
      rw [List.length_append, List.length_singleton]
      exact hi
    rw [List.getElem?_eq_none hlen] at hcall'
    cases hcall'

theorem InOrder.returned {hooks : List (Hook × Bool)} (h : InOrder hooks) :
    (hooks.filter fun call => call.2).map Prod.fst =
      (List.range (turns hooks)).map fun n => (stateAfter n).due := by
  induction hooks using List.reverseRecOn with
  | nil => rfl
  | append_singleton hooks call ih =>
    have hbefore : InOrder hooks := by
      intro i call' hcall'
      have hi : i < hooks.length := (List.getElem?_eq_some_iff.mp hcall').1
      have hlater := h i call' (by rw [List.getElem?_append_left hi]; exact hcall')
      rwa [List.take_append_of_le_length (Nat.le_of_lt hi)] at hlater
    have hlast := h hooks.length call List.getElem?_concat_length
    rw [List.take_left] at hlast
    obtain ⟨hook, returned⟩ := call
    rw [List.filter_append, List.map_append, ih hbefore, turns_concat]
    cases returned with
    | true =>
      dsimp only at hlast
      rw [hlast, Bool.toNat_true, List.range_succ, List.map_append]
      rfl
    | false => exact List.append_nil _

namespace World

/-- The hooks of a component that were called, in their order, and whether they returned. -/
def hooksOf (w : World α) (component : α) : List (Hook × Bool) :=
  (w.called.filter fun call => call.1 = component).map Prod.snd

/-- The hooks of every component were called in order, and its state says which is due. -/
def Orderly (w : World α) : Prop :=
  ∀ component, w.state component = stateAfter (turns (w.hooksOf component)) ∧
    InOrder (w.hooksOf component)

theorem hooksOf_record (w : World α) (component : α) (hook : Hook) (returned : Bool)
    (other : α) :
    (w.record component hook returned).hooksOf other =
      w.hooksOf other ++ if component = other then [(hook, returned)] else [] := by
  unfold hooksOf record
  rw [List.filter_append, List.map_append]
  congr 1
  by_cases h : component = other
  · simp [h]
  · simp [h]

end World

/-- A step asks for the state in which its hook is due, and leaves the next. -/
def Component.Transition.Regular (t : Transition) : Prop :=
  t.hook = t.need.due ∧ t.leaves = t.need.next

namespace World
variable {w : World α} {component : α}

theorem Orderly.due (h : w.Orderly) {t : Component.Transition} (ht : t.Regular)
    (hneed : w.state component = t.need) :
    t.hook = (stateAfter (turns (w.hooksOf component))).due := by
  rw [← (h component).1, hneed]
  exact ht.1

theorem Orderly.record (h : w.Orderly) {t : Component.Transition} (ht : t.Regular)
    (hneed : w.state component = t.need) : (w.record component t.hook false).Orderly := by
  intro other
  rw [hooksOf_record]
  by_cases hother : component = other
  · subst hother
    rw [if_pos rfl, turns_concat]
    exact ⟨(h component).1, (h component).2.concat (h.due ht hneed)⟩
  · rw [if_neg hother, List.append_nil]
    exact h other

theorem Orderly.advance (h : w.Orderly) {t : Component.Transition} (ht : t.Regular)
    (hneed : w.state component = t.need) : (w.advance t component).Orderly := by
  intro other
  change Function.update w.state component t.leaves other =
      stateAfter (turns ((w.record component t.hook true).hooksOf other)) ∧
    InOrder ((w.record component t.hook true).hooksOf other)
  rw [hooksOf_record]
  by_cases hother : component = other
  · subst hother
    rw [if_pos rfl, turns_concat, Function.update_self]
    refine ⟨?_, (h component).2.concat (h.due ht hneed)⟩
    rw [Bool.toNat_true, stateAfter_succ, ← (h component).1, hneed]
    exact ht.2
  · rw [if_neg hother, List.append_nil, Function.update_of_ne (Ne.symm hother)]
    exact h other

end World

/-- Computations that keep the order. -/
abbrev KeepsOrder {β : Type} (x : Lifecycle α β) : Prop :=
  Keeps (fun w w' : World α => w.Orderly → w'.Orderly) x

theorem Component.keepsOrder_transition {t : Transition} (ht : t.Regular) (throws : α → Bool)
    (component : α) : KeepsOrder (transition t throws component) := by
  intro w h
  rw [transition_apply]
  split
  · exact h
  next hneed =>
    rw [not_not] at hneed
    split
    · exact h.record ht hneed
    · exact h.advance ht hneed

theorem Component.regular_toConfigure : toConfigure.Regular := ⟨rfl, rfl⟩

theorem Component.regular_toStart : toStart.Regular := ⟨rfl, rfl⟩

theorem Component.regular_toStop : toStop.Regular := ⟨rfl, rfl⟩

namespace ComponentManager

theorem KeepsOrder.bind {β γ : Type} {x : Lifecycle α β} {f : β → Lifecycle α γ}
    (hx : KeepsOrder x) (hf : ∀ b, KeepsOrder (f b)) : KeepsOrder (x >>= f) :=
  Keeps.bind (fun h h' hw => h' (h hw)) hx hf

theorem keepsOrder_get (name : String) : KeepsOrder (get name : Lifecycle α α) := by
  intro w h
  change World.Orderly (endState ((match w.components[name]? with
    | none => throw (.runtimeError ("Component not found: " ++ name))
    | some component => pure component : Lifecycle α α) w))
  cases w.components[name]? with
  | none => exact h
  | some component => exact h

theorem keepsOrder_forM {t : Component.Transition} (ht : t.Regular) (throws : α → Bool)
    (components : List α) :
    KeepsOrder (components.forM (Component.transition t throws)) := by
  induction components with
  | nil => exact keeps_pure (fun _ h => h) ()
  | cons component components ih =>
    exact KeepsOrder.bind (Component.keepsOrder_transition ht throws component) fun _ => ih

theorem keepsOrder_all {t : Component.Transition} (ht : t.Regular) (throws : α → Bool) :
    KeepsOrder (all t throws) :=
  fun w => keepsOrder_forM ht throws w.registered w

theorem keepsOrder_perform (c : Call α) : KeepsOrder (perform c) := by
  cases c with
  | registerComponent name component =>
    intro w h
    rw [perform, registerComponent, bind_of_ok (Lifecycle.get_apply w)]
    split
    · exact h
    · exact h
  | unregisterComponent name =>
    intro w h
    rw [perform, unregisterComponent, bind_of_ok (Lifecycle.get_apply w)]
    split
    · exact h
    · exact h
  | configure name throws =>
    exact KeepsOrder.bind (keepsOrder_get name)
      (Component.keepsOrder_transition Component.regular_toConfigure throws)
  | start name throws =>
    exact KeepsOrder.bind (keepsOrder_get name)
      (Component.keepsOrder_transition Component.regular_toStart throws)
  | stop name throws =>
    exact KeepsOrder.bind (keepsOrder_get name)
      (Component.keepsOrder_transition Component.regular_toStop throws)
  | configureAll throws => exact keepsOrder_all Component.regular_toConfigure throws
  | startAll throws => exact keepsOrder_all Component.regular_toStart throws
  | stopAll throws => exact keepsOrder_all Component.regular_toStop throws
  | configureComponent component throws =>
    exact Component.keepsOrder_transition Component.regular_toConfigure throws component
  | startComponent component throws =>
    exact Component.keepsOrder_transition Component.regular_toStart throws component
  | stopComponent component throws =>
    exact Component.keepsOrder_transition Component.regular_toStop throws component

theorem step_fst (w : World α) (c : Call α) : (step w c).1 = endState (perform c w) := by
  unfold step
  cases perform c w with
  | ok _ w' => rfl
  | error e w' => rfl

/-- However a component is stepped, under whichever names and with whichever failures, its hooks
are called in turn: those that return go round, and one is called again only after it has
thrown. -/
theorem hooks_in_order (calls : List (Call α)) (component : α) :
    let w := after step fresh calls
    w.state component = stateAfter (turns (w.hooksOf component)) ∧
      InOrder (w.hooksOf component) ∧
      ((w.hooksOf component).filter fun call => call.2).map Prod.fst =
        (List.range (turns (w.hooksOf component))).map fun n => (stateAfter n).due := by
  have horderly : (after step fresh calls).Orderly := by
    apply invariant_after step fresh World.Orderly
    · exact fun _ => ⟨rfl, inOrder_nil⟩
    · intro w c h
      rw [step_fst]
      exact keepsOrder_perform c w h
  obtain ⟨hstate, horder⟩ := horderly component
  exact ⟨hstate, horder, horder.returned⟩

end ComponentManager

end Cirradio.Core
