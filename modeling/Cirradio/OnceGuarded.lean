import Mathlib.Data.List.Flatten
import Mathlib.Logic.Function.Basic

/-!
# Programs behind a flag

Any thread can ask for a program, but only the first to raise the flag goes through it; the
others are turned away. A program is a list of blocks: a call that throws ends its block, and
the next block follows. Other code can change the memory between two calls.
-/

namespace Cirradio.OnceGuarded
variable {ι α μ : Type}

/-- What is left of a program after its next call, which throws unless `ok`. -/
def rest : List (List α) → Bool → List (List α)
  | (_ :: b :: bs) :: blocks, true => (b :: bs) :: blocks
  | _ :: blocks, _ => blocks
  | [], _ => []

/-- The calls of a program made so far, with their outcomes, and what is left of it. -/
inductive Attempts (program : List (List α)) : List (α × Bool) → List (List α) → Prop
  | start : Attempts program [] program
  | call {made : List (α × Bool)} {a : α} {as : List α} {blocks : List (List α)} (ok : Bool) :
      Attempts program made ((a :: as) :: blocks) →
        Attempts program (made ++ [(a, ok)]) (rest ((a :: as) :: blocks) ok)

theorem flatten_rest_sublist (a : α) (as : List α) (blocks : List (List α)) (ok : Bool) :
    List.Sublist (rest ((a :: as) :: blocks) ok).flatten (as ++ blocks.flatten) := by
  cases as with
  | nil => exact List.Sublist.refl _
  | cons b bs =>
    cases ok with
    | false => exact List.sublist_append_right _ _
    | true => exact List.Sublist.refl _

theorem mem_rest {a : α} {as block : List α} {blocks : List (List α)} {ok : Bool}
    (h : block ∈ blocks) : block ∈ rest ((a :: as) :: blocks) ok := by
  cases as with
  | nil => exact h
  | cons b bs =>
    cases ok with
    | false => exact h
    | true => exact List.mem_cons_of_mem _ h

variable {program left : List (List α)} {made : List (α × Bool)}

theorem Attempts.sublist (h : Attempts program made left) :
    List.Sublist (made.map Prod.fst ++ left.flatten) program.flatten := by
  induction h with
  | start => exact List.Sublist.refl _
  | @call made a as blocks ok _ ih =>
    refine List.Sublist.trans ?_ ih
    rw [List.map_append, List.append_assoc]
    apply List.Sublist.append_left
    exact (flatten_rest_sublist a as blocks ok).cons_cons a

/-- A call is made, or still to be made, unless an earlier one of its own block threw. -/
theorem Attempts.made_or_left (h : Attempts program made left) {before after : List α} {a : α}
    (hblock : before ++ a :: after ∈ program) :
    a ∈ made.map Prod.fst ∨ (∃ b ∈ before, (b, false) ∈ made) ∨
      ∃ before', before' <:+ before ∧ before' ++ a :: after ∈ left := by
  induction h with
  | start => exact .inr (.inr ⟨before, List.suffix_refl _, hblock⟩)
  | @call made b bs blocks ok _ ih =>
    rcases ih with hmade | ⟨c, hc, hthrew⟩ | ⟨before', hsuffix, hmem⟩
    · exact .inl (by simp [List.mem_map.mp hmade])
    · exact .inr (.inl ⟨c, hc, List.mem_append_left _ hthrew⟩)
    · rcases List.mem_cons.mp hmem with hhead | htail
      · cases before' with
        | nil =>
          left
          simp [(List.cons.inj hhead).1]
        | cons c before'' =>
          obtain ⟨rfl, rfl⟩ := List.cons.inj hhead
          cases ok with
          | false => exact .inr (.inl ⟨c, hsuffix.subset List.mem_cons_self, by simp⟩)
          | true =>
            refine .inr (.inr ⟨before'', (List.suffix_cons c _).trans hsuffix, ?_⟩)
            cases before'' <;> exact List.mem_cons_self
      · exact .inr (.inr ⟨before', hsuffix, mem_rest htail⟩)

/-- Once nothing is left, only a call after one that threw in its own block was not made. -/
theorem Attempts.made_of_done (h : Attempts program made []) {before after : List α} {a : α}
    (hblock : before ++ a :: after ∈ program) (hok : ∀ b ∈ before, (b, false) ∉ made) :
    a ∈ made.map Prod.fst := by
  rcases h.made_or_left hblock with hmade | ⟨b, hb, hthrew⟩ | ⟨_, _, hmem⟩
  · exact hmade
  · exact absurd hthrew (hok b hb)
  · exact absurd hmem List.not_mem_nil

structure State (ι α μ : Type) where
  entered : Bool
  /-- What a thread that went in has left to do. -/
  inside : ι → Option (List (List α))
  memory : μ

namespace State

def start (memory : μ) : State ι α μ := ⟨false, fun _ => none, memory⟩

/-- Nobody is in. -/
def Idle (s : State ι α μ) : Prop := ∀ i, s.inside i = none

variable [DecidableEq ι]

/-- Where thread `i` goes. -/
def moved (s : State ι α μ) (i : ι) (left : Option (List (List α))) : State ι α μ :=
  { s with inside := Function.update s.inside i left }

@[simp] theorem moved_entered (s : State ι α μ) (i : ι) (left : Option (List (List α))) :
    (s.moved i left).entered = s.entered := rfl

@[simp] theorem moved_memory (s : State ι α μ) (i : ι) (left : Option (List (List α))) :
    (s.moved i left).memory = s.memory := rfl

@[simp] theorem moved_inside (s : State ι α μ) (i : ι) (left : Option (List (List α))) :
    (s.moved i left).inside i = left := Function.update_self ..

theorem moved_inside_of_ne (s : State ι α μ) {i j : ι} (left : Option (List (List α)))
    (h : j ≠ i) : (s.moved i left).inside j = s.inside j := Function.update_of_ne h ..

theorem not_idle_moved (s : State ι α μ) (i : ι) (left : List (List α)) :
    ¬ (s.moved i (some left)).Idle := by
  intro h
  exact Option.some_ne_none left (((s.moved_inside i _).symm).trans (h i))

end State

section Steps
variable [DecidableEq ι] (program : List (List α)) (perform : α → Bool → μ → μ → Prop)
  (others : μ → μ → Prop)

/-- One step of a thread, with the call it makes. -/
inductive Step : State ι α μ → Option (ι × α × Bool) → State ι α μ → Prop
  | enter {s : State ι α μ} (i : ι) : s.inside i = none → s.entered = false →
      Step s none ({ s with entered := true }.moved i (some program))
  | turnedAway {s : State ι α μ} (i : ι) : s.inside i = none → s.entered = true → Step s none s
  | call {s : State ι α μ} {i : ι} {a : α} {as : List α} {blocks : List (List α)} {ok : Bool}
      {memory : μ} : s.inside i = some ((a :: as) :: blocks) → perform a ok s.memory memory →
      Step s (some (i, a, ok))
        ({ s with memory }.moved i (some (rest ((a :: as) :: blocks) ok)))
  | leave {s : State ι α μ} (i : ι) : s.inside i = some [] → Step s none (s.moved i none)
  | others {s : State ι α μ} {memory : μ} : others s.memory memory →
      Step s none { s with memory }

/-- The calls made by all threads, and the state they lead to. -/
inductive Runs (memory₀ : μ) : List (ι × α × Bool) → State ι α μ → Prop
  | start : Runs memory₀ [] (State.start memory₀)
  | step {made : List (ι × α × Bool)} {s s' : State ι α μ} {call : Option (ι × α × Bool)} :
      Runs memory₀ made s → Step program perform others s call s' →
        Runs memory₀ (made ++ call.toList) s'

end Steps

/-- Nobody has been in, or one thread alone is or was in. -/
inductive Owned (program : List (List α)) (made : List (ι × α × Bool)) (s : State ι α μ) : Prop
  | unentered : s.entered = false → (∀ i, s.inside i = none) → made = [] → Owned program made s
  | entered (owner : ι) (left : List (List α)) : s.entered = true →
      (∀ i, i ≠ owner → s.inside i = none) → (∀ call ∈ made, call.1 = owner) →
      Attempts program (made.map Prod.snd) left →
      (s.inside owner = some left ∨ s.inside owner = none ∧ left = []) → Owned program made s

section Runs
variable [DecidableEq ι] {program : List (List α)} {perform : α → Bool → μ → μ → Prop}
  {others : μ → μ → Prop} {made : List (ι × α × Bool)} {s s' : State ι α μ}

/-- A thread that is in is the owner, and what it has left is what is left of the program. -/
theorem Owned.inside (h : Owned program made s) {i : ι} {blocks : List (List α)}
    (hin : s.inside i = some blocks) :
    s.entered = true ∧ (∀ j, j ≠ i → s.inside j = none) ∧ (∀ call ∈ made, call.1 = i) ∧
      Attempts program (made.map Prod.snd) blocks := by
  cases h with
  | unentered _ hnone _ => exact absurd hin (by simp [hnone i])
  | entered owner left hentered hothers hmade hattempts hleft =>
    have howner : i = owner := by
      by_contra hne
      rw [hothers i hne] at hin
      exact absurd hin (by simp)
    subst howner
    rcases hleft with hleft | ⟨hleft, _⟩
    · obtain rfl := Option.some.inj (hleft.symm.trans hin)
      exact ⟨hentered, hothers, hmade, hattempts⟩
    · exact absurd (hleft.symm.trans hin) (by simp)

theorem Owned.step (h : Owned program made s) {call : Option (ι × α × Bool)}
    (hstep : Step program perform others s call s') :
    Owned program (made ++ call.toList) s' := by
  cases hstep with
  | enter i hin hentered =>
    cases h with
    | unentered _ hnone hmade =>
      subst hmade
      refine .entered i program rfl ?_ (by simp) .start (.inl (State.moved_inside ..))
      intro j hj
      rw [State.moved_inside_of_ne _ _ hj]
      exact hnone j
    | entered _ _ hentered' => exact absurd (hentered.symm.trans hentered') Bool.false_ne_true
  | turnedAway => simpa using h
  | @call i a as blocks ok _ hin _ =>
    obtain ⟨hentered, hothers, hmade, hattempts⟩ := h.inside hin
    refine .entered i _ hentered ?_ ?_ ?_ (.inl (State.moved_inside ..))
    · intro j hj
      rw [State.moved_inside_of_ne _ _ hj]
      exact hothers j hj
    · intro c hc
      rcases List.mem_append.mp hc with hc | hc
      · exact hmade c hc
      · rw [List.mem_singleton.mp hc]
    · rw [List.map_append]
      exact hattempts.call ok
  | leave i hin =>
    obtain ⟨hentered, hothers, hmade, hattempts⟩ := h.inside hin
    rw [Option.toList_none, List.append_nil]
    refine .entered i [] hentered ?_ hmade hattempts (.inr ⟨State.moved_inside .., rfl⟩)
    intro j hj
    rw [State.moved_inside_of_ne _ _ hj]
    exact hothers j hj
  | others =>
    rw [Option.toList_none, List.append_nil]
    cases h with
    | unentered hentered hnone hmade => exact .unentered hentered hnone hmade
    | entered owner left hentered hothers hmade hattempts hleft =>
      exact .entered owner left hentered hothers hmade hattempts hleft

theorem Runs.owned {memory₀ : μ} (h : Runs program perform others memory₀ made s) :
    Owned program made s := by
  induction h with
  | start => exact .unentered rfl (fun _ => rfl) rfl
  | step _ hstep ih => exact ih.step hstep

omit [DecidableEq ι] in
/-- One thread at most goes in. Once the flag is up and nobody is in, it is through. -/
theorem Owned.attempts (h : Owned program made s) :
    (∃ owner left, (∀ call ∈ made, call.1 = owner) ∧
      Attempts program (made.map Prod.snd) left ∧ (s.Idle → left = [])) ∨
      s.entered = false ∧ made = [] := by
  cases h with
  | unentered hentered _ hmade => exact .inr ⟨hentered, hmade⟩
  | entered owner left _ _ hmade hattempts hleft =>
    refine .inl ⟨owner, left, hmade, hattempts, ?_⟩
    intro hidle
    rcases hleft with hleft | ⟨_, hleft⟩
    · exact absurd ((hidle owner).symm.trans hleft) (by simp)
    · exact hleft

end Runs

section Alone
variable (f : α → μ → μ × Bool)

def runBlock : List α → μ → μ
  | [], m => m
  | a :: as, m => if (f a m).2 then runBlock as (f a m).1 else (f a m).1

def run (program : List (List α)) (m : μ) : μ := program.foldl (fun m block => runBlock f block m) m

theorem run_rest (a : α) (as : List α) (blocks : List (List α)) (m : μ) :
    run f (rest ((a :: as) :: blocks) (f a m).2) (f a m).1 = run f ((a :: as) :: blocks) m := by
  unfold run
  rw [List.foldl_cons]
  cases hok : (f a m).2 with
  | false => cases as <;> simp [rest, runBlock, hok]
  | true => cases as <;> simp [rest, runBlock, hok]

/-- Where the memory stands on the way from `memory₀` to what the whole program leaves. -/
structure Resumes (program : List (List α)) (memory₀ : μ) (s : State ι α μ) : Prop where
  unentered : s.entered = false → s.memory = memory₀
  inside : ∀ i left, s.inside i = some left → run f left s.memory = run f program memory₀
  through : s.entered = true → s.Idle → s.memory = run f program memory₀

variable [DecidableEq ι] {program : List (List α)} {others : μ → μ → Prop} {memory₀ : μ}
  {made : List (ι × α × Bool)} {s s' : State ι α μ}

/-- A thread goes on inside while nobody else is in. -/
theorem resumes_moved {i : ι} {left : List (List α)} (hentered : s.entered = true)
    (hnone : ∀ j, j ≠ i → s.inside j = none)
    (hrun : run f left s.memory = run f program memory₀) :
    Resumes f program memory₀ (s.moved i (some left)) := by
  refine ⟨?_, ?_, ?_⟩
  · intro hunentered
    exact absurd (hentered.symm.trans hunentered) (by simp)
  · intro j left' hj
    by_cases hji : j = i
    · subst hji
      rw [State.moved_inside] at hj
      rw [← Option.some.inj hj]
      exact hrun
    · rw [State.moved_inside_of_ne _ _ hji, hnone j hji] at hj
      exact absurd hj (by simp)
  · intro _ hidle
    exact absurd hidle (s.not_idle_moved i left)

theorem Resumes.step (h : Resumes f program memory₀ s) (howned : Owned program made s)
    {call : Option (ι × α × Bool)}
    (hstep : Step program (fun a ok m m' => f a m = (m', ok)) others s call s')
    (hothers : ∀ m m', others m m' → m' = m) : Resumes f program memory₀ s' := by
  cases hstep with
  | enter i hin hentered =>
    refine resumes_moved f rfl ?_ (by rw [← h.unentered hentered])
    intro j _
    cases howned with
    | unentered _ hnone _ => exact hnone j
    | entered _ _ hentered' => exact absurd (hentered.symm.trans hentered') Bool.false_ne_true
  | turnedAway => exact h
  | @call i a as blocks ok memory hin hperform =>
    obtain ⟨hentered, hnone, _, _⟩ := howned.inside hin
    refine resumes_moved f hentered hnone ?_
    have hrest := run_rest f a as blocks s.memory
    rw [hperform] at hrest
    exact hrest.trans (h.inside i _ hin)
  | leave i hin =>
    obtain ⟨hentered, hnone, _, _⟩ := howned.inside hin
    refine ⟨?_, ?_, fun _ _ => h.inside i [] hin⟩
    · intro hunentered
      exact absurd (hentered.symm.trans hunentered) (by simp)
    · intro j left hj
      by_cases hji : j = i
      · subst hji
        rw [State.moved_inside] at hj
        exact absurd hj (by simp)
      · rw [State.moved_inside_of_ne _ _ hji, hnone j hji] at hj
        exact absurd hj (by simp)
  | @others memory hm =>
    obtain rfl : memory = s.memory := hothers _ _ hm
    exact h

/-- The threads together do what one thread does alone, if no other code touches the memory. -/
theorem Runs.resumes (h : Runs program (fun a ok m m' => f a m = (m', ok)) others memory₀ made s)
    (hothers : ∀ m m', others m m' → m' = m) : Resumes f program memory₀ s := by
  induction h with
  | start => exact ⟨fun _ => rfl, nofun, nofun⟩
  | step hrun hstep ih => exact ih.step f hrun.owned hstep hothers

end Alone

end Cirradio.OnceGuarded
