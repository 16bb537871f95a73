import Cirradio.EmissionControl
import Cirradio.OnceGuarded

/-!
# Tampering

A thread waits for events of the tamper lines and zeroizes on each of them, while any other
thread may zeroize as well. The zeroize goes through its steps once, whoever asks for it, and
a step that throws takes only the rest of its own block with it.
-/

namespace Cirradio.Security
open OnceGuarded

/-- What a zeroize calls past its flag. -/
inductive ZeroizeCall where
  | zeroizeFhek
  | keyMgrZeroize
  | destroyIdentityKey
  | hsmShutdown
  | clearSession
  | auditLog
  | haltFpgaClocks
  | reboot
  | postZeroizeHook
  deriving DecidableEq, Repr

/-- The calls in order. Those of a block stand in one `try`. -/
def zeroizeBlocks : List (List ZeroizeCall) :=
  [[.zeroizeFhek], [.keyMgrZeroize, .destroyIdentityKey, .hsmShutdown], [.clearSession],
    [.auditLog], [.haltFpgaClocks], [.reboot], [.postZeroizeHook]]

inductive Fd where
  | line
  | stop
  deriving DecidableEq, Repr

/-- Where the thread of the monitor stands in `run_loop`. -/
inductive LoopPoint where
  | head
  | waiting
  | handling (events : List Fd)
  | callback (events : List Fd)
  | zeroizing (events : List Fd)
  | done
  deriving DecidableEq, Repr

/-- A node with its tamper monitor. The threads are the monitor, `none`, and others. -/
structure TamperNode (ι μ : Type) where
  manager : State (Option ι) ZeroizeCall μ
  running : Bool
  /-- The stop descriptor has been written. -/
  stopped : Bool
  /-- The events of the lines that have not been read. -/
  lines : List UInt32
  loop : LoopPoint

inductive TamperEvent (ι : Type) where
  | queued (channel : UInt32)
  | read (channel : UInt32)
  | call (thread : Option ι) (c : ZeroizeCall) (ok : Bool)
  | silent

namespace TamperEvent
variable {ι : Type}

def queuedChannel : TamperEvent ι → Option UInt32
  | .queued channel => some channel
  | _ => none

def readChannel : TamperEvent ι → Option UInt32
  | .read channel => some channel
  | _ => none

def madeCall : TamperEvent ι → Option (Option ι × ZeroizeCall × Bool)
  | .call thread c ok => some (thread, c, ok)
  | _ => none

def ofCall : Option (Option ι × ZeroizeCall × Bool) → TamperEvent ι
  | some (thread, c, ok) => .call thread c ok
  | none => .silent

@[simp] theorem queuedChannel_ofCall (call : Option (Option ι × ZeroizeCall × Bool)) :
    (ofCall call).queuedChannel = none := by
  cases call <;> rfl

@[simp] theorem readChannel_ofCall (call : Option (Option ι × ZeroizeCall × Bool)) :
    (ofCall call).readChannel = none := by
  cases call <;> rfl

@[simp] theorem madeCall_ofCall (call : Option (Option ι × ZeroizeCall × Bool)) :
    (ofCall call).madeCall = call := by
  cases call <;> rfl

end TamperEvent

namespace TamperNode
variable {ι μ : Type} [DecidableEq ι] (perform : ZeroizeCall → Bool → μ → μ → Prop)
  (others : μ → μ → Prop)

/-- The monitor has been started. -/
def started (memory : μ) : TamperNode ι μ := ⟨.start memory, true, false, [], .head⟩

/-- The steps of a node. `stop` clears `running` before it writes the stop descriptor, and
a wait can report the lines without a whole event to read. -/
inductive Step : TamperNode ι μ → TamperEvent ι → TamperNode ι μ → Prop
  | queue (s : TamperNode ι μ) (channel : UInt32) :
      Step s (.queued channel) { s with lines := s.lines ++ [channel] }
  | stop (s : TamperNode ι μ) : Step s .silent { s with running := false }
  | writeStop (s : TamperNode ι μ) : s.running = false → Step s .silent { s with stopped := true }
  | wait (s : TamperNode ι μ) : s.loop = .head → s.running = true →
      Step s .silent { s with loop := .waiting }
  | exit (s : TamperNode ι μ) : s.loop = .head → s.running = false →
      Step s .silent { s with loop := .done }
  | wake (s : TamperNode ι μ) (events : List Fd) : s.loop = .waiting → events.Nodup →
      (.stop ∈ events → s.stopped = true) → Step s .silent { s with loop := .handling events }
  | waitFails (s : TamperNode ι μ) : s.loop = .waiting → Step s .silent { s with loop := .done }
  | stopEvent (s : TamperNode ι μ) (events : List Fd) : s.loop = .handling (.stop :: events) →
      Step s .silent { s with loop := .done }
  | readFails (s : TamperNode ι μ) (events : List Fd) : s.loop = .handling (.line :: events) →
      Step s .silent { s with loop := .handling events }
  | read (s : TamperNode ι μ) (events : List Fd) (channel : UInt32) (lines : List UInt32) :
      s.loop = .handling (.line :: events) → s.lines = channel :: lines →
        Step s (.read channel) { s with lines, loop := .callback events }
  | handled (s : TamperNode ι μ) : s.loop = .handling [] → Step s .silent { s with loop := .head }
  | enter (s : TamperNode ι μ) (events : List Fd) : s.loop = .callback events →
      s.manager.entered = false →
        Step s .silent
          { s with
            manager := { s.manager with entered := true }.moved none (some zeroizeBlocks)
            loop := .zeroizing events }
  | turnedAway (s : TamperNode ι μ) (events : List Fd) : s.loop = .callback events →
      s.manager.entered = true → Step s .silent { s with loop := .handling events }
  | leave (s : TamperNode ι μ) (events : List Fd) : s.loop = .zeroizing events →
      s.manager.inside none = some [] →
        Step s .silent { s with manager := s.manager.moved none none, loop := .handling events }
  /-- A call of the monitor inside its zeroize, or a step of another thread. -/
  | zeroize (s : TamperNode ι μ) {call : Option (Option ι × ZeroizeCall × Bool)}
      {manager : State (Option ι) ZeroizeCall μ} :
      OnceGuarded.Step zeroizeBlocks perform others s.manager call manager →
        (manager.inside none = none ↔ s.manager.inside none = none) →
          Step s (.ofCall call) { s with manager }

/-- The runs of a node from a state on. -/
inductive Runs (s₀ : TamperNode ι μ) : List (TamperEvent ι) → TamperNode ι μ → Prop
  | start : Runs s₀ [] s₀
  | step {events : List (TamperEvent ι)} {s s' : TamperNode ι μ} {event : TamperEvent ι} :
      Runs s₀ events s → Step perform others s event s' → Runs s₀ (events ++ [event]) s'

variable {perform others} {s₀ s s' : TamperNode ι μ} {event : TamperEvent ι}
  {events : List (TamperEvent ι)}

omit [DecidableEq ι] in
theorem filterMap_singleton {β : Type} (f : TamperEvent ι → Option β) (event : TamperEvent ι) :
    [event].filterMap f = (f event).toList := by
  cases hf : f event <;> simp [hf]

theorem Step.queued (hstep : Step perform others s event s') :
    event.readChannel.toList ++ s'.lines = s.lines ++ event.queuedChannel.toList := by
  cases hstep with
  | read events channel lines _ hlines => rw [hlines]; simp [TamperEvent.readChannel,
      TamperEvent.queuedChannel]
  | queue channel => rfl
  | zeroize => simp
  | _ => exact (List.append_nil _).symm

theorem Runs.queued (h : Runs perform others s₀ events s) :
    events.filterMap TamperEvent.readChannel ++ s.lines =
      s₀.lines ++ events.filterMap TamperEvent.queuedChannel := by
  induction h with
  | start => simp
  | @step events s s' event _ hstep ih =>
    rw [List.filterMap_append, List.filterMap_append, filterMap_singleton, filterMap_singleton,
      List.append_assoc, hstep.queued, ← List.append_assoc, ih, List.append_assoc]

/-- The monitor is in the zeroize only at the point of its callback. -/
def Outside (s : TamperNode ι μ) : Prop :=
  (∀ pending, s.loop ≠ .zeroizing pending) → s.manager.inside none = none

theorem Step.outside (hstep : Step perform others s event s') (h : s.Outside) : s'.Outside := by
  cases hstep with
  | enter pending hloop _ => exact fun hout => absurd rfl (hout pending)
  | leave pending hloop _ => exact fun _ => State.moved_inside ..
  | zeroize hmanager hinside => exact fun hout => hinside.mpr (h hout)
  | queue | stop | writeStop => exact h
  | _ =>
    intro _
    apply h
    intro pending
    simp [*]

theorem Step.manager (hstep : Step perform others s event s') (h : s.Outside) :
    (event.madeCall = none ∧ s'.manager = s.manager) ∨
      OnceGuarded.Step zeroizeBlocks perform others s.manager event.madeCall s'.manager := by
  cases hstep with
  | enter pending hloop hentered =>
    right
    apply OnceGuarded.Step.enter none _ hentered
    apply h
    simp [hloop]
  | leave pending hloop hinside => exact .inr (.leave none hinside)
  | zeroize hmanager _ =>
    right
    rw [TamperEvent.madeCall_ofCall]
    exact hmanager
  | _ => exact .inl ⟨rfl, rfl⟩

theorem Runs.outside {memory₀ : μ} (h : Runs perform others (started memory₀) events s) :
    s.Outside := by
  induction h with
  | start => exact fun _ => rfl
  | step _ hstep ih => exact hstep.outside ih

theorem Runs.manager {memory₀ : μ} (h : Runs perform others (started memory₀) events s) :
    OnceGuarded.Runs zeroizeBlocks perform others memory₀
      (events.filterMap TamperEvent.madeCall) s.manager := by
  induction h with
  | start => exact .start
  | @step events s s' event hrun hstep ih =>
    rw [List.filterMap_append, filterMap_singleton]
    rcases hstep.manager hrun.outside with ⟨hcall, hsame⟩ | hmanager
    · rw [hcall, hsame, Option.toList_none, List.append_nil]
      exact ih
    · exact ih.step hmanager

/-- After an event has been read the flag is up, unless the callback is still to be made. -/
def Answered (events : List (TamperEvent ι)) (s : TamperNode ι μ) : Prop :=
  events.filterMap TamperEvent.readChannel ≠ [] →
    s.manager.entered = true ∨ ∃ pending, s.loop = .callback pending

theorem Step.entered (hstep : Step perform others s event s') (h : s.manager.entered = true) :
    s'.manager.entered = true := by
  cases hstep with
  | zeroize hmanager _ => cases hmanager <;> first | exact h | rfl
  | enter => rfl
  | _ => exact h

theorem Step.answered (hstep : Step perform others s event s') (h : Answered events s) :
    Answered (events ++ [event]) s' := by
  intro hread
  by_cases hentered : s.manager.entered = true
  · exact .inl (hstep.entered hentered)
  cases hstep with
  | read pending channel lines => exact .inr ⟨pending, rfl⟩
  | enter => exact .inl rfl
  | turnedAway pending hloop hup => exact absurd hup hentered
  | zeroize hmanager =>
    right
    apply (h _).resolve_left hentered
    simpa using hread
  | queue | stop | writeStop =>
    right
    apply (h _).resolve_left hentered
    simpa [TamperEvent.readChannel] using hread
  | _ =>
    obtain ⟨pending, hcallback⟩ : ∃ pending, s.loop = .callback pending := by
      apply (h _).resolve_left hentered
      simpa [TamperEvent.readChannel] using hread
    simp_all

theorem Runs.answered {memory₀ : μ} (h : Runs perform others (started memory₀) events s) :
    Answered events s := by
  induction h with
  | start => exact fun h => absurd rfl h
  | step _ hstep ih => exact hstep.answered ih

/-- How many events can still be read before the monitor is back at the head of its loop. -/
def readsLeft (s : TamperNode ι μ) : ℕ :=
  match s.loop with
  | .waiting => 1
  | .handling pending | .callback pending | .zeroizing pending => pending.count .line
  | .head | .done => 0

theorem Step.readsLeft_le (hstep : Step perform others s event s') (h : s.readsLeft ≤ 1) :
    s'.readsLeft ≤ 1 := by
  cases hstep with
  | wake pending _ hnodup _ => exact List.nodup_iff_count_le_one.mp hnodup .line
  | _ => simp_all [readsLeft]

theorem Runs.readsLeft_le {memory₀ : μ} (h : Runs perform others (started memory₀) events s) :
    s.readsLeft ≤ 1 := by
  induction h with
  | start => exact Nat.zero_le 1
  | step _ hstep ih => exact hstep.readsLeft_le ih

/-- Once `running` is down the monitor does not wait again. -/
theorem Step.reads_of_stopped (hstep : Step perform others s event s')
    (hrunning : s.running = false) :
    s'.running = false ∧ event.readChannel.toList.length + s'.readsLeft ≤ s.readsLeft := by
  cases hstep with
  | wait hloop hup => exact absurd (hrunning.symm.trans hup) Bool.false_ne_true
  | wake pending hloop hnodup _ =>
    refine ⟨hrunning, ?_⟩
    have hcount := List.nodup_iff_count_le_one.mp hnodup .line
    simpa [readsLeft, hloop, TamperEvent.readChannel] using hcount
  | zeroize => exact ⟨hrunning, by simp [readsLeft]⟩
  | stop => exact ⟨rfl, by simp [readsLeft, TamperEvent.readChannel]⟩
  | read pending channel lines hloop _ =>
    refine ⟨hrunning, ?_⟩
    simp [readsLeft, hloop, TamperEvent.readChannel, Nat.add_comm]
  | _ =>
    refine ⟨hrunning, ?_⟩
    simp_all [readsLeft, TamperEvent.readChannel]

theorem Runs.reads_of_stopped (h : Runs perform others s₀ events s)
    (hrunning : s₀.running = false) :
    s.running = false ∧
      (events.filterMap TamperEvent.readChannel).length + s.readsLeft ≤ s₀.readsLeft := by
  induction h with
  | start => exact ⟨hrunning, by simp⟩
  | @step events s s' event _ hstep ih =>
    obtain ⟨hdown, hreads⟩ := hstep.reads_of_stopped ih.1
    refine ⟨hdown, ?_⟩
    rw [List.filterMap_append, List.length_append, filterMap_singleton]
    omega

/-- What holds after any steps of the lines, the monitor and the other threads: the events
are read in order; one thread alone makes the calls of the zeroize, in order and none twice;
when an event has been read, its callback is not still to be made and nobody is in, only calls
after one that threw in the same block have not been made, whether or not the monitor has been
stopped; and a stopped monitor reads one more event at most. -/
theorem zeroized_once {memory₀ : μ} (h : Runs perform others (started memory₀) events s) :
    events.filterMap TamperEvent.readChannel ++ s.lines =
        events.filterMap TamperEvent.queuedChannel ∧
      (∃ owner, ∀ call ∈ events.filterMap TamperEvent.madeCall, call.1 = owner) ∧
      List.Sublist ((events.filterMap TamperEvent.madeCall).map (·.2.1)) zeroizeBlocks.flatten ∧
      (events.filterMap TamperEvent.readChannel ≠ [] → (∀ pending, s.loop ≠ .callback pending) →
        s.manager.Idle → ∀ before call after, before ++ call :: after ∈ zeroizeBlocks →
          (∀ b ∈ before, (b, false) ∉ (events.filterMap TamperEvent.madeCall).map Prod.snd) →
          call ∈ (events.filterMap TamperEvent.madeCall).map (·.2.1)) ∧
      (s.running = false → ∀ (more : List (TamperEvent ι)) (t : TamperNode ι μ),
        Runs perform others s more t → (more.filterMap TamperEvent.readChannel).length ≤ 1) := by
  have hread := h.queued
  rw [show (started memory₀ : TamperNode ι μ).lines = [] from rfl, List.nil_append] at hread
  refine ⟨hread, ?_⟩
  have hstopped : s.running = false → ∀ (more : List (TamperEvent ι)) (t : TamperNode ι μ),
      Runs perform others s more t → (more.filterMap TamperEvent.readChannel).length ≤ 1 := by
    intro hrunning more t hmore
    have hmore := (hmore.reads_of_stopped hrunning).2
    have hone := h.readsLeft_le
    omega
  rcases h.manager.owned.attempts with ⟨owner, left, howner, hattempts, hdone⟩ | ⟨hdown, hmade⟩
  · have hsublist := hattempts.sublist
    rw [List.map_map] at hsublist
    refine ⟨⟨owner, howner⟩, (List.sublist_append_left _ _).trans hsublist, ?_, hstopped⟩
    intro _ _ hidle before call after hblock hok
    obtain rfl := hdone hidle
    have hmade := hattempts.made_of_done hblock hok
    rwa [List.map_map] at hmade
  · refine ⟨⟨none, by simp [hmade]⟩, by simp [hmade], ?_, hstopped⟩
    intro hevents hloop
    rcases h.answered hevents with hup | ⟨pending, hcallback⟩
    · exact absurd (hdown.symm.trans hup) Bool.false_ne_true
    · exact absurd hcallback (hloop pending)

/-- Every call goes well but those to the HSM, which the identity key makes throw. -/
def samplePerform (call : ZeroizeCall) (ok : Bool) (_ _ : Unit) : Prop :=
  ok = !(call == .destroyIdentityKey)

theorem Runs.call (h : Runs perform others s₀ events s) (call : ZeroizeCall) (ok : Bool)
    (memory : μ) {calls : List ZeroizeCall} {blocks : List (List ZeroizeCall)}
    (hinside : s.manager.inside none = some ((call :: calls) :: blocks))
    (hperform : perform call ok s.manager.memory memory) :
    Runs perform others s₀ (events ++ [.call none call ok])
      { s with
        manager :=
          { s.manager with memory }.moved none (some (rest ((call :: calls) :: blocks) ok)) } :=
  h.step (.zeroize s (.call hinside hperform) (by simp [hinside]))

/-- The session is cleared although the HSM throws, and the monitor is stopped after it. -/
theorem zeroized_once_throw : ∃ (events : List (TamperEvent Unit)) (s : TamperNode Unit Unit),
    Runs samplePerform (fun _ _ => True) (started ()) events s ∧
      .clearSession ∈ (events.filterMap TamperEvent.madeCall).map (·.2.1) := by
  have hstart : Runs samplePerform (fun _ _ => True) (started () : TamperNode Unit Unit) []
      (started ()) := .start
  have hread := hstart.step (.queue _ 2) |>.step (.wait _ rfl rfl)
    |>.step (.wake _ [.line] rfl (by decide) nofun) |>.step (.read _ [] 2 [] rfl rfl)
  have hentered := hread.step (.enter _ [] rfl rfl)
    |>.step (.zeroize _ (.turnedAway (some ()) rfl rfl) Iff.rfl)
  have hhsm := hentered.call .zeroizeFhek true () rfl rfl
    |>.call .keyMgrZeroize true () rfl rfl |>.call .destroyIdentityKey false () rfl rfl
  have hrest := hhsm.call .clearSession true () rfl rfl |>.call .auditLog true () rfl rfl
    |>.call .haltFpgaClocks true () rfl rfl |>.call .reboot true () rfl rfl
    |>.call .postZeroizeHook true () rfl rfl
  have hdone := hrest.step (.leave _ [] rfl rfl) |>.step (.handled _ rfl)
    |>.step (.stop _) |>.step (.exit _ rfl rfl)
  refine ⟨_, _, hdone, ?_⟩
  refine (zeroized_once hdone).2.2.2.1 (by decide) (by simp) ?_ [] .clearSession [] (by decide)
    (by simp)
  intro thread
  rcases thread with - | thread <;> rfl

end TamperNode

end Cirradio.Security

namespace Cirradio.Node
open Security Transec OnceGuarded

namespace EmconNode
variable {S σ κ Q : Type} (P : Platform S σ κ) (shutdown : σ → σ)

/-- A call of the zeroize on a node. None of them throws there. -/
def zeroizeCall (s : EmconNode σ κ Q) : ZeroizeCall → EmconNode σ κ Q
  | .zeroizeFhek =>
    { s with emcon := { s.emcon with regs := nullAxiRegs.zeroizeFhek s.emcon.regs } }
  | .keyMgrZeroize =>
    { s with node := { s.node with keyMgr := s.node.keyMgr.zeroize P.hsm } }
  | .destroyIdentityKey =>
    if s.ikHandle ≠ 0 then
      let hsm := P.hsm.reset s.node.keyMgr.hsm (some s.ikHandle)
      { s with node := { s.node with keyMgr := { s.node.keyMgr with hsm } }, ikHandle := 0 }
    else s
  | .hsmShutdown =>
    let hsm := shutdown s.node.keyMgr.hsm
    { s with node := { s.node with keyMgr := { s.node.keyMgr with hsm } } }
  | .haltFpgaClocks =>
    { s with emcon := { s.emcon with regs := nullAxiRegs.haltFpgaClocks s.emcon.regs } }
  | .postZeroizeHook => { s with emcon := s.emcon.forceEmcon0 nullAxiRegs }
  | .clearSession | .auditLog | .reboot => s

theorem run_zeroizeBlocks {s : EmconNode σ κ Q} (h : s.zeroized = false) :
    { run (fun call s => (s.zeroizeCall P shutdown call, true)) zeroizeBlocks s with
      zeroized := true } = s.zeroizeImmediate P shutdown := by
  unfold zeroizeImmediate
  rw [if_neg (by simp [h])]
  by_cases hik : s.ikHandle = 0
  · simp [run, runBlock, zeroizeBlocks, zeroizeCall, zeroizeRun, hik, IHsmEngine.reset]
  · simp [run, runBlock, zeroizeBlocks, zeroizeCall, zeroizeRun, hik]

/-- Whenever no thread is in the zeroize, a node is as it was or as one call of it alone leaves
it, however the threads and the monitor took turns. -/
theorem zeroizeImmediate_of_threads {ι : Type} [DecidableEq ι] {s : EmconNode σ κ Q}
    (hzeroized : s.zeroized = false) {events : List (TamperEvent ι)}
    {t : TamperNode ι (EmconNode σ κ Q)}
    (h : TamperNode.Runs
      (fun call ok m m' => (m.zeroizeCall P shutdown call, true) = (m', ok)) (fun _ _ => False)
      (.started s) events t) (hidle : t.manager.Idle) :
    { t.manager.memory with zeroized := t.manager.entered } =
      if t.manager.entered then s.zeroizeImmediate P shutdown else s := by
  have hresumes := h.manager.resumes
    (fun call (m : EmconNode σ κ Q) => (m.zeroizeCall P shutdown call, true))
    (fun _ _ => False.elim)
  cases hentered : t.manager.entered with
  | false =>
    rw [hresumes.unentered hentered, if_neg Bool.false_ne_true, ← hzeroized]
  | true =>
    rw [hresumes.through hentered hidle]
    exact run_zeroizeBlocks P shutdown hzeroized

/-- A node with its keys and no identity key, which the monitor zeroizes. -/
theorem zeroizeImmediate_of_threads_keyed :
    ∃ t : TamperNode Unit (EmconNode (List (Option Bytes)) Unit Network.MeshRouter.Percent),
      t.manager.entered = true ∧ t.manager.memory.node.keyMgr.hsm = [none, none, none] := by
  let s : EmconNode (List (Option Bytes)) Unit Network.MeshRouter.Percent :=
    ⟨RadioNode.sampleNode 1, .new nullAxiRegs (), 0, false⟩
  have hstart : TamperNode.Runs (fun call ok m m' =>
      (m.zeroizeCall RadioNode.samplePlatform id call, true) = (m', ok)) (fun _ _ => False)
      (.started s : TamperNode Unit _) [] (.started s) := .start
  have hread := hstart.step (.queue _ 2) |>.step (.wait _ rfl rfl)
    |>.step (.wake _ [.line] rfl (by decide) nofun) |>.step (.read _ [] 2 [] rfl rfl)
  have hentered := hread.step (.enter _ [] rfl rfl)
    |>.step (.zeroize _ (.turnedAway (some ()) rfl rfl) Iff.rfl)
  have hcalls := hentered.call .zeroizeFhek true _ rfl rfl
    |>.call .keyMgrZeroize true _ rfl rfl |>.call .destroyIdentityKey true _ rfl rfl
    |>.call .hsmShutdown true _ rfl rfl |>.call .clearSession true _ rfl rfl
    |>.call .auditLog true _ rfl rfl |>.call .haltFpgaClocks true _ rfl rfl
    |>.call .reboot true _ rfl rfl |>.call .postZeroizeHook true _ rfl rfl
  have hdone := hcalls.step (.leave _ [] rfl rfl)
  have hnode := zeroizeImmediate_of_threads RadioNode.samplePlatform id rfl hdone
    (by rintro (- | thread) <;> rfl)
  refine ⟨_, ?_, (congrArg (·.node.keyMgr.hsm) hnode).trans (by decide)⟩
  rfl

end EmconNode

end Cirradio.Node
