import NachOS.Semaphore

/-! The kernel's thread system: `Thread`, `Scheduler`, `Interrupt` and `Semaphore`
together (threads/thread.cc, threads/scheduler.cc, machine/interrupt.cc, threads/synch.cc).
A step of the machine ends where interrupts are enabled, where handlers may run, in the
loop of `Sleep`, or at a `SWITCH`. -/
namespace NachOS
namespace Scheduler

open StateMachine

inductive IntStatus
  | intOff | intOn
  deriving DecidableEq, Repr

inductive ThreadStatus
  | justCreated | running | ready | blocked
  deriving DecidableEq, Repr

/-- What a thread goes on with when it is switched to: `ThreadRoot`, or the code after
`Run` in `Yield` or in the `Sleep` of a `P`, with the local variables it needs there. -/
inductive Frame (Sem Thread : Type)
  | begin
  | yield (oldLevel : IntStatus)
  | inP (sem : Sem) (currentThread : Thread) (oldLevel : IntStatus)
  | finish
  deriving DecidableEq, Repr

/-- Where the executing thread is.  `oneTick` is the entry of `Interrupt::OneTick`,
`handlers` and `idle` are in `CheckIfDue`, `sleeping` is the loop of `Thread::Sleep` and
`switched` the first point after a `SWITCH`. -/
inductive Control (Sem Thread : Type)
  | running | oneTick | handlers | afterHandlers
  | sleeping (finishing : Bool) (frame : Frame Sem Thread)
  | idle (finishing : Bool) (frame : Frame Sem Thread)
  | switched
  deriving DecidableEq, Repr

/-- `executing` is the thread whose registers are on the CPU, `currentThread` is the
kernel's variable.  `readied`, `dispatched` and `destroyed` are ghosts. -/
structure State (Sem Thread : Type) where
  currentThread : Thread
  executing : Thread
  readyList : List Thread
  toBeDestroyed : Option Thread
  level : IntStatus
  inHandler : Bool
  yieldOnReturn : Bool
  status : Thread → ThreadStatus
  sem : Sem → Semaphore.State Thread
  saved : Thread → Frame Sem Thread
  control : Control Sem Thread
  readied : List Thread
  dispatched : List Thread
  destroyed : List Thread

variable {Sem Thread : Type} [DecidableEq Sem] [DecidableEq Thread]

namespace State

/-- `Interrupt::SetLevel`; enabling interrupts goes through `OneTick`. -/
def SetLevel (k : State Sem Thread) (now : IntStatus) : Except Fault (State Sem Thread) := do
  check (now = .intOff ∨ k.inHandler = false)
  if now = .intOn ∧ k.level = .intOff then
    return { k with level := .intOn, control := .oneTick }
  else
    return { k with level := now }

def ReadyToRun (k : State Sem Thread) (thread : Thread) : Except Fault (State Sem Thread) := do
  check (k.level = .intOff)
  return { k with
    status := Function.update k.status thread .ready
    readyList := ← KernelList.append k.readyList thread
    readied := k.readied ++ [thread] }

def FindNextToRun (k : State Sem Thread) :
    Except Fault (Option Thread × State Sem Thread) := do
  check (k.level = .intOff)
  if k.readyList = [] then
    return (none,k)
  else
    let (nextThread,readyList) ← KernelList.removeFront k.readyList
    return (some nextThread,
      { k with readyList := readyList, dispatched := k.dispatched ++ [nextThread] })

/-- `Scheduler::Run` up to and including `SWITCH`; `frame` is where the old thread stops. -/
def Run (k : State Sem Thread) (nextThread : Thread) (finishing : Bool)
    (frame : Frame Sem Thread) : Except Fault (State Sem Thread) := do
  let oldThread := k.currentThread
  check (k.level = .intOff)
  check (finishing = true → k.toBeDestroyed = none)
  return { k with
    toBeDestroyed := if finishing then some oldThread else k.toBeDestroyed
    currentThread := nextThread
    status := Function.update k.status nextThread .running
    saved := Function.update k.saved oldThread frame
    executing := nextThread
    control := .switched }

/-- `delete toBeDestroyed` runs `~Thread`, which asserts that the thread is not current. -/
def CheckToBeDestroyed (k : State Sem Thread) : Except Fault (State Sem Thread) :=
  match k.toBeDestroyed with
  | none => return k
  | some thread => do
    check (thread ≠ k.currentThread)
    return { k with toBeDestroyed := none, destroyed := k.destroyed ++ [thread] }

/-- `Thread::Sleep` up to its loop. -/
def Sleep (k : State Sem Thread) (this : Thread) (finishing : Bool)
    (frame : Frame Sem Thread) : Except Fault (State Sem Thread) := do
  check (this = k.currentThread)
  check (k.level = .intOff)
  return { k with
    status := Function.update k.status this .blocked
    control := .sleeping finishing frame }

def Yield (k : State Sem Thread) (this : Thread) : Except Fault (State Sem Thread) := do
  let oldLevel := k.level
  let k ← k.SetLevel .intOff
  check (this = k.currentThread)
  let (nextThread,k) ← k.FindNextToRun
  match nextThread with
  | some nextThread => do
    let k ← k.ReadyToRun this
    k.Run nextThread false (.yield oldLevel)
  | none => SetLevel { k with control := .running } oldLevel

def Finish (k : State Sem Thread) (this : Thread) : Except Fault (State Sem Thread) := do
  let k ← k.SetLevel .intOff
  check (this = k.currentThread)
  k.Sleep this true .finish

/-- `Thread::Fork`; `StackAllocate` makes the new thread start in `ThreadRoot`. -/
def Fork (k : State Sem Thread) (this : Thread) : Except Fault (State Sem Thread) := do
  let k := { k with saved := Function.update k.saved this .begin }
  let oldLevel := k.level
  let k ← k.SetLevel .intOff
  let k ← k.ReadyToRun this
  k.SetLevel oldLevel

/-- One pass of the loop in `Semaphore::P`, with the rest of `P` if it gets through. -/
def passP (k : State Sem Thread) (sem : Sem) (currentThread : Thread) (oldLevel : IntStatus)
    (s : Semaphore.State Thread) : Except Fault (State Sem Thread) := do
  let (s,through) ← s.passP currentThread
  let k := { k with sem := Function.update k.sem sem s }
  if through then
    SetLevel { k with control := .running } oldLevel
  else
    k.Sleep currentThread false (.inP sem currentThread oldLevel)

def P (k : State Sem Thread) (sem : Sem) : Except Fault (State Sem Thread) := do
  let currentThread := k.currentThread
  let oldLevel := k.level
  let k ← k.SetLevel .intOff
  k.passP sem currentThread oldLevel (k.sem sem)

/-- `Semaphore::V` between its two calls of `SetLevel`. -/
def wake (k : State Sem Thread) (sem : Sem) : Except Fault (State Sem Thread) :=
  let k' := { k with sem := Function.update k.sem sem (k.sem sem).callV }
  match (k.sem sem).sem.V.2 with
  | none => return k'
  | some thread => k'.ReadyToRun thread

def V (k : State Sem Thread) (sem : Sem) : Except Fault (State Sem Thread) := do
  let oldLevel := k.level
  let k ← k.SetLevel .intOff
  let k ← k.wake sem
  k.SetLevel oldLevel

/-- The code after `SWITCH` in the thread that now executes: `Begin`, or the end of `Run`
and what `Yield` or `P` do next. -/
def resume (k : State Sem Thread) : Except Fault (State Sem Thread) :=
  match k.saved k.executing with
  | .begin => do
    let k ← k.CheckToBeDestroyed
    SetLevel { k with control := .running } .intOn
  | .yield oldLevel => do
    check (k.level = .intOff)
    let k ← k.CheckToBeDestroyed
    SetLevel { k with control := .running } oldLevel
  | .inP sem currentThread oldLevel => do
    check (k.level = .intOff)
    let k ← k.CheckToBeDestroyed
    let s := k.sem sem
    k.passP sem currentThread oldLevel { s with woken := s.woken.erase currentThread }
  | .finish => .error .assertion

end State

/-- The first six are the calls of the executing thread, `handlerV` and `timer` are the
handlers of `CheckIfDue`, the others let the kernel go on. -/
inductive Action (Sem Thread : Type)
  | fork (t : Thread) | yield | P (sem : Sem) | V (sem : Sem) | finish | instruction
  | handlerV (sem : Sem) | timer
  | interrupt | handled | returned | findNext | idled | resume
  deriving DecidableEq, Repr

def Control.InHandler : Control Sem Thread → Prop
  | .handlers | .idle _ _ => True
  | _ => False

instance (c : Control Sem Thread) : Decidable c.InHandler := by
  cases c <;> unfold Control.InHandler <;> infer_instance

def step (k : State Sem Thread) : Action Sem Thread → Except Fault (State Sem Thread)
  | .fork t => do
    require (k.control = .running ∧ k.status t = .justCreated)
    k.Fork t
  | .yield => do
    require (k.control = .running)
    k.Yield k.currentThread
  | .P sem => do
    require (k.control = .running)
    k.P sem
  | .V sem => do
    require (k.control = .running)
    k.V sem
  | .finish => do
    require (k.control = .running)
    k.Finish k.currentThread
  | .instruction => do
    require (k.control = .running)
    return { k with control := .oneTick }
  | .handlerV sem => do
    require k.control.InHandler
    k.V sem
  -- the alarm asks for a switch unless the machine is idle
  | .timer => do
    require k.control.InHandler
    check (k.inHandler = true)
    return if k.control = .handlers then { k with yieldOnReturn := true } else k
  | .interrupt => do
    require (k.control = .oneTick)
    return { k with level := .intOff, inHandler := true, control := .handlers }
  | .handled => do
    require (k.control = .handlers)
    return { k with level := .intOn, inHandler := false, control := .afterHandlers }
  | .returned => do
    require (k.control = .afterHandlers)
    if k.yieldOnReturn then
      State.Yield { k with yieldOnReturn := false } k.currentThread
    else
      return { k with control := .running }
  | .findNext =>
    match k.control with
    | .sleeping finishing frame => do
      let (nextThread,k) ← k.FindNextToRun
      match nextThread with
      | some nextThread => k.Run nextThread finishing frame
      | none => do
        check (k.level = .intOff)
        return { k with inHandler := true, control := .idle finishing frame }
    | _ => .error .blocked
  | .idled =>
    match k.control with
    | .idle finishing frame =>
      return { k with inHandler := false, control := .sleeping finishing frame }
    | _ => .error .blocked
  | .resume => do
    require (k.control = .switched)
    k.resume

/-- The kernel at the end of `Kernel::Initialize`, in the call of `Enable`. -/
def initial (initialValue : Sem → ℤ) (main : Thread) : State Sem Thread where
  currentThread := main
  executing := main
  readyList := []
  toBeDestroyed := none
  level := .intOn
  inHandler := false
  yieldOnReturn := false
  status := Function.update (fun _ => .justCreated) main .running
  sem s := ⟨Semaphore.new (initialValue s),[],0,0⟩
  saved _ := .begin
  control := .oneTick
  readied := []
  dispatched := []
  destroyed := []

def machine (initialValue : Sem → ℤ) (main : Thread) :
    Machine (State Sem Thread) (Action Sem Thread) where
  initial k := k = initial initialValue main
  step := step

/-! The abstract view: every thread is in one place, and each operation of the kernel
moves one thread. -/

/-- `ready` and `dispatched` remember the semaphore whose `V` woke the thread and whose
`value` it still has to re-test. -/
inductive Place (Sem : Type)
  | unborn | running | ready (wokenBy : Option Sem) | dispatched (wokenBy : Option Sem)
  | waiting (sem : Sem) | finishing | dead
  deriving DecidableEq, Repr

namespace Place

def status : Place Sem → ThreadStatus
  | .unborn => .justCreated
  | .running | .dispatched _ => .running
  | .ready _ => .ready
  | .waiting _ | .finishing | .dead => .blocked

/-- Places of threads other than the current one. -/
def Parked : Place Sem → Prop
  | .running | .dispatched _ | .finishing => False
  | .unborn | .ready _ | .waiting _ | .dead => True

/-- Where a thread in this place goes on when it is switched to. -/
def FrameOk (t : Thread) (frame : Frame Sem Thread) : Place Sem → Prop
  | .ready none | .dispatched none => frame = .begin ∨ frame = .yield .intOn
  | .ready (some s) | .dispatched (some s) | .waiting s => frame = .inP s t .intOn
  | .unborn | .running | .finishing | .dead => True

end Place

namespace State

/-- The lists, the statuses and the saved frames are those of the places. -/
structure Core (k : State Sem Thread) (place : Thread → Place Sem) : Prop where
  executing : k.executing = k.currentThread
  ready : ∀ t, t ∈ k.readyList ↔ ∃ w, place t = .ready w
  readyNodup : k.readyList.Nodup
  waiting : ∀ s t, t ∈ (k.sem s).sem.queue ↔ place t = .waiting s
  waitingNodup : ∀ s, (k.sem s).sem.queue.Nodup
  woken : ∀ s t, t ∈ (k.sem s).woken ↔
    place t = .ready (some s) ∨ place t = .dispatched (some s)
  wokenNodup : ∀ s, (k.sem s).woken.Nodup
  status : ∀ t, k.status t = (place t).status
  others : ∀ t, t ≠ k.currentThread → (place t).Parked
  frames : ∀ t, t ≠ k.currentThread → (place t).FrameOk t (k.saved t)
  dead : ∀ t, place t = .dead ↔ t ∈ k.destroyed ∨ k.toBeDestroyed = some t
  deadOnce : (k.destroyed ++ k.toBeDestroyed.toList).Nodup
  fifo : k.readied = k.dispatched ++ k.readyList

/-- The place of a thread in the loop of `Sleep`; a handler may have made it ready. -/
def SleepOk (k : State Sem Thread) (p : Place Sem) (finishing : Bool)
    (frame : Frame Sem Thread) : Prop :=
  if finishing then p = .finishing
  else ∃ s, frame = .inP s k.currentThread .intOn ∧ (p = .waiting s ∨ p = .ready (some s))

def ControlOk (k : State Sem Thread) (p : Place Sem) : Prop :=
  match k.control with
  | .running | .oneTick | .afterHandlers =>
    k.level = .intOn ∧ k.inHandler = false ∧ k.toBeDestroyed = none ∧ p = .running
  | .handlers => k.level = .intOff ∧ k.inHandler = true ∧ k.toBeDestroyed = none ∧ p = .running
  | .sleeping finishing frame => k.level = .intOff ∧ k.inHandler = false ∧
      k.toBeDestroyed = none ∧ k.SleepOk p finishing frame
  | .idle finishing frame => k.level = .intOff ∧ k.inHandler = true ∧
      k.toBeDestroyed = none ∧ k.SleepOk p finishing frame
  | .switched => k.level = .intOff ∧ k.inHandler = false ∧
      (∃ w, p = .dispatched w) ∧ p.FrameOk k.currentThread (k.saved k.currentThread)

def Inv (k : State Sem Thread) : Prop :=
  ∃ place, k.Core place ∧ k.ControlOk (place k.currentThread)

variable {k k' : State Sem Thread} {place : Thread → Place Sem} {t : Thread} {s : Sem}

/-! What the kernel's functions return where their assertions hold. -/

omit [DecidableEq Sem] [DecidableEq Thread] in
theorem SetLevel_off (k : State Sem Thread) :
    k.SetLevel .intOff = .ok { k with level := .intOff } := by
  simp [SetLevel,bind,Except.bind,pure,Except.pure]

omit [DecidableEq Sem] [DecidableEq Thread] in
theorem SetLevel_on (hl : k.level = .intOff) (hh : k.inHandler = false) :
    k.SetLevel .intOn = .ok { k with level := .intOn, control := .oneTick } := by
  simp [SetLevel,hl,hh,bind,Except.bind,pure,Except.pure]

omit [DecidableEq Sem] in
theorem ReadyToRun_eq (hl : k.level = .intOff) (ht : t ∉ k.readyList) :
    k.ReadyToRun t = .ok { k with
      status := Function.update k.status t .ready
      readyList := k.readyList ++ [t]
      readied := k.readied ++ [t] } := by
  simp [ReadyToRun,hl,KernelList.append_of_notMem ht,bind,Except.bind,pure,Except.pure]

omit [DecidableEq Sem] [DecidableEq Thread] in
theorem FindNextToRun_nil (hl : k.level = .intOff) (hr : k.readyList = []) :
    k.FindNextToRun = .ok (none,k) := by
  simp [FindNextToRun,hl,hr,bind,Except.bind,pure,Except.pure]

omit [DecidableEq Sem] [DecidableEq Thread] in
theorem FindNextToRun_cons {l : List Thread} (hl : k.level = .intOff)
    (hr : k.readyList = t :: l) : k.FindNextToRun = .ok (some t,
      { k with readyList := l, dispatched := k.dispatched ++ [t] }) := by
  simp [FindNextToRun,hl,hr,KernelList.removeFront,bind,Except.bind,pure,Except.pure]

omit [DecidableEq Sem] in
theorem Run_eq {finishing : Bool} {frame : Frame Sem Thread} (hl : k.level = .intOff)
    (hd : k.toBeDestroyed = none) : k.Run t finishing frame = .ok { k with
      toBeDestroyed := if finishing then some k.currentThread else none
      currentThread := t
      status := Function.update k.status t .running
      saved := Function.update k.saved k.currentThread frame
      executing := t
      control := .switched } := by
  simp [Run,hl,hd,bind,Except.bind,pure,Except.pure]

omit [DecidableEq Sem] in
theorem CheckToBeDestroyed_eq (hd : ∀ t, k.toBeDestroyed = some t → t ≠ k.currentThread) :
    k.CheckToBeDestroyed = .ok { k with
      toBeDestroyed := none
      destroyed := k.destroyed ++ k.toBeDestroyed.toList } := by
  unfold CheckToBeDestroyed
  cases hc : k.toBeDestroyed with
  | none =>
    simp only [Option.toList_none,List.append_nil]
    rw [← hc]
    rfl
  | some t => simp [hd t hc,bind,Except.bind,pure,Except.pure]

omit [DecidableEq Sem] in
theorem Sleep_eq {finishing : Bool} {frame : Frame Sem Thread} (hl : k.level = .intOff) :
    k.Sleep k.currentThread finishing frame = .ok { k with
      status := Function.update k.status k.currentThread .blocked
      control := .sleeping finishing frame } := by
  simp [Sleep,hl,bind,Except.bind,pure,Except.pure]

/-! The moves. -/

omit [DecidableEq Sem] [DecidableEq Thread] in
theorem Core.withControl (h : k.Core place) (l : IntStatus) (b y : Bool)
    (c : Control Sem Thread) :
    Core { k with level := l, inHandler := b, yieldOnReturn := y, control := c } place :=
  ⟨h.executing,h.ready,h.readyNodup,h.waiting,h.waitingNodup,h.woken,h.wokenNodup,h.status,
    h.others,h.frames,h.dead,h.deadOnce,h.fifo⟩

omit [DecidableEq Sem] in
/-- A new thread, or the current one, goes to the end of the ready list. -/
theorem Core.makeReady (h : k.Core place) (hp : place t = .unborn ∨ place t = .running)
    (hf : t ≠ k.currentThread → k.saved t = .begin) :
    Core { k with
      status := Function.update k.status t .ready
      readyList := k.readyList ++ [t]
      readied := k.readied ++ [t] } (Function.update place t (.ready none)) := by
  have ht : t ∉ k.readyList := by
    rw [h.ready]
    rintro ⟨w,hw⟩
    rcases hp with hp | hp <;> simp [hp] at hw
  refine ⟨h.executing,?_,?_,?_,h.waitingNodup,?_,h.wokenNodup,?_,?_,?_,?_,h.deadOnce,?_⟩
  · intro u
    by_cases hu : u = t <;> simp [hu,h.ready]
  · have hnd : (k.readyList ++ [t]).Nodup := List.Nodup.append h.readyNodup (List.nodup_singleton t)
      (by simpa using ht)
    exact hnd
  · intro s u
    by_cases hu : u = t
    · rcases hp with hp | hp <;> simp [hu,h.waiting,hp]
    · simp [hu,h.waiting]
  · intro s u
    by_cases hu : u = t
    · rcases hp with hp | hp <;> simp [hu,h.woken,hp]
    · simp [hu,h.woken]
  · intro u
    by_cases hu : u = t <;> simp [hu,h.status,Place.status]
  · intro u hne
    by_cases hu : u = t
    · simp [hu,Place.Parked]
    · simpa [hu] using h.others u hne
  · intro u hne
    by_cases hu : u = t
    · subst hu
      simp [Place.FrameOk,hf hne]
    · simpa [hu] using h.frames u hne
  · intro u
    have hd := h.dead u
    by_cases hu : u = t
    · subst hu
      rcases hp with hp | hp <;> simpa [hp] using hd
    · simpa [hu] using hd
  · simp [h.fifo]

/-- `V` moves the head of a queue to the end of the ready list. -/
theorem Core.wake (h : k.Core place) {queue : List Thread}
    (hq : (k.sem s).sem.queue = t :: queue) :
    Core { k with
      sem := Function.update k.sem s (k.sem s).callV
      status := Function.update k.status t .ready
      readyList := k.readyList ++ [t]
      readied := k.readied ++ [t] } (Function.update place t (.ready (some s))) := by
  have hp : place t = .waiting s := (h.waiting s t).mp (by simp [hq])
  have ht : t ∉ k.readyList := by simp [h.ready,hp]
  have htw : ∀ s', t ∉ (k.sem s').woken := by simp [h.woken,hp]
  have hnd := h.waitingNodup s
  rw [hq] at hnd
  have hV : (k.sem s).callV = { k.sem s with
      sem := ⟨Memory.wrap ((k.sem s).sem.value + 1),queue⟩
      woken := (k.sem s).woken ++ [t]
      completedV := (k.sem s).completedV + 1 } := by
    simp [Semaphore.State.callV,Semaphore.V,hq]
  rw [hV]
  refine ⟨h.executing,?_,?_,?_,?_,?_,?_,?_,?_,?_,?_,h.deadOnce,?_⟩
  · intro u
    by_cases hu : u = t <;> simp [hu,h.ready]
  · have hnd : (k.readyList ++ [t]).Nodup := List.Nodup.append h.readyNodup (List.nodup_singleton t)
      (by simpa using ht)
    exact hnd
  · intro s' u
    have hw := h.waiting s' u
    by_cases hs : s' = s
    · subst hs
      rw [hq] at hw
      by_cases hu : u = t
      · simpa [hu] using (List.nodup_cons.mp hnd).1
      · simpa [hu] using hw
    · by_cases hu : u = t
      · simpa [hs,hu,hp,Ne.symm hs] using h.waiting s' t
      · simpa [hs,hu] using hw
  · intro s'
    by_cases hs : s' = s
    · subst hs
      simpa using (List.nodup_cons.mp hnd).2
    · simpa [hs] using h.waitingNodup s'
  · intro s' u
    have hw := h.woken s' u
    by_cases hs : s' = s
    · subst hs
      by_cases hu : u = t
      · simp [hu]
      · simpa [hu] using hw
    · by_cases hu : u = t
      · simpa [hs,hu,Ne.symm hs] using htw s'
      · simpa [hs,hu] using hw
  · intro s'
    by_cases hs : s' = s
    · subst hs
      simpa using List.Nodup.append (h.wokenNodup s') (List.nodup_singleton t)
        (by simpa using htw s')
    · simpa [hs] using h.wokenNodup s'
  · intro u
    by_cases hu : u = t <;> simp [hu,h.status,Place.status]
  · intro u hne
    by_cases hu : u = t
    · simp [hu,Place.Parked]
    · simpa [hu] using h.others u hne
  · intro u hne
    have hf := h.frames u hne
    by_cases hu : u = t
    · subst hu
      simpa [hp,Place.FrameOk] using hf
    · simpa [hu] using hf
  · intro u
    have hd := h.dead u
    by_cases hu : u = t
    · subst hu
      simpa [hp] using hd
    · simpa [hu] using hd
  · simp [h.fifo]

omit [DecidableEq Thread] in
/-- Only the value of a semaphore changes. -/
theorem Core.setValue (h : k.Core place) {r : Semaphore.State Thread}
    (hq : r.sem.queue = (k.sem s).sem.queue) (hw : r.woken = (k.sem s).woken) :
    Core { k with sem := Function.update k.sem s r } place := by
  have hq' : ∀ s', (Function.update k.sem s r s').sem.queue = (k.sem s').sem.queue := by
    intro s'
    by_cases hs : s' = s
    · simp [hs,hq]
    · simp [hs]
  have hw' : ∀ s', (Function.update k.sem s r s').woken = (k.sem s').woken := by
    intro s'
    by_cases hs : s' = s
    · simp [hs,hw]
    · simp [hs]
  refine ⟨h.executing,h.ready,h.readyNodup,?_,?_,?_,?_,h.status,h.others,h.frames,h.dead,
    h.deadOnce,h.fifo⟩
  · intro s' u; rw [hq']; exact h.waiting s' u
  · intro s'; rw [hq']; exact h.waitingNodup s'
  · intro s' u; rw [hw']; exact h.woken s' u
  · intro s'; rw [hw']; exact h.wokenNodup s'

omit [DecidableEq Sem] in
/-- The current thread changes its place without touching the ready list. -/
theorem Core.moveCurrent (h : k.Core place) {p : Place Sem} {m : Sem → Semaphore.State Thread}
    (hr : ∀ w, place k.currentThread ≠ .ready w) (hr' : ∀ w, p ≠ .ready w)
    (hd : place k.currentThread ≠ .dead) (hd' : p ≠ .dead)
    (hwait : ∀ s t, t ∈ (m s).sem.queue ↔
      Function.update place k.currentThread p t = .waiting s)
    (hwaitNodup : ∀ s, (m s).sem.queue.Nodup)
    (hwoken : ∀ s t, t ∈ (m s).woken ↔
      Function.update place k.currentThread p t = .ready (some s) ∨
      Function.update place k.currentThread p t = .dispatched (some s))
    (hwokenNodup : ∀ s, (m s).woken.Nodup) :
    Core { k with sem := m, status := Function.update k.status k.currentThread p.status }
      (Function.update place k.currentThread p) := by
  refine ⟨h.executing,?_,h.readyNodup,hwait,hwaitNodup,hwoken,hwokenNodup,?_,?_,?_,?_,
    h.deadOnce,h.fifo⟩
  · intro u
    have hu := h.ready u
    by_cases hc : u = k.currentThread
    · subst hc
      simpa [hr,hr'] using hu
    · simpa [hc] using hu
  · intro u
    by_cases hc : u = k.currentThread <;> simp [hc,h.status]
  · intro u hc
    simpa [hc] using h.others u hc
  · intro u hc
    simpa [hc] using h.frames u hc
  · intro u
    have hu := h.dead u
    by_cases hc : u = k.currentThread
    · subst hc
      simpa [hd,hd'] using hu
    · simpa [hc] using hu

/-- The dispatched thread starts to run; if a semaphore woke it, it re-tests that one. -/
theorem Core.run (h : k.Core place) {w : Option Sem} (hp : place k.currentThread = .dispatched w)
    {m : Sem → Semaphore.State Thread} (hq : ∀ s, (m s).sem.queue = (k.sem s).sem.queue)
    (hw : ∀ s, (m s).woken =
      if w = some s then (k.sem s).woken.erase k.currentThread else (k.sem s).woken) :
    Core { k with sem := m } (Function.update place k.currentThread .running) := by
  have hstatus : k.status = Function.update k.status k.currentThread .running := by
    rw [eq_comm,Function.update_eq_self_iff,h.status,hp]
    rfl
  have hm := h.moveCurrent (p := .running) (m := m) (by simp [hp]) (by simp) (by simp [hp])
    (by simp) ?_ (fun s => by rw [hq]; exact h.waitingNodup s) ?_ ?_
  · rw [show (Place.running : Place Sem).status = .running from rfl,← hstatus] at hm
    exact hm
  · intro s u
    rw [hq,h.waiting]
    by_cases hc : u = k.currentThread <;> simp [hc,hp]
  · intro s u
    rw [hw]
    by_cases hs : w = some s
    · rw [if_pos hs,(h.wokenNodup s).mem_erase_iff,h.woken]
      by_cases hc : u = k.currentThread <;> simp [hc]
    · rw [if_neg hs,h.woken]
      by_cases hc : u = k.currentThread
      · simp [hc,hp,hs]
      · simp [hc]
  · intro s
    rw [hw]
    split
    · exact (h.wokenNodup s).erase _
    · exact h.wokenNodup s

/-- The current thread finds the semaphore at zero and queues up. -/
theorem Core.block (h : k.Core place) (hp : place k.currentThread = .running)
    {r : Semaphore.State Thread} (hq : r.sem.queue = (k.sem s).sem.queue ++ [k.currentThread])
    (hw : r.woken = (k.sem s).woken) :
    Core { k with
      sem := Function.update k.sem s r
      status := Function.update k.status k.currentThread .blocked }
      (Function.update place k.currentThread (.waiting s)) := by
  have hnot : k.currentThread ∉ (k.sem s).sem.queue := by simp [h.waiting,hp]
  refine h.moveCurrent (p := .waiting s) (by simp [hp]) (by simp) (by simp [hp]) (by simp)
    ?_ ?_ ?_ ?_
  · intro s' u
    have hu := h.waiting s' u
    by_cases hs : s' = s
    · subst hs
      by_cases hc : u = k.currentThread <;> simp [hc,hq,h.waiting]
    · by_cases hc : u = k.currentThread
      · simp [hs,hc,h.waiting,hp,Ne.symm hs]
      · simpa [hs,hc] using hu
  · intro s'
    by_cases hs : s' = s
    · subst hs
      simpa [hq] using List.Nodup.append (h.waitingNodup s')
        (List.nodup_singleton k.currentThread) (by simpa using hnot)
    · simpa [hs] using h.waitingNodup s'
  · intro s' u
    have hu := h.woken s' u
    by_cases hs : s' = s
    · subst hs
      by_cases hc : u = k.currentThread
      · simp [hc,hw,h.woken,hp]
      · simpa [hc,hw] using hu
    · by_cases hc : u = k.currentThread
      · simp [hs,hc,h.woken,hp]
      · simpa [hs,hc] using hu
  · intro s'
    by_cases hs : s' = s
    · subst hs
      simpa [hw] using h.wokenNodup s'
    · simpa [hs] using h.wokenNodup s'

omit [DecidableEq Sem] in
/-- The current thread is in `Finish`. -/
theorem Core.finish (h : k.Core place) (hp : place k.currentThread = .running) :
    Core { k with status := Function.update k.status k.currentThread .blocked }
      (Function.update place k.currentThread .finishing) := by
  refine h.moveCurrent (p := .finishing) (m := k.sem) (by simp [hp]) (by simp) (by simp [hp])
    (by simp) ?_ h.waitingNodup ?_ h.wokenNodup
  · intro s u
    by_cases hc : u = k.currentThread <;> simp [hc,h.waiting,hp]
  · intro s u
    by_cases hc : u = k.currentThread <;> simp [hc,h.woken,hp]

omit [DecidableEq Sem] in
/-- `Run` marks a finishing thread for destruction. -/
theorem Core.die (h : k.Core place) (hp : place k.currentThread = .finishing)
    (hd : k.toBeDestroyed = none) :
    Core { k with toBeDestroyed := some k.currentThread }
      (Function.update place k.currentThread .dead) := by
  have hnot : k.currentThread ∉ k.destroyed := by
    intro hm
    have := (h.dead k.currentThread).mpr (Or.inl hm)
    simp [hp] at this
  refine ⟨h.executing,?_,h.readyNodup,?_,h.waitingNodup,?_,h.wokenNodup,?_,?_,?_,?_,?_,h.fifo⟩
  · intro u
    by_cases hc : u = k.currentThread <;> simp [hc,h.ready,hp]
  · intro s u
    by_cases hc : u = k.currentThread <;> simp [hc,h.waiting,hp]
  · intro s u
    by_cases hc : u = k.currentThread <;> simp [hc,h.woken,hp]
  · intro u
    by_cases hc : u = k.currentThread <;> simp [hc,h.status,hp,Place.status]
  · intro u hc
    simpa [hc] using h.others u hc
  · intro u hc
    simpa [hc] using h.frames u hc
  · intro u
    have hu := h.dead u
    by_cases hc : u = k.currentThread
    · simp [hc]
    · simpa [hc,hd,Ne.symm hc] using hu
  · have hn := h.deadOnce
    rw [hd] at hn
    simpa using List.Nodup.append (by simpa using hn) (List.nodup_singleton k.currentThread)
      (by simpa using hnot)

omit [DecidableEq Sem] in
/-- The front of the ready list becomes the current thread. -/
theorem Core.dispatch (h : k.Core place) {l : List Thread} {w : Option Sem}
    {f : Frame Sem Thread} (hl : k.readyList = t :: l) (hp : place t = .ready w)
    (hold : k.currentThread ≠ t → (place k.currentThread).Parked ∧
      (place k.currentThread).FrameOk k.currentThread f) :
    Core { k with
      readyList := l
      dispatched := k.dispatched ++ [t]
      currentThread := t
      executing := t
      status := Function.update k.status t .running
      saved := Function.update k.saved k.currentThread f }
      (Function.update place t (.dispatched w)) := by
  have hnd := h.readyNodup
  rw [hl] at hnd
  refine ⟨rfl,?_,(List.nodup_cons.mp hnd).2,?_,h.waitingNodup,?_,h.wokenNodup,?_,?_,?_,?_,
    h.deadOnce,?_⟩
  · intro u
    have hu := h.ready u
    rw [hl] at hu
    by_cases hc : u = t
    · simpa [hc] using (List.nodup_cons.mp hnd).1
    · simpa [hc] using hu
  · intro s u
    by_cases hc : u = t <;> simp [hc,h.waiting,hp]
  · intro s u
    by_cases hc : u = t <;> simp [hc,h.woken,hp]
  · intro u
    by_cases hc : u = t <;> simp [hc,h.status,Place.status]
  · intro u hc
    replace hc : u ≠ t := hc
    by_cases hu : u = k.currentThread
    · subst hu
      simpa [hc] using (hold hc).1
    · simpa [hc] using h.others u hu
  · intro u hc
    replace hc : u ≠ t := hc
    by_cases hu : u = k.currentThread
    · subst hu
      simpa [hc] using (hold hc).2
    · simpa [hc,hu] using h.frames u hu
  · intro u
    have hu := h.dead u
    by_cases hc : u = t
    · subst hc
      simpa [hp] using hu
    · simpa [hc] using hu
  · simp [h.fifo,hl]

omit [DecidableEq Sem] [DecidableEq Thread] in
/-- The next thread deletes the finished one. -/
theorem Core.destroy (h : k.Core place) : Core { k with
    toBeDestroyed := none
    destroyed := k.destroyed ++ k.toBeDestroyed.toList } place := by
  refine ⟨h.executing,h.ready,h.readyNodup,h.waiting,h.waitingNodup,h.woken,h.wokenNodup,
    h.status,h.others,h.frames,?_,by simpa using h.deadOnce,h.fifo⟩
  intro u
  have hu := h.dead u
  cases hd : k.toBeDestroyed with
  | none => simpa [hd] using hu
  | some d => simpa [hd,eq_comm] using hu

/-- Thread code runs: interrupts are enabled and nothing is left to be destroyed. -/
def Enabled (k : State Sem Thread) (p : Place Sem) : Prop :=
  k.level = .intOn ∧ k.inHandler = false ∧ k.toBeDestroyed = none ∧ p = .running

omit [DecidableEq Sem] [DecidableEq Thread] in
/-- The end of a kernel call: the old level is restored and `OneTick` entered. -/
theorem Core.restore (h : k.Core place) (hl : k.level = .intOff) (hh : k.inHandler = false)
    (hd : k.toBeDestroyed = none) (hp : place k.currentThread = .running) :
    ∃ k', k.SetLevel .intOn = .ok k' ∧ Inv k' :=
  ⟨_,SetLevel_on hl hh,place,h.withControl .intOn _ _ .oneTick,rfl,hh,hd,hp⟩

omit [DecidableEq Sem] in
theorem Core.fork_ok (h : k.Core place) (hk : k.Enabled (place k.currentThread))
    (ht : k.status t = .justCreated) : ∃ k', k.Fork t = .ok k' ∧ Inv k' := by
  obtain ⟨hl,hh,hd,hp⟩ := hk
  have hpt : place t = .unborn := by
    rw [h.status] at ht
    cases hc : place t <;> simp_all [Place.status]
  have hne : t ≠ k.currentThread := by
    rintro rfl
    simp [hp] at hpt
  have hcore : Core { k with
      level := .intOff, saved := Function.update k.saved t .begin } place := by
    have h' := h.withControl .intOff k.inHandler k.yieldOnReturn k.control
    refine ⟨h'.executing,h'.ready,h'.readyNodup,h'.waiting,h'.waitingNodup,h'.woken,
      h'.wokenNodup,h'.status,h'.others,?_,h'.dead,h'.deadOnce,h'.fifo⟩
    intro u hu
    by_cases huv : u = t
    · simp [huv,hpt,Place.FrameOk]
    · simpa [huv] using h.frames u hu
  have hnot : t ∉ k.readyList := by simp [h.ready,hpt]
  have hready := hcore.makeReady (Or.inl hpt) fun _ => by simp
  unfold Fork
  simp only [hl]
  refine exists_bind (SetLevel_off _) (exists_bind (ReadyToRun_eq rfl hnot) ?_)
  exact hready.restore rfl hh hd (by simp [hne.symm,hp])

omit [DecidableEq Sem] in
/-- `Run` to the front of the ready list, from `Yield` or from the loop of `Sleep`. -/
theorem Core.dispatch_ok (h : k.Core place) {l : List Thread} {f : Frame Sem Thread}
    (hl : k.level = .intOff) (hh : k.inHandler = false) (hr : k.readyList = t :: l)
    (hold : k.currentThread ≠ t → (place k.currentThread).Parked)
    (hframe : (place k.currentThread).FrameOk k.currentThread f) :
    Inv { k with
      readyList := l
      dispatched := k.dispatched ++ [t]
      currentThread := t
      executing := t
      status := Function.update k.status t .running
      saved := Function.update k.saved k.currentThread f
      control := .switched } := by
  obtain ⟨w,hw⟩ := (h.ready t).mp (by simp [hr])
  have hcore := h.dispatch (f := f) hr hw fun hc => ⟨hold hc,hframe⟩
  refine ⟨_,hcore.withControl k.level k.inHandler k.yieldOnReturn .switched,?_⟩
  refine ⟨hl,hh,⟨w,by simp⟩,?_⟩
  by_cases hc : k.currentThread = t
  · subst hc
    rw [hw] at hframe
    cases w <;> simpa [Place.FrameOk] using hframe
  · have hf := h.frames t (Ne.symm hc)
    rw [hw] at hf
    cases w <;> simpa [Place.FrameOk,Ne.symm hc] using hf

omit [DecidableEq Sem] in
theorem Core.yield_ok (h : k.Core place) (hk : k.Enabled (place k.currentThread)) :
    ∃ k', k.Yield k.currentThread = .ok k' ∧ Inv k' := by
  obtain ⟨hl,hh,hd,hp⟩ := hk
  have hoff := h.withControl .intOff k.inHandler k.yieldOnReturn k.control
  unfold Yield
  simp only [hl]
  refine exists_bind (SetLevel_off _) (exists_bind (check_of rfl) ?_)
  by_cases hr : k.readyList = []
  · refine exists_bind (FindNextToRun_nil rfl hr) ?_
    exact (hoff.withControl .intOff k.inHandler k.yieldOnReturn .running).restore rfl hh hd hp
  · obtain ⟨next,l,hr⟩ := List.exists_cons_of_ne_nil hr
    have hcur : k.currentThread ∉ k.readyList := by simp [h.ready,hp]
    rw [hr,List.mem_cons,not_or] at hcur
    refine exists_bind (FindNextToRun_cons rfl hr) (exists_bind (ReadyToRun_eq rfl hcur.2) ?_)
    have hready := hoff.makeReady (t := k.currentThread) (Or.inr hp) fun hc => absurd rfl hc
    have hinv := hready.dispatch_ok (t := next) (l := l ++ [k.currentThread])
      (f := .yield .intOn) rfl hh (by simp [hr]) (fun _ => by simp [Place.Parked])
      (by simp [Place.FrameOk])
    refine ⟨_,Run_eq rfl hd,?_⟩
    simpa [hd] using hinv

omit [DecidableEq Sem] in
theorem Core.finish_ok (h : k.Core place) (hk : k.Enabled (place k.currentThread)) :
    ∃ k', k.Finish k.currentThread = .ok k' ∧ Inv k' := by
  obtain ⟨hl,hh,hd,hp⟩ := hk
  have hcore := (h.withControl .intOff k.inHandler k.yieldOnReturn k.control).finish hp
  refine exists_bind (SetLevel_off _) (exists_bind (check_of rfl) ?_)
  refine ⟨_,Sleep_eq rfl,_,hcore.withControl .intOff k.inHandler k.yieldOnReturn
    (.sleeping true .finish),?_⟩
  exact ⟨rfl,hh,hd,by simp [SleepOk]⟩

/-- A pass of `P` in the current thread, on a semaphore that is as `k` has it, except that
the thread may just have left the woken ones. -/
theorem passP_ok (k : State Sem Thread) (s : Sem) (r : Semaphore.State Thread)
    (hr : Core { k with sem := Function.update k.sem s r } place)
    (hp : place k.currentThread = .running) (hl : k.level = .intOff)
    (hh : k.inHandler = false) (hd : k.toBeDestroyed = none) :
    ∃ k', k.passP s k.currentThread .intOn r = .ok k' ∧ Inv k' := by
  have hnot : k.currentThread ∉ r.sem.queue := by
    have hwait := hr.waiting s k.currentThread
    simpa [hp] using hwait
  unfold State.passP
  rcases hpass : r.passP k.currentThread with f | ⟨r',b⟩
  · exfalso
    rcases r.sem.P_cases k.currentThread with ⟨_,hq,_⟩ | ⟨_,_,hP⟩ | ⟨_,hP⟩
    · exact hnot hq
    · simp [Semaphore.State.passP,hP,bind,Except.bind,pure,Except.pure] at hpass
    · simp [Semaphore.State.passP,hP,bind,Except.bind,pure,Except.pure] at hpass
  · refine exists_bind rfl ?_
    rcases Semaphore.State.passP_cases hpass with ⟨_,_,rfl,he⟩ | ⟨_,rfl,he⟩
    · have hblock := hr.block (s := s) (r := r') hp (by simp [he]) (by simp [he])
      simp only [Function.update_idem] at hblock
      simp only [Bool.false_eq_true,if_false]
      refine ⟨_,Sleep_eq hl,_,hblock.withControl k.level k.inHandler k.yieldOnReturn
        (.sleeping false (.inP s k.currentThread .intOn)),?_⟩
      exact ⟨hl,hh,hd,by simp [SleepOk]⟩
    · have hthrough := hr.setValue (s := s) (r := r') (by simp [he]) (by simp [he])
      simp only [Function.update_idem] at hthrough
      simp only [if_true]
      exact (hthrough.withControl k.level k.inHandler k.yieldOnReturn .running).restore hl hh hd hp

theorem Core.P_ok (h : k.Core place) (hk : k.Enabled (place k.currentThread)) (s : Sem) :
    ∃ k', k.P s = .ok k' ∧ Inv k' := by
  obtain ⟨hl,hh,hd,hp⟩ := hk
  have hoff := h.withControl .intOff k.inHandler k.yieldOnReturn k.control
  unfold P
  simp only [hl]
  have hsame : Core { k with
      level := .intOff, sem := Function.update k.sem s (k.sem s) } place := by
    rw [Function.update_eq_self]
    exact hoff
  exact exists_bind (SetLevel_off _) (passP_ok _ s _ hsame hp rfl hh hd)

theorem Core.wake_ok (h : k.Core place) (hl : k.level = .intOff) (s : Sem) :
    ∃ k' place', k.wake s = .ok k' ∧ k'.Core place' ∧ k'.level = .intOff ∧
      k'.inHandler = k.inHandler ∧ k'.toBeDestroyed = k.toBeDestroyed ∧
      k'.control = k.control ∧ k'.currentThread = k.currentThread ∧
      (place' k.currentThread = place k.currentThread ∨
        place k.currentThread = .waiting s ∧ place' k.currentThread = .ready (some s)) := by
  rcases (k.sem s).sem.V_cases with ⟨hq,hV⟩ | ⟨t,queue,hq,hV⟩
  · have hcore := h.setValue (s := s) (r := (k.sem s).callV)
      (by simp [Semaphore.State.callV,hV,hq]) (by simp [Semaphore.State.callV,hV])
    simp only [State.wake,hV]
    exact ⟨_,place,rfl,hcore,hl,rfl,rfl,rfl,rfl,Or.inl rfl⟩
  · have hp : place t = .waiting s := (h.waiting s t).mp (by simp [hq])
    have hnot : t ∉ k.readyList := by simp [h.ready,hp]
    simp only [State.wake,hV]
    refine ⟨_,_,ReadyToRun_eq hl hnot,h.wake hq,hl,rfl,rfl,rfl,rfl,?_⟩
    by_cases hc : k.currentThread = t
    · exact Or.inr ⟨by rw [hc]; exact hp,by simp [hc]⟩
    · exact Or.inl (by simp [hc])

theorem Core.V_ok (h : k.Core place) (hk : k.Enabled (place k.currentThread)) (s : Sem) :
    ∃ k', k.V s = .ok k' ∧ Inv k' := by
  obtain ⟨hl,hh,hd,hp⟩ := hk
  have hoff := h.withControl .intOff k.inHandler k.yieldOnReturn k.control
  obtain ⟨k',place',hk',hcore,hl',hh',hd',_,hcur,hplace⟩ := hoff.wake_ok rfl s
  unfold V
  simp only [hl]
  refine exists_bind (SetLevel_off _) (exists_bind hk' ?_)
  refine hcore.restore hl' (hh'.trans hh) (hd'.trans hd) ?_
  rw [hcur]
  rcases hplace with hplace | ⟨hplace,_⟩
  · exact hplace.trans hp
  · exact absurd (hp.symm.trans hplace) (by simp)

/-- A handler's `V` leaves the interrupted thread where it is, except that a thread that
sleeps in `P` may be the one it makes ready. -/
theorem Core.handlerV_ok (h : k.Core place) (hk : k.ControlOk (place k.currentThread))
    (hc : k.control.InHandler) (s : Sem) : ∃ k', k.V s = .ok k' ∧ Inv k' := by
  have hl : k.level = .intOff := by
    unfold ControlOk at hk
    cases hctl : k.control <;> simp_all [Control.InHandler]
  have hsame : ({ k with level := .intOff } : State Sem Thread) = k := by rw [← hl]
  obtain ⟨k',place',hk',hcore,hl',hh',hd',hctl',hcur,hplace⟩ := h.wake_ok hl s
  unfold V
  simp only [hl]
  refine exists_bind (SetLevel_off _) ?_
  rw [hsame]
  refine exists_bind hk' ⟨_,SetLevel_off k',place',?_,?_⟩
  · exact hcore.withControl .intOff k'.inHandler k'.yieldOnReturn k'.control
  · simp only [ControlOk,hctl',hh',hd',hcur]
    cases hctl : k.control with
    | running => simp [hctl,Control.InHandler] at hc
    | oneTick => simp [hctl,Control.InHandler] at hc
    | afterHandlers => simp [hctl,Control.InHandler] at hc
    | switched => simp [hctl,Control.InHandler] at hc
    | sleeping _ _ => simp [hctl,Control.InHandler] at hc
    | handlers =>
      simp only [ControlOk,hctl] at hk
      rcases hplace with hplace | ⟨hplace,_⟩
      · exact ⟨trivial,hk.2.1,hk.2.2.1,hplace.trans hk.2.2.2⟩
      · exact absurd (hk.2.2.2.symm.trans hplace) (by simp)
    | idle finishing frame =>
      simp only [ControlOk,hctl] at hk
      refine ⟨trivial,hk.2.1,hk.2.2.1,?_⟩
      have hs := hk.2.2.2
      simp only [SleepOk] at hs ⊢
      cases finishing with
      | true =>
        rcases hplace with hplace | ⟨hplace,_⟩
        · simpa [hplace] using hs
        · simp [hplace] at hs
      | false =>
        simp only [Bool.false_eq_true,if_false] at hs ⊢
        obtain ⟨s',hf,hs'⟩ := hs
        refine ⟨s',hf,?_⟩
        rcases hplace with hplace | ⟨hplace,hnew⟩
        · rw [hplace]; exact hs'
        · rw [hplace] at hs'
          rw [hnew]
          simpa using hs'

omit [DecidableEq Sem] in
/-- What the thread that was switched to does first, whatever it goes on with. -/
theorem Core.destroy_ok (h : k.Core place) {w : Option Sem}
    (hp : place k.currentThread = .dispatched w) :
    k.CheckToBeDestroyed = .ok { k with
      toBeDestroyed := none
      destroyed := k.destroyed ++ k.toBeDestroyed.toList } := by
  refine CheckToBeDestroyed_eq fun t ht he => ?_
  have hdead := (h.dead t).mpr (Or.inr ht)
  rw [he,hp] at hdead
  cases hdead

theorem Core.resume_ok (h : k.Core place) (hc : k.control = .switched)
    (hk : k.ControlOk (place k.currentThread)) : ∃ k', k.resume = .ok k' ∧ Inv k' := by
  simp only [ControlOk,hc] at hk
  obtain ⟨hl,hh,⟨w,hw⟩,hf⟩ := hk
  have hdestroy := h.destroy_ok hw
  rw [hw] at hf
  unfold State.resume
  rw [h.executing]
  cases w with
  | none =>
    have hrun := h.destroy.run hw (m := k.sem) (fun _ => rfl) (fun _ => by simp)
    have hgo := (hrun.withControl k.level k.inHandler k.yieldOnReturn .running).restore hl hh rfl
      (by simp)
    rcases hf with hf | hf
    · rw [hf]
      exact exists_bind hdestroy hgo
    · rw [hf]
      exact exists_bind (check_of hl) (exists_bind hdestroy hgo)
  | some s =>
    rw [show k.saved k.currentThread = .inP s k.currentThread .intOn from hf]
    refine exists_bind (check_of hl) (exists_bind hdestroy ?_)
    refine passP_ok _ s _ (h.destroy.run hw ?_ ?_) (by simp) hl hh rfl
    · intro s'
      by_cases hs : s' = s <;> simp [hs]
    · intro s'
      by_cases hs : s' = s
      · simp [hs]
      · simp [hs,Ne.symm hs]

/-- One test of the loop in `Sleep`. -/
theorem Core.findNext_ok (h : k.Core place) {finishing : Bool} {frame : Frame Sem Thread}
    (hc : k.control = .sleeping finishing frame) (hk : k.ControlOk (place k.currentThread)) :
    ∃ k', step k .findNext = .ok k' ∧ Inv k' := by
  simp only [ControlOk,hc] at hk
  obtain ⟨hl,hh,hd,hs⟩ := hk
  simp only [step,hc]
  by_cases hr : k.readyList = []
  · refine exists_bind (FindNextToRun_nil hl hr) (exists_bind (check_of hl) ?_)
    exact ⟨_,rfl,place,h.withControl k.level true k.yieldOnReturn (.idle finishing frame),
      hl,rfl,hd,hs⟩
  · obtain ⟨next,l,hr⟩ := List.exists_cons_of_ne_nil hr
    refine exists_bind (FindNextToRun_cons hl hr) ⟨_,Run_eq hl hd,?_⟩
    unfold SleepOk at hs
    cases finishing with
    | true =>
      simp only [if_true] at hs
      have hinv := (h.die hs hd).dispatch_ok (t := next) (l := l) (f := frame) hl hh hr
        (fun _ => by simp [Place.Parked]) (by simp [Place.FrameOk])
      simpa using hinv
    | false =>
      simp only [Bool.false_eq_true,if_false] at hs
      obtain ⟨s,rfl,hs⟩ := hs
      have hinv := h.dispatch_ok (t := next) (l := l)
        (f := .inP s k.currentThread .intOn) hl hh hr
        (fun _ => by rcases hs with hs | hs <;> simp [hs,Place.Parked])
        (by rcases hs with hs | hs <;> simp [hs,Place.FrameOk])
      simpa [hd] using hinv

end State

open State

/-- The actions that are possible where the executing thread is. -/
def Allowed (k : State Sem Thread) : Action Sem Thread → Prop
  | .fork t => k.control = .running ∧ k.status t = .justCreated
  | .yield | .P _ | .V _ | .finish | .instruction => k.control = .running
  | .handlerV _ | .timer => k.control.InHandler
  | .interrupt => k.control = .oneTick
  | .handled => k.control = .handlers
  | .returned => k.control = .afterHandlers
  | .findNext => ∃ finishing frame, k.control = .sleeping finishing frame
  | .idled => ∃ finishing frame, k.control = .idle finishing frame
  | .resume => k.control = .switched

theorem step_blocked {k : State Sem Thread} {a : Action Sem Thread} (h : ¬ Allowed k a) :
    step k a = .error .blocked := by
  have hreq : ∀ {c : Prop} [Decidable c] (f : Unit → Except Fault (State Sem Thread)), ¬ c →
      (require c >>= f) = .error .blocked := by
    intro c _ f hc
    simp [require,hc,bind,Except.bind]
  cases a with
  | findNext =>
    cases hc : k.control <;> simp_all [Allowed,step]
  | idled =>
    cases hc : k.control <;> simp_all [Allowed,step]
  | _ => exact hreq _ h

/-- Every possible action succeeds, so no assertion fails, and keeps the invariant. -/
theorem step_ok {k : State Sem Thread} {a : Action Sem Thread} (hk : Inv k) (ha : Allowed k a) :
    ∃ k', step k a = .ok k' ∧ Inv k' := by
  obtain ⟨place,h,hc⟩ := hk
  have henabled : k.control = .running ∨ k.control = .afterHandlers →
      k.Enabled (place k.currentThread) := by
    rintro (hr | hr) <;> (simp only [ControlOk,hr] at hc; exact hc)
  cases a with
  | fork t => exact exists_bind (require_of ha) (h.fork_ok (henabled (Or.inl ha.1)) ha.2)
  | yield => exact exists_bind (require_of ha) (h.yield_ok (henabled (Or.inl ha)))
  | P s => exact exists_bind (require_of ha) (h.P_ok (henabled (Or.inl ha)) s)
  | V s => exact exists_bind (require_of ha) (h.V_ok (henabled (Or.inl ha)) s)
  | finish => exact exists_bind (require_of ha) (h.finish_ok (henabled (Or.inl ha)))
  | instruction =>
    refine exists_bind (require_of ha) ⟨_,rfl,place,?_,?_⟩
    · exact h.withControl k.level k.inHandler k.yieldOnReturn .oneTick
    · exact henabled (Or.inl ha)
  | handlerV s => exact exists_bind (require_of ha) (h.handlerV_ok hc ha s)
  | timer =>
    have hin : k.inHandler = true := by
      have ha : k.control.InHandler := ha
      unfold ControlOk at hc
      cases hctl : k.control <;> simp_all [Control.InHandler]
    refine exists_bind (require_of ha) (exists_bind (check_of hin) ⟨_,rfl,place,?_⟩)
    split
    · exact ⟨h.withControl k.level k.inHandler true k.control,hc⟩
    · exact ⟨h,hc⟩
  | interrupt =>
    have hctl : k.control = .oneTick := ha
    simp only [ControlOk,hctl] at hc
    refine exists_bind (require_of ha) ⟨_,rfl,place,?_,rfl,rfl,hc.2.2⟩
    exact h.withControl .intOff true k.yieldOnReturn .handlers
  | handled =>
    have hctl : k.control = .handlers := ha
    simp only [ControlOk,hctl] at hc
    refine exists_bind (require_of ha) ⟨_,rfl,place,?_,rfl,rfl,hc.2.2⟩
    exact h.withControl .intOn false k.yieldOnReturn .afterHandlers
  | returned =>
    have hen := henabled (Or.inr ha)
    refine exists_bind (require_of ha) ?_
    cases hy : k.yieldOnReturn with
    | true => exact (h.withControl k.level k.inHandler false k.control).yield_ok hen
    | false =>
      exact ⟨_,rfl,place,h.withControl k.level k.inHandler false .running,hen⟩
  | findNext =>
    obtain ⟨finishing,frame,hctl⟩ := ha
    exact h.findNext_ok hctl hc
  | idled =>
    obtain ⟨finishing,frame,hctl⟩ := ha
    simp only [ControlOk,hctl] at hc
    simp only [step,hctl]
    exact ⟨_,rfl,place,h.withControl k.level false k.yieldOnReturn (.sleeping finishing frame),
      hc.1,rfl,hc.2.2⟩
  | resume => exact exists_bind (require_of ha) (h.resume_ok ha hc)

omit [DecidableEq Sem] in
theorem inv_initial (initialValue : Sem → ℤ) (main : Thread) :
    Inv (initial initialValue main) := by
  refine ⟨Function.update (fun _ => .unborn) main .running,?_,rfl,rfl,rfl,by simp [initial]⟩
  have hplace : ∀ (t : Thread) (p : Place Sem), p ≠ .unborn → p ≠ .running →
      Function.update (fun _ => Place.unborn) main Place.running t ≠ p := by
    intro t p hu hr
    by_cases ht : t = main
    · simpa [ht] using hr.symm
    · simpa [ht] using hu.symm
  refine ⟨rfl,?_,List.nodup_nil,?_,?_,?_,?_,?_,?_,?_,?_,by simp [initial],rfl⟩
  · intro t
    simp [initial,hplace]
  · intro s t
    simp [initial,Semaphore.new,hplace]
  · intro s
    simp [initial,Semaphore.new]
  · intro s t
    simp [initial,hplace]
  · intro s
    simp [initial]
  · intro t
    by_cases ht : t = main <;> simp [initial,ht,Place.status]
  · intro t ht
    simp [show t ≠ main from ht,Place.Parked]
  · intro t ht
    simp [show t ≠ main from ht,Place.FrameOk]
  · intro t
    simp [initial,hplace]

theorem inv_step {k k' : State Sem Thread} {a : Action Sem Thread} (hk : Inv k)
    (h : step k a = .ok k') : Inv k' := by
  by_cases ha : Allowed k a
  · obtain ⟨m,hm,hinv⟩ := step_ok hk ha
    cases hm.symm.trans h
    exact hinv
  · cases (step_blocked ha).symm.trans h

theorem reachable_inv {initialValue : Sem → ℤ} {main : Thread} {k : State Sem Thread}
    (h : (machine initialValue main).Reachable k) : Inv k :=
  h.invariant (fun _ hi => hi ▸ inv_initial initialValue main) fun _ _ _ => inv_step

theorem step_not_assertion {k : State Sem Thread} (hk : Inv k) (a : Action Sem Thread) :
    step k a ≠ .error .assertion := by
  intro h
  by_cases ha : Allowed k a
  · obtain ⟨m,hm,_⟩ := step_ok hk ha
    cases hm.symm.trans h
  · cases (step_blocked ha).symm.trans h

/-! What the state is after a function of the kernel that has returned. -/
section Returned

variable {k k' : State Sem Thread} {t : Thread} {s : Sem} {now : IntStatus}

omit [DecidableEq Sem] [DecidableEq Thread] in
theorem State.eq_of_SetLevel (h : k.SetLevel now = .ok k') : k' = { k with
    level := now
    control := if now = .intOn ∧ k.level = .intOff then .oneTick else k.control } := by
  obtain ⟨_,h⟩ := check_bind_ok.mp h
  split at h
  · next hon =>
    cases h
    rw [if_pos hon,hon.1]
  · next hoff =>
    cases h
    rw [if_neg hoff]

omit [DecidableEq Sem] in
theorem State.eq_of_ReadyToRun (h : k.ReadyToRun t = .ok k') : ∃ readyList, k' = { k with
    status := Function.update k.status t .ready
    readyList := readyList
    readied := k.readied ++ [t] } := by
  obtain ⟨_,h⟩ := check_bind_ok.mp h
  obtain ⟨readyList,_,he⟩ := bind_ok.mp h
  cases he
  exact ⟨readyList,rfl⟩

omit [DecidableEq Sem] [DecidableEq Thread] in
theorem State.eq_of_FindNextToRun {r : Option Thread} (h : k.FindNextToRun = .ok (r,k')) :
    ∃ readyList dispatched, k' = { k with readyList := readyList, dispatched := dispatched } := by
  obtain ⟨_,h⟩ := check_bind_ok.mp h
  split at h
  · cases h
    exact ⟨_,_,rfl⟩
  · obtain ⟨_,_,he⟩ := bind_ok.mp h
    cases he
    exact ⟨_,_,rfl⟩

omit [DecidableEq Sem] in
theorem State.eq_of_Run {finishing : Bool} {frame : Frame Sem Thread}
    (h : k.Run t finishing frame = .ok k') : k' = { k with
      toBeDestroyed := if finishing then some k.currentThread else k.toBeDestroyed
      currentThread := t
      status := Function.update k.status t .running
      saved := Function.update k.saved k.currentThread frame
      executing := t
      control := .switched } := by
  obtain ⟨_,h⟩ := check_bind_ok.mp h
  obtain ⟨_,he⟩ := check_bind_ok.mp h
  cases he
  rfl

omit [DecidableEq Sem] in
theorem State.eq_of_CheckToBeDestroyed (h : k.CheckToBeDestroyed = .ok k') :
    ∃ destroyed, k' = { k with toBeDestroyed := none, destroyed := destroyed } := by
  unfold CheckToBeDestroyed at h
  split at h
  · next hnone =>
    cases h
    exact ⟨k.destroyed,by rw [← hnone]⟩
  · obtain ⟨_,he⟩ := check_bind_ok.mp h
    cases he
    exact ⟨_,rfl⟩

omit [DecidableEq Sem] in
theorem State.eq_of_Sleep {finishing : Bool} {frame : Frame Sem Thread}
    (h : k.Sleep t finishing frame = .ok k') : k' = { k with
      status := Function.update k.status t .blocked
      control := .sleeping finishing frame } := by
  obtain ⟨_,h⟩ := check_bind_ok.mp h
  obtain ⟨_,he⟩ := check_bind_ok.mp h
  cases he
  rfl

/-- `V` may make a thread ready. -/
theorem State.of_wake (h : k.wake s = .ok k') :
    k' = { k with sem := Function.update k.sem s (k.sem s).callV } ∨
    ∃ t, ReadyToRun { k with sem := Function.update k.sem s (k.sem s).callV } t = .ok k' := by
  unfold wake at h
  split at h
  · cases h
    exact Or.inl rfl
  · exact Or.inr ⟨_,h⟩

/-- The thread that was switched to returns from `Begin` or `Yield`, or passes the loop of `P`
again. -/
theorem State.of_resume (h : k.resume = .ok k') : ∃ destroyed,
    (∃ l, (k.saved k.executing = .begin ∧ l = .intOn ∨ k.saved k.executing = .yield l) ∧
      SetLevel { k with toBeDestroyed := none, destroyed := destroyed, control := .running } l =
        .ok k') ∨
    ∃ s t l, k.saved k.executing = .inP s t l ∧
      State.passP { k with toBeDestroyed := none, destroyed := destroyed } s t l
        { k.sem s with woken := (k.sem s).woken.erase t } = .ok k' := by
  unfold resume at h
  split at h
  · next hframe =>
    obtain ⟨k₁,h₁,h⟩ := bind_ok.mp h
    obtain ⟨destroyed,rfl⟩ := eq_of_CheckToBeDestroyed h₁
    exact ⟨destroyed,Or.inl ⟨_,Or.inl ⟨hframe,rfl⟩,h⟩⟩
  · next hframe =>
    obtain ⟨_,h⟩ := check_bind_ok.mp h
    obtain ⟨k₁,h₁,h⟩ := bind_ok.mp h
    obtain ⟨destroyed,rfl⟩ := eq_of_CheckToBeDestroyed h₁
    exact ⟨destroyed,Or.inl ⟨_,Or.inr hframe,h⟩⟩
  · next hframe =>
    obtain ⟨_,h⟩ := check_bind_ok.mp h
    obtain ⟨k₁,h₁,h⟩ := bind_ok.mp h
    obtain ⟨destroyed,rfl⟩ := eq_of_CheckToBeDestroyed h₁
    exact ⟨destroyed,Or.inr ⟨_,_,_,hframe,h⟩⟩
  · cases h

/-- The loop of `Sleep` finds a thread to run, or waits for an interrupt. -/
theorem of_findNext (h : step k .findNext = .ok k') : ∃ finishing frame readyList dispatched,
    k.control = .sleeping finishing frame ∧
    ((∃ next, State.Run { k with readyList := readyList, dispatched := dispatched } next
        finishing frame = .ok k') ∨
      k' = { k with
        readyList := readyList
        dispatched := dispatched
        inHandler := true
        control := .idle finishing frame }) := by
  simp only [step] at h
  split at h
  · next finishing frame hctl =>
    obtain ⟨⟨r,k₁⟩,h₁,h⟩ := bind_ok.mp h
    obtain ⟨readyList,dispatched,rfl⟩ := State.eq_of_FindNextToRun h₁
    refine ⟨finishing,frame,readyList,dispatched,hctl,?_⟩
    cases r with
    | some next => exact Or.inl ⟨next,h⟩
    | none =>
      cases (check_bind_ok.mp h).2
      exact Or.inr rfl
  · cases h

theorem of_idled (h : step k .idled = .ok k') : ∃ finishing frame,
    k.control = .idle finishing frame ∧
    k' = { k with inHandler := false, control := .sleeping finishing frame } := by
  simp only [step] at h
  split at h
  · next hctl =>
    cases h
    exact ⟨_,_,hctl,rfl⟩
  · cases h

end Returned

/-! The semaphores of the kernel go through the sections of `Semaphore.machine`. -/
section Semaphores

variable {k k' : State Sem Thread} {t : Thread} {s : Sem}

omit [DecidableEq Sem] [DecidableEq Thread] in
theorem State.SetLevel_sem {now : IntStatus} (h : k.SetLevel now = .ok k') :
    k'.sem = k.sem := by
  rw [eq_of_SetLevel h]

omit [DecidableEq Sem] in
theorem State.ReadyToRun_sem (h : k.ReadyToRun t = .ok k') : k'.sem = k.sem := by
  obtain ⟨_,rfl⟩ := eq_of_ReadyToRun h
  rfl

omit [DecidableEq Sem] in
theorem State.Run_sem {b : Bool} {f : Frame Sem Thread} (h : k.Run t b f = .ok k') :
    k'.sem = k.sem := by
  rw [eq_of_Run h]

omit [DecidableEq Sem] in
theorem State.Sleep_sem {b : Bool} {f : Frame Sem Thread} (h : k.Sleep t b f = .ok k') :
    k'.sem = k.sem := by
  rw [eq_of_Sleep h]

omit [DecidableEq Sem] in
theorem State.Yield_sem (h : k.Yield t = .ok k') : k'.sem = k.sem := by
  obtain ⟨k₁,h₁,h⟩ := bind_ok.mp h
  obtain ⟨_,h⟩ := check_bind_ok.mp h
  obtain ⟨⟨r,k₂⟩,h₂,h⟩ := bind_ok.mp h
  obtain ⟨_,_,rfl⟩ := eq_of_FindNextToRun h₂
  have hsem := SetLevel_sem h₁
  cases r with
  | none => exact (SetLevel_sem h).trans hsem
  | some next =>
    obtain ⟨k₃,h₃,h⟩ := bind_ok.mp h
    exact ((Run_sem h).trans (ReadyToRun_sem h₃)).trans hsem

theorem State.passP_sem {l : IntStatus} {r : Semaphore.State Thread}
    (h : k.passP s t l r = .ok k') :
    ∃ r' b, r.passP t = .ok (r',b) ∧ k'.sem = Function.update k.sem s r' := by
  obtain ⟨⟨r',b⟩,hr,h⟩ := bind_ok.mp h
  refine ⟨r',b,hr,?_⟩
  cases b with
  | true => exact SetLevel_sem h
  | false => exact Sleep_sem h

theorem State.V_sem (h : k.V s = .ok k') :
    k'.sem = Function.update k.sem s (k.sem s).callV := by
  obtain ⟨k₁,h₁,h⟩ := bind_ok.mp h
  obtain ⟨k₂,h₂,h⟩ := bind_ok.mp h
  have hwake : k₂.sem = Function.update k₁.sem s (k₁.sem s).callV := by
    rcases of_wake h₂ with rfl | ⟨t,ht⟩
    · rfl
    · exact ReadyToRun_sem ht
  rw [SetLevel_sem h,hwake,SetLevel_sem h₁]

theorem State.resume_sem (h : k.resume = .ok k') :
    k'.sem = k.sem ∨ ∃ s t l r' b, k.saved k.executing = .inP s t l ∧
      Semaphore.State.passP { k.sem s with woken := (k.sem s).woken.erase t } t = .ok (r',b) ∧
      k'.sem = Function.update k.sem s r' := by
  obtain ⟨_,⟨l,_,hlevel⟩ | ⟨s,t,l,hframe,hpass⟩⟩ := of_resume h
  · have hsem := SetLevel_sem hlevel
    exact Or.inl hsem
  · obtain ⟨r',b,hr,hsem⟩ := passP_sem hpass
    exact Or.inr ⟨s,t,l,r',b,hframe,hr,hsem⟩

/-- What one step of the kernel does to its semaphores. -/
theorem sem_step {a : Action Sem Thread} (h : step k a = .ok k') :
    k'.sem = k.sem ∨
    (∃ s, k'.sem = Function.update k.sem s (k.sem s).callV) ∨
    (∃ s r' b, k.control = .running ∧ (k.sem s).passP k.currentThread = .ok (r',b) ∧
      k'.sem = Function.update k.sem s r') ∨
    (∃ s t l r' b, k.control = .switched ∧ k.saved k.executing = .inP s t l ∧
      Semaphore.State.passP { k.sem s with woken := (k.sem s).woken.erase t } t = .ok (r',b) ∧
      k'.sem = Function.update k.sem s r') := by
  cases a with
  | fork t =>
    obtain ⟨_,h⟩ := require_bind_ok.mp h
    obtain ⟨k₁,h₁,h⟩ := bind_ok.mp h
    obtain ⟨k₂,h₂,h⟩ := bind_ok.mp h
    have h₁ := SetLevel_sem h₁
    exact Or.inl (((SetLevel_sem h).trans (ReadyToRun_sem h₂)).trans h₁)
  | yield => exact Or.inl (Yield_sem (require_bind_ok.mp h).2)
  | P s =>
    obtain ⟨hc,h⟩ := require_bind_ok.mp h
    obtain ⟨k₁,h₁,h⟩ := bind_ok.mp h
    obtain ⟨r',b,hr,hsem⟩ := passP_sem h
    rw [SetLevel_sem h₁] at hr hsem
    exact Or.inr (Or.inr (Or.inl ⟨s,r',b,hc,hr,hsem⟩))
  | V s => exact Or.inr (Or.inl ⟨s,V_sem (require_bind_ok.mp h).2⟩)
  | finish =>
    obtain ⟨_,h⟩ := require_bind_ok.mp h
    obtain ⟨k₁,h₁,h⟩ := bind_ok.mp h
    obtain ⟨_,h⟩ := check_bind_ok.mp h
    exact Or.inl ((Sleep_sem h).trans (SetLevel_sem h₁))
  | instruction =>
    obtain ⟨_,h⟩ := require_bind_ok.mp h
    cases h
    exact Or.inl rfl
  | handlerV s => exact Or.inr (Or.inl ⟨s,V_sem (require_bind_ok.mp h).2⟩)
  | timer =>
    obtain ⟨_,h⟩ := require_bind_ok.mp h
    obtain ⟨_,h⟩ := check_bind_ok.mp h
    cases h
    exact Or.inl (by split <;> rfl)
  | interrupt =>
    obtain ⟨_,h⟩ := require_bind_ok.mp h
    cases h
    exact Or.inl rfl
  | handled =>
    obtain ⟨_,h⟩ := require_bind_ok.mp h
    cases h
    exact Or.inl rfl
  | returned =>
    obtain ⟨_,h⟩ := require_bind_ok.mp h
    split at h
    · have h := Yield_sem h
      exact Or.inl h
    · cases h
      exact Or.inl rfl
  | findNext =>
    obtain ⟨_,_,_,_,_,⟨next,hrun⟩ | rfl⟩ := of_findNext h
    · have hsem := Run_sem hrun
      exact Or.inl hsem
    · exact Or.inl rfl
  | idled =>
    obtain ⟨_,_,_,rfl⟩ := of_idled h
    exact Or.inl rfl
  | resume =>
    obtain ⟨hc,h⟩ := require_bind_ok.mp h
    rcases resume_sem h with h | ⟨s,t,l,r',b,hf,hr,hsem⟩
    · exact Or.inl h
    · exact Or.inr (Or.inr (Or.inr ⟨s,t,l,r',b,hc,hf,hr,hsem⟩))

/-- Each semaphore of the kernel is a run of the semaphore machine: what is proved of that
machine for every interleaving holds of the semaphores under this scheduler. -/
def semaphoreSimulation (initialValue : Sem → ℤ) (main : Thread) (s : Sem) :
    Machine.Simulation (machine initialValue main)
      (Semaphore.machine (initialValue s) : Machine (Semaphore.State Thread) _) where
  abs k := k.sem s
  initial k hi := by rw [show k = initial initialValue main from hi]; rfl
  step k a k' hk h := by
    obtain ⟨place,hcore,hctl⟩ := reachable_inv hk
    rcases sem_step h with he | ⟨s',he⟩ | ⟨s',r',b,hc,hr,he⟩ | ⟨s',t,l,r',b,hc,hf,hr,he⟩
    · exact ⟨[],by rw [he]; rfl⟩
    all_goals
      by_cases hs : s = s'
      swap
      · exact ⟨[],by rw [he]; simp [hs]⟩
      subst hs
      rw [he,Function.update_self]
    · exact ⟨[.handlerV],rfl⟩
    · simp only [ControlOk,hc] at hctl
      have hnot : ¬ (k.sem s).InP k.currentThread := by
        simp [Semaphore.State.InP,hcore.waiting,hcore.woken,hctl.2.2.2]
      refine ⟨[.callP k.currentThread],(Machine.run_cons_ok _).mpr ⟨r',?_,rfl⟩⟩
      exact bind_ok.mpr ⟨(r',b),require_bind_ok.mpr ⟨hnot,hr⟩,rfl⟩
    · simp only [ControlOk,hc] at hctl
      obtain ⟨_,_,⟨w,hw⟩,hframe⟩ := hctl
      rw [hcore.executing] at hf
      rw [hw,hf] at hframe
      cases w with
      | none => rcases hframe with hframe | hframe <;> cases hframe
      | some v =>
        cases hframe
        have hmem : k.currentThread ∈ (k.sem s).woken := (hcore.woken s _).mpr (Or.inr hw)
        refine ⟨[.resumeP k.currentThread],(Machine.run_cons_ok _).mpr ⟨r',?_,rfl⟩⟩
        exact bind_ok.mpr ⟨(r',b),require_bind_ok.mpr ⟨hmem,hr⟩,rfl⟩

end Semaphores

/-- Forked, or the main thread, and not destroyed. -/
def State.Live (k : State Sem Thread) (t : Thread) : Prop :=
  k.status t ≠ .justCreated ∧ t ∉ k.destroyed

/-- On the ready list once and `READY`, or on one semaphore's queue once and `BLOCKED`. -/
def State.InOnePlace (k : State Sem Thread) (t : Thread) : Prop :=
  (k.readyList.count t = 1 ∧ k.status t = .ready ∧ ∀ s, t ∉ (k.sem s).sem.queue) ∨
  (t ∉ k.readyList ∧ k.status t = .blocked ∧
    ∃ s, (k.sem s).sem.queue.count t = 1 ∧ ∀ s', s' ≠ s → t ∉ (k.sem s').sem.queue)

omit [DecidableEq Sem] in
theorem State.Core.inOnePlace {k : State Sem Thread} {place : Thread → Place Sem}
    (h : k.Core place) (hd : k.toBeDestroyed = none) {t : Thread} (ht : t ≠ k.currentThread)
    (hlive : k.Live t) : k.InOnePlace t := by
  have hpark := h.others t ht
  have hstatus := h.status t
  cases hp : place t with
  | running => simp [hp,Place.Parked] at hpark
  | dispatched w => simp [hp,Place.Parked] at hpark
  | finishing => simp [hp,Place.Parked] at hpark
  | unborn => exact absurd (by rw [hstatus,hp]; rfl) hlive.1
  | dead =>
    have hdead := (h.dead t).mp hp
    rw [hd] at hdead
    exact absurd (hdead.resolve_right (by simp)) hlive.2
  | ready w =>
    left
    refine ⟨List.count_eq_one_of_mem h.readyNodup ((h.ready t).mpr ⟨w,hp⟩),?_,?_⟩
    · rw [hstatus,hp]; rfl
    · intro s
      simp [h.waiting,hp]
  | waiting s =>
    right
    refine ⟨by simp [h.ready,hp],by rw [hstatus,hp]; rfl,s,?_,?_⟩
    · exact List.count_eq_one_of_mem (h.waitingNodup s) ((h.waiting s t).mpr hp)
    · intro s' hs
      simp [h.waiting,hp,Ne.symm hs]

/-- Every thread is in exactly one place whenever interrupts are enabled, threads are
dispatched in the order in which they became ready, and no assertion of the kernel fails. -/
theorem threads_in_one_place (initialValue : Sem → ℤ) (main : Thread) (k : State Sem Thread)
    (h : (machine initialValue main).Reachable k) :
    (k.level = .intOn →
      k.executing = k.currentThread ∧ k.status k.currentThread = .running ∧
      k.currentThread ∉ k.readyList ∧ (∀ s, k.currentThread ∉ (k.sem s).sem.queue) ∧
      (∀ t, t ≠ k.currentThread → k.Live t → k.InOnePlace t) ∧ k.toBeDestroyed = none) ∧
    k.readied = k.dispatched ++ k.readyList ∧
    ∀ a, step k a ≠ .error .assertion := by
  have hk := reachable_inv h
  refine ⟨fun hon => ?_,?_,step_not_assertion hk⟩
  · obtain ⟨place,hcore,hc⟩ := hk
    have hen : k.Enabled (place k.currentThread) := by
      unfold ControlOk at hc
      cases hctl : k.control <;> simp_all [State.Enabled]
    obtain ⟨_,_,hd,hp⟩ := hen
    refine ⟨hcore.executing,by rw [hcore.status,hp]; rfl,by simp [hcore.ready,hp],?_,?_,hd⟩
    · intro s
      simp [hcore.waiting,hp]
    · intro t ht hlive
      exact hcore.inOnePlace hd ht hlive
  · obtain ⟨place,hcore,_⟩ := hk
    exact hcore.fifo

/-- Thread 0 forks thread 1 and waits for it; thread 1 runs with interrupts enabled. -/
theorem threads_in_one_place_two :
    ∃ k : State (Fin 1) (Fin 2), (machine (fun _ => 0) 0).run (initial (fun _ => 0) 0)
        [.interrupt,.handled,.returned,.fork 1,.interrupt,.handled,.returned,.P 0,.findNext,
          .resume] = .ok k ∧
      k.level = .intOn ∧ k.currentThread = 1 ∧ (k.sem 0).sem.queue = [0] ∧
      (∀ t, t ≠ k.currentThread → k.Live t → k.InOnePlace t) := by
  refine ⟨_,rfl,rfl,rfl,rfl,((threads_in_one_place (fun _ => 0) 0 _ ?_).1 rfl).2.2.2.2.1⟩
  apply Machine.reachable_iff_run.mpr
  exact ⟨_,[.interrupt,.handled,.returned,.fork 1,.interrupt,.handled,.returned,.P 0,.findNext,
    .resume],rfl,rfl⟩

end Scheduler
end NachOS
