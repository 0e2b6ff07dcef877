import NachOS.Scheduler
import NachOS.MipsEffect
import NachOS.AddrSpace

/-! User programs under the scheduler: one register file for all threads.  `Scheduler::Run`
saves and restores it for threads that have an address space (threads/scheduler.cc,
threads/thread.cc, userprog/addrspace.cc). -/
namespace NachOS

open StateMachine

namespace Scheduler

variable {Sem Thread : Type} [DecidableEq Sem] [DecidableEq Thread]

/-! What a step of the kernel does to the current thread. -/

/-- The executing thread is not at a `SWITCH`, and would not come back to its beginning from
the loop of `Sleep`. -/
def Control.Settled : Control Sem Thread → Prop
  | .switched => False
  | .sleeping _ frame | .idle _ frame => frame ≠ .begin
  | _ => True

omit [DecidableEq Sem] [DecidableEq Thread] in
theorem Control.Settled.ne_switched {c : Control Sem Thread} (h : c.Settled) :
    c ≠ .switched := by
  rintro rfl
  exact h

omit [DecidableEq Sem] [DecidableEq Thread] in
theorem Control.InHandler.ne_switched {c : Control Sem Thread} (h : c.InHandler) :
    c ≠ .switched := by
  rintro rfl
  exact h

namespace State

/-- The same thread goes on.  Only a thread that is forked gets another frame. -/
structure Stays (k k' : State Sem Thread) : Prop where
  currentThread : k'.currentThread = k.currentThread
  saved : ∀ t, k'.saved t = k.saved t ∨ k.status t = .justCreated
  status : ∀ t, k'.status t = .justCreated → k.status t = .justCreated
  control : k.control.Settled → k'.control.Settled

/-- `Run` was called: the current thread has stopped. -/
structure Switches (k k' : State Sem Thread) : Prop where
  control : k'.control = .switched
  saved : ∃ frame, frame ≠ .begin ∧ ∀ t, k'.saved t =
    if t = k.currentThread then frame else k.saved t
  status : ∀ t, k'.status t = .justCreated → k.status t = .justCreated

variable {k k₁ k' : State Sem Thread} {t : Thread} {s : Sem}

omit [DecidableEq Sem] [DecidableEq Thread] in
/-- A step that leaves the threads alone. -/
theorem Stays.of_eq (hcurrent : k'.currentThread = k.currentThread) (hsaved : k'.saved = k.saved)
    (hstatus : k'.status = k.status) (hcontrol : k.control.Settled → k'.control.Settled) :
    Stays k k' :=
  ⟨hcurrent,fun t => Or.inl (congrFun hsaved t),fun _ ht => hstatus ▸ ht,hcontrol⟩

omit [DecidableEq Sem] [DecidableEq Thread] in
theorem Stays.refl (k : State Sem Thread) : Stays k k := .of_eq rfl rfl rfl fun h => h

omit [DecidableEq Sem] [DecidableEq Thread] in
theorem Stays.trans (h : Stays k k₁) (h' : Stays k₁ k') : Stays k k' where
  currentThread := h'.currentThread.trans h.currentThread
  saved t := by
    rcases h'.saved t with hs | hs
    · rw [hs]
      exact h.saved t
    · exact Or.inr (h.status t hs)
  status t ht := h.status t (h'.status t ht)
  control hc := h'.control (h.control hc)

omit [DecidableEq Sem] in
theorem Stays.switches (h : Stays k k₁) (hsaved : k₁.saved = k.saved) (h' : Switches k₁ k') :
    Switches k k' where
  control := h'.control
  saved := by
    obtain ⟨frame,hframe,hs⟩ := h'.saved
    refine ⟨frame,hframe,fun t => ?_⟩
    rw [hs t,h.currentThread,hsaved]
  status t ht := h.status t (h'.status t ht)

/-- A status that was set to something else than `JUST_CREATED`. -/
theorem status_update {status : Thread → ThreadStatus} {x : ThreadStatus} {t u : Thread}
    (hx : x ≠ .justCreated) (h : Function.update status t x u = .justCreated) :
    status u = .justCreated := by
  by_cases hu : u = t
  · subst hu
    rw [Function.update_self] at h
    exact absurd h hx
  · rwa [Function.update_of_ne hu] at h

omit [DecidableEq Sem] [DecidableEq Thread] in
theorem SetLevel_stays {now : IntStatus} (h : k.SetLevel now = .ok k') :
    Stays k k' ∧ k'.saved = k.saved := by
  obtain rfl := eq_of_SetLevel h
  refine ⟨.of_eq rfl rfl rfl fun hc => ?_,rfl⟩
  dsimp only
  split
  · trivial
  · exact hc

omit [DecidableEq Sem] in
theorem ReadyToRun_stays (h : k.ReadyToRun t = .ok k') : Stays k k' ∧ k'.saved = k.saved := by
  obtain ⟨_,rfl⟩ := eq_of_ReadyToRun h
  exact ⟨⟨rfl,fun _ => Or.inl rfl,fun _ => status_update (by decide),fun h => h⟩,rfl⟩

omit [DecidableEq Sem] [DecidableEq Thread] in
theorem FindNextToRun_stays {r : Option Thread} (h : k.FindNextToRun = .ok (r,k')) :
    Stays k k' ∧ k'.saved = k.saved := by
  obtain ⟨_,_,rfl⟩ := eq_of_FindNextToRun h
  exact ⟨.of_eq rfl rfl rfl fun h => h,rfl⟩

omit [DecidableEq Sem] in
theorem Run_switches {b : Bool} {f : Frame Sem Thread} (hf : f ≠ .begin)
    (h : k.Run t b f = .ok k') : Switches k k' := by
  obtain rfl := eq_of_Run h
  refine ⟨rfl,⟨f,hf,fun u => ?_⟩,fun _ => status_update (by decide)⟩
  exact Function.update_apply k.saved k.currentThread f u

omit [DecidableEq Sem] in
theorem Sleep_stays {b : Bool} {f : Frame Sem Thread} (hf : f ≠ .begin)
    (h : k.Sleep t b f = .ok k') : Stays k k' ∧ k'.control.Settled := by
  obtain rfl := eq_of_Sleep h
  exact ⟨⟨rfl,fun _ => Or.inl rfl,fun _ => status_update (by decide),fun _ => hf⟩,hf⟩

omit [DecidableEq Sem] [DecidableEq Thread] in
/-- The current thread goes on running. -/
theorem stays_running : Stays k { k with control := .running } :=
  .of_eq rfl rfl rfl fun _ => trivial

omit [DecidableEq Sem] in
theorem Yield_stays (h : k.Yield t = .ok k') : Stays k k' ∨ Switches k k' := by
  obtain ⟨k₁,h₁,h⟩ := bind_ok.mp h
  obtain ⟨_,h⟩ := check_bind_ok.mp h
  obtain ⟨⟨r,k₂⟩,h₂,h⟩ := bind_ok.mp h
  obtain ⟨hstays₁,hsaved₁⟩ := SetLevel_stays h₁
  obtain ⟨hstays₂,hsaved₂⟩ := FindNextToRun_stays h₂
  have hstays := hstays₁.trans hstays₂
  cases r with
  | none => exact Or.inl ((hstays.trans stays_running).trans (SetLevel_stays h).1)
  | some next =>
    obtain ⟨k₃,h₃,h⟩ := bind_ok.mp h
    obtain ⟨hstays₃,hsaved₃⟩ := ReadyToRun_stays h₃
    have hsaved := hsaved₃.trans (hsaved₂.trans hsaved₁)
    exact Or.inr ((hstays.trans hstays₃).switches hsaved (Run_switches (by simp) h))

theorem passP_stays {l : IntStatus} {r : Semaphore.State Thread} (h : k.passP s t l r = .ok k') :
    Stays k k' ∧ k'.control.Settled := by
  obtain ⟨⟨r',b⟩,_,h⟩ := bind_ok.mp h
  have hsem : Stays k { k with sem := Function.update k.sem s r' } :=
    .of_eq rfl rfl rfl fun h => h
  cases b with
  | true =>
    have h := (SetLevel_stays h).1
    exact ⟨(hsem.trans stays_running).trans h,h.control trivial⟩
  | false =>
    obtain ⟨h,hc⟩ := Sleep_stays (by simp) h
    exact ⟨hsem.trans h,hc⟩

theorem V_stays (h : k.V s = .ok k') : Stays k k' := by
  obtain ⟨k₁,h₁,h⟩ := bind_ok.mp h
  obtain ⟨k₂,h₂,h⟩ := bind_ok.mp h
  have hwake : Stays k₁ k₂ := by
    have hsem : Stays k₁ { k₁ with sem := Function.update k₁.sem s (k₁.sem s).callV } :=
      .of_eq rfl rfl rfl fun h => h
    rcases of_wake h₂ with rfl | ⟨t,ht⟩
    · exact hsem
    · exact hsem.trans (ReadyToRun_stays ht).1
  exact ((SetLevel_stays h₁).1.trans hwake).trans (SetLevel_stays h).1

theorem resume_stays (h : k.resume = .ok k') : Stays k k' ∧ k'.control.Settled := by
  obtain ⟨destroyed,⟨l,_,hlevel⟩ | ⟨s,t,l,_,hpass⟩⟩ := of_resume h
  · have hstays := (SetLevel_stays hlevel).1
    have hback : Stays k { k with
        toBeDestroyed := none, destroyed := destroyed, control := .running } :=
      .of_eq rfl rfl rfl fun _ => trivial
    exact ⟨hback.trans hstays,hstays.control trivial⟩
  · obtain ⟨hstays,hc⟩ := passP_stays hpass
    have hback : Stays k { k with toBeDestroyed := none, destroyed := destroyed } :=
      .of_eq rfl rfl rfl fun h => h
    exact ⟨hback.trans hstays,hc⟩

omit [DecidableEq Sem] in
theorem Fork_stays (hnew : k.status t = .justCreated) (h : k.Fork t = .ok k') : Stays k k' := by
  obtain ⟨k₁,h₁,h⟩ := bind_ok.mp h
  obtain ⟨k₂,h₂,h⟩ := bind_ok.mp h
  have hframe : Stays k { k with saved := Function.update k.saved t .begin } := by
    refine ⟨rfl,fun u => ?_,fun _ h => h,fun h => h⟩
    by_cases hu : u = t
    · exact Or.inr (hu ▸ hnew)
    · exact Or.inl (Function.update_of_ne hu _ _)
  exact ((hframe.trans (SetLevel_stays h₁).1).trans (ReadyToRun_stays h₂).1).trans
    (SetLevel_stays h).1

end State

open State

/-- What one step of the kernel does to the current thread. -/
theorem thread_step {k k' : State Sem Thread} {a : Action Sem Thread} (h : step k a = .ok k')
    (hk : k.control = .switched ∨ k.control.Settled) :
    (a = .resume ∧ k.control = .switched ∧ Stays k k' ∧ k'.control.Settled) ∨
    (a ≠ .resume ∧ k.control.Settled ∧ (Stays k k' ∨ Switches k k')) := by
  cases a with
  | resume =>
    obtain ⟨hc,h⟩ := require_bind_ok.mp h
    exact Or.inl ⟨rfl,hc,resume_stays h⟩
  | fork t =>
    obtain ⟨⟨hc,hnew⟩,h⟩ := require_bind_ok.mp h
    exact Or.inr ⟨by simp,by rw [hc]; trivial,Or.inl (Fork_stays hnew h)⟩
  | yield =>
    obtain ⟨hc,h⟩ := require_bind_ok.mp h
    exact Or.inr ⟨by simp,by rw [hc]; trivial,Yield_stays h⟩
  | P s =>
    obtain ⟨hc,h⟩ := require_bind_ok.mp h
    obtain ⟨k₁,h₁,h⟩ := bind_ok.mp h
    have hstays := (SetLevel_stays h₁).1.trans (passP_stays h).1
    exact Or.inr ⟨by simp,by rw [hc]; trivial,Or.inl hstays⟩
  | V s =>
    obtain ⟨hc,h⟩ := require_bind_ok.mp h
    exact Or.inr ⟨by simp,by rw [hc]; trivial,Or.inl (V_stays h)⟩
  | finish =>
    obtain ⟨hc,h⟩ := require_bind_ok.mp h
    obtain ⟨k₁,h₁,h⟩ := bind_ok.mp h
    obtain ⟨_,h⟩ := check_bind_ok.mp h
    have hstays := (SetLevel_stays h₁).1.trans (Sleep_stays (by simp) h).1
    exact Or.inr ⟨by simp,by rw [hc]; trivial,Or.inl hstays⟩
  | instruction =>
    obtain ⟨hc,h⟩ := require_bind_ok.mp h
    cases h
    exact Or.inr ⟨by simp,by rw [hc]; trivial,
      Or.inl (.of_eq rfl rfl rfl fun _ => trivial)⟩
  | handlerV s =>
    obtain ⟨hc,h⟩ := require_bind_ok.mp h
    exact Or.inr ⟨by simp,hk.resolve_left hc.ne_switched,Or.inl (V_stays h)⟩
  | timer =>
    obtain ⟨hc,h⟩ := require_bind_ok.mp h
    obtain ⟨_,h⟩ := check_bind_ok.mp h
    refine Or.inr ⟨by simp,hk.resolve_left hc.ne_switched,Or.inl ?_⟩
    cases h
    split
    · exact .of_eq rfl rfl rfl fun h => h
    · exact .refl k
  | interrupt =>
    obtain ⟨hc,h⟩ := require_bind_ok.mp h
    cases h
    exact Or.inr ⟨by simp,by rw [hc]; trivial,
      Or.inl (.of_eq rfl rfl rfl fun _ => trivial)⟩
  | handled =>
    obtain ⟨hc,h⟩ := require_bind_ok.mp h
    cases h
    exact Or.inr ⟨by simp,by rw [hc]; trivial,
      Or.inl (.of_eq rfl rfl rfl fun _ => trivial)⟩
  | returned =>
    obtain ⟨hc,h⟩ := require_bind_ok.mp h
    refine Or.inr ⟨by simp,by rw [hc]; trivial,?_⟩
    have hreset : Stays k { k with yieldOnReturn := false } :=
      .of_eq rfl rfl rfl fun h => h
    split at h
    · rcases Yield_stays h with h | h
      · exact Or.inl (hreset.trans h)
      · exact Or.inr (hreset.switches rfl h)
    · cases h
      exact Or.inl stays_running
  | findNext =>
    obtain ⟨finishing,frame,readyList,dispatched,hctl,hnext⟩ := of_findNext h
    rw [hctl] at hk
    have hframe : frame ≠ .begin := hk.resolve_left (by simp)
    refine Or.inr ⟨by simp,by rw [hctl]; exact hframe,?_⟩
    rcases hnext with ⟨next,hrun⟩ | rfl
    · have hfound : Stays k { k with readyList := readyList, dispatched := dispatched } :=
        .of_eq rfl rfl rfl fun h => h
      exact Or.inr (hfound.switches rfl (Run_switches hframe hrun))
    · exact Or.inl (.of_eq rfl rfl rfl fun _ => hframe)
  | idled =>
    obtain ⟨finishing,frame,hctl,rfl⟩ := of_idled h
    rw [hctl] at hk
    have hframe : frame ≠ .begin := hk.resolve_left (by simp)
    exact Or.inr ⟨by simp,by rw [hctl]; exact hframe,
      Or.inl (.of_eq rfl rfl rfl fun _ => hframe)⟩

end Scheduler

namespace ContextSwitch

open Hardware Scheduler

/-- An address space: a pointer to its page table, and its size. -/
structure Space (Table : Type) where
  pageTable : Table
  numPages : ℕ
  deriving DecidableEq, Repr

/-- What a user program has of the machine: the registers and the page table. -/
structure Context (Table : Type) where
  registers : UserRegisters
  pageTable : Option Table
  pageTableSize : ℕ

/-- The kernel of Scheduler with the machine and the threads' address spaces. -/
structure State (Sem Thread Table : Type) where
  kernel : Scheduler.State Sem Thread
  registers : ℕ → BitVec 32
  pageTable : Option Table
  pageTableSize : ℕ
  space : Thread → Option (Space Table)
  userRegisters : Thread → UserRegisters

/-- `write` is anything that is done to the registers, by instructions of user programs or
by the kernel. -/
inductive Action (Sem Thread Table : Type)
  | kernel (a : Scheduler.Action Sem Thread)
  | write (registers : ℕ → BitVec 32)
  | execute (space : Space Table)

variable {Sem Thread Table : Type} [DecidableEq Sem] [DecidableEq Thread]

namespace State

def context (s : State Sem Thread Table) : Context Table :=
  ⟨SaveUserState s.registers,s.pageTable,s.pageTableSize⟩

/-- `Scheduler::Run` before `SWITCH`: `oldThread` is the current thread. -/
def saved (s : State Sem Thread Table) : State Sem Thread Table :=
  let oldThread := s.kernel.currentThread
  { s with userRegisters := if (s.space oldThread).isSome
      then Function.update s.userRegisters oldThread (SaveUserState s.registers)
      else s.userRegisters }

/-- After `SWITCH`: a thread that comes back to `Run` restores its state, a new one starts in
`ThreadRoot`. -/
def restored (s : State Sem Thread Table) : State Sem Thread Table :=
  let oldThread := s.kernel.executing
  if s.kernel.saved oldThread = .begin then s
  else
    match s.space oldThread with
    | none => s
    | some space => { s with
      registers := RestoreUserState (s.userRegisters oldThread) s.registers
      pageTable := some space.pageTable
      pageTableSize := space.numPages }

/-- `CheckIfDue` before it calls the handlers. -/
def delayedLoad (s : State Sem Thread Table) : State Sem Thread Table :=
  { s with registers := Machine.loaded s.registers 0 0#32 }

end State

/-- A step of the kernel calls `Run` if it stops at a `SWITCH`. -/
def step (s : State Sem Thread Table) :
    Action Sem Thread Table → Except Fault (State Sem Thread Table)
  | .kernel a => do
    let kernel ← Scheduler.step s.kernel a
    let s' :=
      if a = .resume then s.restored
      else if kernel.control = .switched then s.saved
      else if kernel.control.InHandler ∧ ¬ s.kernel.control.InHandler then s.delayedLoad
      else s
    return { s' with kernel := kernel }
  | .write registers => return { s with registers := registers }
  | .execute space => do
    require (s.kernel.control = .running)
    return { s with
      space := Function.update s.space s.kernel.currentThread (some space)
      registers := AddrSpace.initialRegisters space.numPages s.registers
      pageTable := some space.pageTable
      pageTableSize := space.numPages }

/-- No thread has an address space yet. -/
def machine (initialValue : Sem → ℤ) (main : Thread) :
    StateMachine.Machine (State Sem Thread Table) (Action Sem Thread Table) where
  initial s := s.kernel = Scheduler.initial initialValue main ∧ ∀ t, s.space t = none
  step := step

namespace State

/-- The thread is not the one that runs. -/
def SwitchedOut (s : State Sem Thread Table) (t : Thread) : Prop :=
  t ≠ s.kernel.currentThread ∨ s.kernel.control = .switched

/-- A user program that is switched out comes back to `Run`, and the thread that runs has its
own page table. -/
structure Inv (s : State Sem Thread Table) : Prop where
  kernel : s.kernel.Inv
  control : s.kernel.control = .switched ∨ s.kernel.control.Settled
  out : ∀ t space, s.SwitchedOut t → s.space t = some space → s.kernel.saved t ≠ .begin
  current : ∀ space, s.kernel.control ≠ .switched →
    s.space s.kernel.currentThread = some space →
      s.pageTable = some space.pageTable ∧ s.pageTableSize = space.numPages
  born : ∀ t space, s.space t = some space → s.kernel.status t ≠ .justCreated

variable {s s' : State Sem Thread Table}

theorem inv_initial {initialValue : Sem → ℤ} {main : Thread}
    (h : (machine initialValue main).initial s) : s.Inv := by
  obtain ⟨hk,hspace⟩ := h
  have hnone : ∀ {t space}, s.space t ≠ some space := by
    intro t space ht
    cases (hspace t).symm.trans ht
  refine ⟨hk ▸ Scheduler.inv_initial initialValue main,Or.inr ?_,fun t space _ ht => absurd ht hnone,
    fun space _ ht => absurd ht hnone,fun t space ht => absurd ht hnone⟩
  rw [hk]
  trivial

theorem restored_eq {space : Space Table} (hframe : s.kernel.saved s.kernel.executing ≠ .begin)
    (hspace : s.space s.kernel.executing = some space) :
    s.restored = { s with
      registers := RestoreUserState (s.userRegisters s.kernel.executing) s.registers
      pageTable := some space.pageTable
      pageTableSize := space.numPages } := by
  simp only [restored,if_neg hframe,hspace]

/-- `restored` changes the machine only. -/
theorem restored_frame (s : State Sem Thread Table) :
    s.restored.space = s.space ∧ s.restored.userRegisters = s.userRegisters := by
  simp only [restored]
  split
  · exact ⟨rfl,rfl⟩
  · split <;> exact ⟨rfl,rfl⟩

omit [DecidableEq Sem] in
theorem saved_of_ne {t : Thread} (h : t ≠ s.kernel.currentThread) :
    s.saved.userRegisters t = s.userRegisters t := by
  simp only [saved]
  split
  · exact Function.update_of_ne h _ _
  · rfl

/-- The thread that was switched to comes back from `Run`, or starts. -/
theorem Inv.resume {kernel : Scheduler.State Sem Thread} (h : s.Inv)
    (hstep : Scheduler.step s.kernel .resume = .ok kernel) (hc : s.kernel.control = .switched)
    (hstays : s.kernel.Stays kernel) (hsettled : kernel.control.Settled) :
    Inv { s.restored with kernel := kernel } := by
  obtain ⟨hspace,_⟩ := s.restored_frame
  have hexecuting : s.kernel.executing = s.kernel.currentThread := by
    obtain ⟨place,hcore,_⟩ := h.kernel
    exact hcore.executing
  refine ⟨Scheduler.inv_step h.kernel hstep,Or.inr hsettled,fun t space hout ht => ?_,
    fun space _ ht => ?_,fun t space ht hnew => ?_⟩
  · rw [hspace] at ht
    rw [(hstays.saved t).resolve_right (h.born t space ht)]
    exact h.out t space (Or.inr hc) ht
  · rw [hspace,hstays.currentThread,← hexecuting] at ht
    rw [restored_eq (h.out _ space (Or.inr hc) ht) ht]
    exact ⟨rfl,rfl⟩
  · rw [hspace] at ht
    exact h.born t space ht (hstays.status t hnew)

omit [DecidableEq Sem] [DecidableEq Thread] in
/-- The same thread goes on; the registers may be written. -/
theorem Inv.stays {kernel : Scheduler.State Sem Thread} (h : s.Inv) (hkernel : kernel.Inv)
    (hc : s.kernel.control.Settled) (hstays : s.kernel.Stays kernel) (f : ℕ → BitVec 32) :
    Inv { s with kernel := kernel,registers := f } := by
  have hsettled := hstays.control hc
  refine ⟨hkernel,Or.inr hsettled,fun t space hout ht => ?_,fun space _ ht => ?_,
    fun t space ht hnew => h.born t space ht (hstays.status t hnew)⟩
  · have hout : s.SwitchedOut t := by
      rcases hout with hout | hout
      · exact Or.inl fun he => hout (he.trans hstays.currentThread.symm)
      · exact absurd hout hsettled.ne_switched
    rw [(hstays.saved t).resolve_right (h.born t space ht)]
    exact h.out t space hout ht
  · have ht : s.space kernel.currentThread = some space := ht
    rw [hstays.currentThread] at ht
    exact h.current space hc.ne_switched ht

omit [DecidableEq Sem] in
/-- The current thread calls `Run`. -/
theorem Inv.switches {kernel : Scheduler.State Sem Thread} (h : s.Inv) (hkernel : kernel.Inv)
    (hswitches : s.kernel.Switches kernel) :
    Inv { s.saved with kernel := kernel } := by
  obtain ⟨frame,hframe,hsaved⟩ := hswitches.saved
  refine ⟨hkernel,Or.inl hswitches.control,fun t space _ ht => ?_,
    fun space hnot => absurd hswitches.control hnot,
    fun t space ht hnew => h.born t space ht (hswitches.status t hnew)⟩
  rw [hsaved]
  split
  · exact hframe
  · next hcurrent => exact h.out t space (Or.inl hcurrent) ht

omit [DecidableEq Sem] in
/-- The current thread starts a user program. -/
theorem Inv.execute (h : s.Inv) (hc : s.kernel.control = .running) (space : Space Table)
    (f : ℕ → BitVec 32) : Inv { s with
      space := Function.update s.space s.kernel.currentThread (some space)
      registers := f
      pageTable := some space.pageTable
      pageTableSize := space.numPages } := by
  refine ⟨h.kernel,h.control,fun t space' hout ht => ?_,fun space' _ ht => ?_,
    fun t space' ht => ?_⟩
  · have hne : t ≠ s.kernel.currentThread := by
      rcases hout with hout | hout
      · exact hout
      · cases hc.symm.trans hout
    simp only [Function.update_of_ne hne] at ht
    exact h.out t space' (Or.inl hne) ht
  · simp only [Function.update_self] at ht
    cases ht
    exact ⟨rfl,rfl⟩
  · by_cases hcurrent : t = s.kernel.currentThread
    · subst hcurrent
      obtain ⟨place,hcore,hctl⟩ := h.kernel
      simp only [Scheduler.State.ControlOk,hc] at hctl
      simp only [hcore.status,hctl.2.2.2]
      exact nofun
    · simp only [Function.update_of_ne hcurrent] at ht
      exact h.born t space' ht

theorem inv_step {a : Action Sem Thread Table} (h : s.Inv) (hstep : step s a = .ok s') : s'.Inv := by
  cases a with
  | kernel a =>
    obtain ⟨kernel,hk,hstep⟩ := bind_ok.mp hstep
    cases hstep
    have hkernel := Scheduler.inv_step h.kernel hk
    rcases Scheduler.thread_step hk h.control with
      ⟨rfl,hc,hstays,hsettled⟩ | ⟨hne,hc,hstays | hswitches⟩
    · exact h.resume hk hc hstays hsettled
    · have hnot := (hstays.control hc).ne_switched
      simp only [if_neg hne,if_neg hnot]
      split
      · exact h.stays hkernel hc hstays _
      · exact h.stays hkernel hc hstays s.registers
    · simp only [if_neg hne,if_pos hswitches.control]
      exact h.switches hkernel hswitches
  | write f =>
    cases hstep
    exact ⟨h.kernel,h.control,h.out,h.current,h.born⟩
  | execute space =>
    obtain ⟨hc,hstep⟩ := require_bind_ok.mp hstep
    cases hstep
    exact h.execute hc space _

end State

open State

theorem reachable_inv {initialValue : Sem → ℤ} {main : Thread} {s : State Sem Thread Table}
    (h : (machine initialValue main).Reachable s) : s.Inv :=
  h.invariant (fun _ => inv_initial) fun _ _ _ => inv_step

/-! A thread that is switched out. -/

/-- The thread does not come back from `SWITCH` in the course of these actions. -/
def Away (t : Thread) : State Sem Thread Table → List (Action Sem Thread Table) → Prop
  | _, [] => True
  | s, a :: as => (a = .kernel .resume → s.kernel.currentThread ≠ t) ∧
      ∀ s', step s a = .ok s' → Away t s' as

theorem Away.cons {s s' : State Sem Thread Table} {a : Action Sem Thread Table} {t : Thread}
    {as : List (Action Sem Thread Table)} (ha : a = .kernel .resume → s.kernel.currentThread ≠ t)
    (hstep : step s a = .ok s') (h : Away t s' as) : Away t s (a :: as) := by
  refine ⟨ha,fun s'' hs'' => ?_⟩
  cases hstep.symm.trans hs''
  exact h

omit [DecidableEq Sem] [DecidableEq Thread] in
theorem State.SwitchedOut.ne {s : State Sem Thread Table} {t : Thread} (h : s.SwitchedOut t)
    (hc : s.kernel.control.Settled) : t ≠ s.kernel.currentThread := by
  rcases h with hne | hswitched
  · exact hne
  · exact absurd hswitched hc.ne_switched

/-- Nothing that was saved for a thread is changed while it is away. -/
theorem kept_step {s s' : State Sem Thread Table} {a : Action Sem Thread Table} {t : Thread}
    (h : s.Inv) (hout : s.SwitchedOut t) (hstep : step s a = .ok s')
    (haway : a = .kernel .resume → s.kernel.currentThread ≠ t) :
    s'.SwitchedOut t ∧ s'.space t = s.space t ∧ s'.userRegisters t = s.userRegisters t := by
  cases a with
  | kernel a =>
    obtain ⟨kernel,hk,hstep⟩ := bind_ok.mp hstep
    cases hstep
    rcases Scheduler.thread_step hk h.control with
      ⟨rfl,hc,hstays,hsettled⟩ | ⟨hne,hc,hstays | hswitches⟩
    · obtain ⟨hspace,huser⟩ := s.restored_frame
      refine ⟨Or.inl fun he => ?_,congrFun hspace t,congrFun huser t⟩
      exact haway rfl (hstays.currentThread.symm.trans he.symm)
    · have hnot := (hstays.control hc).ne_switched
      have hcurrent := hout.ne hc
      rw [← hstays.currentThread] at hcurrent
      simp only [if_neg hne,if_neg hnot]
      split <;> exact ⟨Or.inl hcurrent,rfl,rfl⟩
    · simp only [if_neg hne,if_pos hswitches.control]
      exact ⟨Or.inr hswitches.control,rfl,saved_of_ne (hout.ne hc)⟩
  | write f =>
    cases hstep
    exact ⟨hout,rfl,rfl⟩
  | execute space =>
    obtain ⟨hc,hstep⟩ := require_bind_ok.mp hstep
    cases hstep
    have hne : t ≠ s.kernel.currentThread := hout.ne (hc ▸ trivial)
    exact ⟨Or.inl hne,Function.update_of_ne hne _ _,rfl⟩

theorem kept_run {initialValue : Sem → ℤ} {main t : Thread} {s s' : State Sem Thread Table}
    {as : List (Action Sem Thread Table)} (h : s.Inv) (hout : s.SwitchedOut t)
    (haway : Away t s as) (hrun : (machine initialValue main).run s as = .ok s') :
    s'.Inv ∧ s'.space t = s.space t ∧ s'.userRegisters t = s.userRegisters t := by
  induction as generalizing s with
  | nil =>
    cases hrun
    exact ⟨h,rfl,rfl⟩
  | cons a as ih =>
    obtain ⟨s₁,hstep,hrun⟩ := bind_ok.mp hrun
    obtain ⟨hout₁,hspace,huser⟩ := kept_step h hout hstep haway.1
    obtain ⟨h',hspace',huser'⟩ := ih (inv_step h hstep) hout₁ (haway.2 s₁ hstep) hrun
    exact ⟨h',hspace'.trans hspace,huser'.trans huser⟩

theorem SaveUserState_RestoreUserState (user : UserRegisters) (registers : ℕ → BitVec 32) :
    SaveUserState (RestoreUserState user registers) = user := by
  funext i
  exact RestoreUserState_of_lt user registers i.isLt

/-- The call of `Run`, up to `SWITCH`. -/
theorem call_saves {s s' : State Sem Thread Table} {a : Scheduler.Action Sem Thread}
    (h : s.Inv) (ha : a ≠ .resume) (hcall : step s (.kernel a) = .ok s')
    (hswitched : s'.kernel.control = .switched) :
    s.kernel.control ≠ .switched ∧ s' = { s.saved with kernel := s'.kernel } := by
  obtain ⟨kernel,hk,hcall⟩ := bind_ok.mp hcall
  cases hcall
  rcases Scheduler.thread_step hk h.control with ⟨he,_⟩ | ⟨_,hc,_⟩
  · exact absurd he ha
  · have hkernel : kernel.control = .switched := hswitched
    refine ⟨fun he => ?_,by simp only [if_neg ha,if_pos hkernel]⟩
    rw [he] at hc
    exact hc

/-- The rest of `Run`, for a thread that has an address space. -/
theorem resume_restores {s s' : State Sem Thread Table} {space : Space Table} (h : s.Inv)
    (hspace : s.space s.kernel.currentThread = some space)
    (hresume : step s (.kernel .resume) = .ok s') :
    s'.kernel.currentThread = s.kernel.currentThread ∧ s'.context =
      ⟨s.userRegisters s.kernel.currentThread,some space.pageTable,space.numPages⟩ := by
  obtain ⟨kernel,hk,hresume⟩ := bind_ok.mp hresume
  cases hresume
  rcases Scheduler.thread_step hk h.control with ⟨_,hc,hstays,_⟩ | ⟨he,_⟩
  · have hexecuting : s.kernel.executing = s.kernel.currentThread := by
      obtain ⟨place,hcore,_⟩ := h.kernel
      exact hcore.executing
    have hframe := h.out _ space (Or.inr hc) hspace
    rw [← hexecuting] at hframe hspace
    refine ⟨hstays.currentThread,?_⟩
    simp only [if_true,restored_eq hframe hspace,context,SaveUserState_RestoreUserState,hexecuting]
  · exact absurd rfl he

/-- A thread with an address space calls `Run` in `s₀` and comes back from `SWITCH` in `s₂`,
with anything done by the other threads in between: it goes on with the registers and the
page table it had. -/
theorem context_preserved {initialValue : Sem → ℤ} {main : Thread}
    {s₀ s₁ s₂ s₃ : State Sem Thread Table} {a : Scheduler.Action Sem Thread}
    {as : List (Action Sem Thread Table)} (h : (machine initialValue main).Reachable s₀)
    (hspace : (s₀.space s₀.kernel.currentThread).isSome) (ha : a ≠ .resume)
    (hcall : step s₀ (.kernel a) = .ok s₁) (hswitched : s₁.kernel.control = .switched)
    (haway : Away s₀.kernel.currentThread s₁ as)
    (hrun : (machine initialValue main).run s₁ as = .ok s₂)
    (hback : s₂.kernel.currentThread = s₀.kernel.currentThread)
    (hresume : step s₂ (.kernel .resume) = .ok s₃) :
    s₃.kernel.currentThread = s₀.kernel.currentThread ∧ s₃.context = s₀.context := by
  have hinv := reachable_inv h
  obtain ⟨space,hspace⟩ := Option.isSome_iff_exists.mp hspace
  obtain ⟨hcontrol,hsaved⟩ := call_saves hinv ha hcall hswitched
  obtain ⟨hinv₂,hspace₂,huser₂⟩ := kept_run (inv_step hinv hcall) (Or.inr hswitched) haway hrun
  have hspace₁ : s₁.space s₀.kernel.currentThread = some space := by
    rw [hsaved]
    exact hspace
  have huser₁ : s₁.userRegisters s₀.kernel.currentThread = SaveUserState s₀.registers := by
    rw [hsaved]
    simp only [State.saved,hspace,Option.isSome_some,if_true,Function.update_self]
  rw [← hback] at hspace₂ huser₂ hspace₁ huser₁
  obtain ⟨hcurrent,hcontext⟩ := resume_restores hinv₂ (hspace₂.trans hspace₁) hresume
  obtain ⟨htable,hsize⟩ := hinv.current space hcontrol hspace
  refine ⟨hcurrent.trans hback,?_⟩
  rw [hcontext,huser₂,huser₁,State.context,htable,hsize]

def booted : State Unit Bool ℕ where
  kernel := Scheduler.initial (fun _ => 0) false
  registers := fun _ => 0
  pageTable := none
  pageTableSize := 0
  space := fun _ => none
  userRegisters := fun _ _ => 0

/-- The first thread forks another one, starts a user program and waits. -/
def waits : List (Action Unit Bool ℕ) :=
  [.kernel .interrupt,.kernel .handled,.kernel .returned,.kernel (.fork true),.kernel .interrupt,
    .kernel .handled,.kernel .returned,.execute ⟨7,3⟩,.write fun _ => 42,.kernel (.P ())]

/-- The other one, a kernel thread, writes to the registers, wakes up the first and yields. -/
def wakes : List (Action Unit Bool ℕ) :=
  [.kernel .resume,.kernel .interrupt,.kernel .handled,.kernel .returned,.write fun _ => 1,
    .kernel (.V ()),.kernel .interrupt,.kernel .handled,.kernel .returned,.kernel .yield]

theorem context_preserved_two : ∃ s₀, (machine (fun _ => 0) false).run booted waits = .ok s₀ ∧
    ∃ s₁, step s₀ (.kernel .findNext) = .ok s₁ ∧
    ∃ s₂, (machine (fun _ => 0) false).run s₁ wakes = .ok s₂ ∧ s₂.registers 5 = 1 ∧
    ∃ s₃, step s₂ (.kernel .resume) = .ok s₃ ∧ s₃.context = s₀.context := by
  have hbooted : (machine (fun _ => 0) false).Reachable booted := .start ⟨rfl,fun _ => rfl⟩
  have hwaits := hbooted.run (show (machine (fun _ => 0) false).run booted waits = .ok _ from rfl)
  refine ⟨_,rfl,_,rfl,_,rfl,rfl,_,rfl,?_⟩
  apply And.right
  apply context_preserved hwaits rfl (a := .findNext) (by simp) rfl rfl
  rotate_left
  · exact (show (machine (fun _ => 0) false).run _ wakes = .ok _ from rfl)
  · rfl
  · rfl
  · refine Away.cons (fun _ => by decide) rfl ?_
    refine Away.cons (by simp) rfl (Away.cons (by simp) rfl (Away.cons (by simp) rfl ?_))
    refine Away.cons (by simp) rfl (Away.cons (by simp) rfl ?_)
    refine Away.cons (by simp) rfl (Away.cons (by simp) rfl ?_)
    exact Away.cons (by simp) rfl (Away.cons (by simp) rfl trivial)

end ContextSwitch
end NachOS
