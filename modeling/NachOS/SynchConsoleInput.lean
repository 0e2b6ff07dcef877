import NachOS.SynchDevice
import NachOS.Syscall

/-! `SynchConsoleInput` (userprog/synchconsole.cc) over `ConsoleInput` (machine/console.cc).
The `char` in `incoming` says both which byte is buffered and whether one is. -/
namespace NachOS

open StateMachine hiding Machine
open Kernel (EOF)

namespace Guard

variable {Thread : Type} [DecidableEq Thread]

/-- Every `V` so far was used up: by a thread that has gone on from `P`. -/
def State.Spent (g : State Thread) : Prop := g.value = 0 ∧ ∀ t, g.point t ≠ .passed

/-- One `V` is left, or its thread has just come through `P`. -/
def State.Charged (g : State Thread) : Prop :=
  (g.value = 1 ∧ ∀ t, g.point t ≠ .passed) ∨ (g.value = 0 ∧ ∃ t, g.point t = .passed)

variable {g g' : State Thread} {t : Thread}

/-- Moving a thread that has not come through `P` to a point before or after it. -/
theorem passed_iff {p : Point} (ht : g.point t ≠ .passed) (hp : p ≠ .passed)
    (hpoint : g'.point = Function.update g.point t p) (u : Thread) :
    g'.point u = .passed ↔ g.point u = .passed := by
  rw [hpoint]
  by_cases hu : u = t
  · simp [hu,ht,hp]
  · rw [Function.update_of_ne hu]

omit [DecidableEq Thread] in
theorem spent_congr (hvalue : g'.value = g.value)
    (hpassed : ∀ u, g'.point u = .passed ↔ g.point u = .passed) : g'.Spent ↔ g.Spent := by
  simp only [State.Spent,hvalue,ne_eq,hpassed]

omit [DecidableEq Thread] in
theorem charged_congr (hvalue : g'.value = g.value)
    (hpassed : ∀ u, g'.point u = .passed ↔ g.point u = .passed) : g'.Charged ↔ g.Charged := by
  simp only [State.Charged,hvalue,ne_eq,hpassed]

theorem Passes.spent (h : Passes g g' t) (hg : g.Spent) : g'.Spent := by
  rcases h.cases with ⟨hv,hv',hpoint⟩ | ⟨hv,_⟩
  · exact (spent_congr (hv'.trans hv.symm) (passed_iff (hg.2 t) (by decide) hpoint)).mpr hg
  · exact absurd hg.1 hv

theorem Passes.charged (h : Passes g g' t) (hg : g.Charged) : g'.Charged := by
  have ht : g.point t ≠ .passed := by
    rcases h.source with hp | hp <;> simp [hp]
  rcases h.cases with ⟨hv,hv',hpoint⟩ | ⟨hv,hv',hpoint⟩
  · exact (charged_congr (hv'.trans hv.symm) (passed_iff ht (by decide) hpoint)).mpr hg
  · rcases hg with ⟨hone,_⟩ | ⟨hzero,_⟩
    · refine Or.inr ⟨by rw [hv',hone]; norm_num,t,?_⟩
      rw [hpoint,Function.update_self]
    · exact absurd hzero hv

/-- Going on from `P` uses up the `V`. -/
theorem Moves.spent (hinv : g.Inv) (h : Moves g g' t .passed .leaving)
    (hvalue : g'.value = g.value) (hg : g.Charged) : g'.Spent := by
  rcases hg with ⟨_,hno⟩ | ⟨hzero,_⟩
  · exact absurd h.source (hno t)
  · refine ⟨hvalue.trans hzero,fun u hu => ?_⟩
    rw [h.point] at hu
    by_cases he : u = t
    · simp [he] at hu
    · rw [Function.update_of_ne he] at hu
      exact he (hinv.unique (by simp [hu]) (by simp [h.source]))

omit [DecidableEq Thread] in
theorem State.Spent.V (h : g.Inv) (hg : g.Spent) : g.V.Charged :=
  Or.inl ⟨(V_spec h hg.1).2,hg.2⟩

end Guard

namespace SynchConsoleInput

variable {Thread : Type} [DecidableEq Thread]

/-- `input` is what is left of the UNIX file that simulates the keyboard, `polls` counts the
`ConsoleReadInt` interrupts that are scheduled. -/
structure ConsoleInput where
  incoming : Byte
  input : List Byte
  polls : ℕ

def ConsoleInput.new (input : List Byte) : ConsoleInput := ⟨EOF,input,1⟩

/-- `ready` is the answer of `PollFile`.  The first flag tells whether `callWhenAvail` is
called, the second whether it is called at the end of the file. -/
def ConsoleInput.CallBack (c : ConsoleInput) (ready : Bool) :
    Except Fault (ConsoleInput × Bool × Bool) := do
  check (c.incoming = EOF)
  if ready = false then return ({ c with polls := c.polls + 1 },false,false)
  else
    match c.input with
    | [] => return (c,true,true)
    | ch :: rest => return ({ c with incoming := ch,input := rest },true,false)

def ConsoleInput.GetChar (c : ConsoleInput) : Byte × ConsoleInput :=
  let polls := if c.incoming ≠ EOF then c.polls + 1 else c.polls
  (c.incoming,{ c with incoming := EOF,polls := polls })

/-- The last three fields are ghosts: the bytes read from the file, the characters returned
by `ConsoleInput::GetChar`, and whether the end of the file has been seen. -/
structure State (Thread : Type) where
  guard : Guard.State Thread
  device : ConsoleInput
  taken : List Byte
  returned : List Byte
  ended : Bool

inductive Action (Thread : Type)
  | call (t : Thread) | resume (t : Thread) | setHolder (t : Thread) | P (t : Thread)
  | resumeP (t : Thread) | getChar (t : Thread) | release (t : Thread) | interrupt (ready : Bool)
  deriving DecidableEq, Repr

def new (input : List Byte) : State Thread := ⟨Guard.new,.new input,[],[],false⟩

/-- The interrupt handler. -/
def State.interrupt (s : State Thread) (ready : Bool) : Except Fault (State Thread) := do
  require (0 < s.device.polls)
  let (device,avail,ended) ← ConsoleInput.CallBack
    { s.device with polls := s.device.polls - 1 } ready
  return { s with
    guard := if avail then s.guard.V else s.guard
    device := device
    taken := if avail then s.taken ++ s.device.input.take 1 else s.taken
    ended := s.ended || ended }

/-- `SynchConsoleInput::GetChar` by sections. -/
def step (s : State Thread) : Action Thread → Except Fault (State Thread)
  | .call t => do return { s with guard := ← s.guard.acquire t }
  | .resume t => do return { s with guard := ← s.guard.resume t }
  | .setHolder t => do return { s with guard := ← s.guard.setHolder t }
  | .P t => do
    let guard ← s.guard.before t
    return { s with guard := ← guard.P t }
  | .resumeP t => do return { s with guard := ← s.guard.resumeP t }
  | .getChar t => do
    let guard ← s.guard.after t
    let (ch,device) := s.device.GetChar
    return { s with guard := guard,device := device,returned := s.returned ++ [ch] }
  | .release t => do return { s with guard := ← s.guard.release t }
  | .interrupt ready => s.interrupt ready

def machine (input : List Byte) : StateMachine.Machine (State Thread) (Action Thread) where
  initial s := s = new input
  step := step

namespace State

/-- The device polls; nothing is buffered and nobody is to be woken up. -/
structure Polling (s : State Thread) : Prop where
  guard : s.guard.Spent
  polls : s.device.polls = 1
  incoming : s.device.incoming = EOF
  ended : s.ended = false
  taken : EOF ∉ s.taken
  returned : s.returned = s.taken

/-- A byte, or the end of the file, was announced and has not been fetched. -/
structure Full (s : State Thread) : Prop where
  guard : s.guard.Charged
  polls : s.device.polls = 0
  announced : (s.ended = false ∧ EOF ∉ s.returned ∧ s.taken = s.returned ++ [s.device.incoming]) ∨
    (s.ended = true ∧ s.device.incoming = EOF ∧ s.device.input = [] ∧ EOF ∉ s.taken ∧
      s.returned = s.taken)

/-- Nothing will arrive any more. -/
structure Silent (s : State Thread) : Prop where
  guard : s.guard.Spent
  polls : s.device.polls = 0
  incoming : s.device.incoming = EOF
  announced : (s.ended = false ∧ EOF ∈ s.taken ∧ s.returned = s.taken) ∨
    (s.ended = true ∧ s.device.input = [] ∧ EOF ∉ s.taken ∧ s.returned = s.taken ++ [EOF])

structure Inv (input : List Byte) (s : State Thread) : Prop where
  guard : s.guard.Inv
  input : s.taken ++ s.device.input = input
  mode : s.Polling ∨ s.Full ∨ s.Silent

end State

open State

variable {input : List Byte} {s s' : State Thread} {t : Thread}

omit [DecidableEq Thread] in
theorem inv_initial (input : List Byte) : (new input : State Thread).Inv input := by
  refine ⟨Guard.inv_initial,rfl,Or.inl ⟨⟨rfl,?_⟩,rfl,rfl,rfl,List.not_mem_nil,rfl⟩⟩
  intro t ht
  cases ht

/-- A section that does not come to the device. -/
structure Guarded (s s' : State Thread) : Prop where
  eq : s' = { s with guard := s'.guard }
  guard : s'.guard.Inv
  spent : s.guard.Spent → s'.guard.Spent
  charged : s.guard.Charged → s'.guard.Charged

omit [DecidableEq Thread] in
theorem guarded_of_passed {guard : Guard.State Thread} (hguard : guard.Inv)
    (hvalue : guard.value = s.guard.value)
    (hpassed : ∀ u, guard.point u = .passed ↔ s.guard.point u = .passed) :
    Guarded s { s with guard := guard } :=
  ⟨rfl,hguard,(Guard.spent_congr hvalue hpassed).mpr,(Guard.charged_congr hvalue hpassed).mpr⟩

theorem guarded_of_acquires {guard : Guard.State Thread} (hguard : guard.Inv)
    (ha : Guard.Acquires s.guard guard t) : Guarded s { s with guard := guard } := by
  refine guarded_of_passed hguard (by rw [Guard.State.value,ha.semaphore]) fun u => ?_
  rw [ha.point]

/-- What one step does. -/
theorem step_cases {a : Action Thread} (h : s.guard.Inv) (hs : step s a = .ok s') :
    Guarded s s' ∨
    (∃ t guard, s.guard.after t = .ok guard ∧ s' = { s with
      guard := guard
      device := s.device.GetChar.2
      returned := s.returned ++ [s.device.GetChar.1] }) ∨
    ∃ ready, s.interrupt ready = .ok s' := by
  cases a with
  | call t =>
    obtain ⟨guard,hguard,he⟩ := bind_ok.mp hs
    cases he
    obtain ⟨hinv,_,ha⟩ := Guard.acquire_spec h hguard
    exact Or.inl (guarded_of_acquires hinv ha)
  | resume t =>
    obtain ⟨guard,hguard,he⟩ := bind_ok.mp hs
    cases he
    obtain ⟨hinv,_,ha⟩ := Guard.resume_spec h hguard
    exact Or.inl (guarded_of_acquires hinv ha)
  | setHolder t =>
    obtain ⟨guard,hguard,he⟩ := bind_ok.mp hs
    cases he
    obtain ⟨hinv,_,ha⟩ := Guard.setHolder_spec h hguard
    exact Or.inl (guarded_of_acquires hinv ha)
  | P t =>
    obtain ⟨g₁,hbefore,hs⟩ := bind_ok.mp hs
    obtain ⟨g₂,hP,he⟩ := bind_ok.mp hs
    cases he
    obtain ⟨hinv₁,hmoves,hvalue⟩ := Guard.before_spec h hbefore
    obtain ⟨hinv₂,hp⟩ := Guard.P_spec hinv₁ hP
    have hpassed := Guard.passed_iff (by simp [hmoves.source]) (by decide) hmoves.point
    exact Or.inl ⟨rfl,hinv₂,fun hg => hp.spent ((Guard.spent_congr hvalue hpassed).mpr hg),
      fun hg => hp.charged ((Guard.charged_congr hvalue hpassed).mpr hg)⟩
  | resumeP t =>
    obtain ⟨guard,hguard,he⟩ := bind_ok.mp hs
    cases he
    obtain ⟨hinv,hp⟩ := Guard.resumeP_spec h hguard
    exact Or.inl ⟨rfl,hinv,hp.spent,hp.charged⟩
  | getChar t =>
    obtain ⟨guard,hguard,he⟩ := bind_ok.mp hs
    cases he
    exact Or.inr (Or.inl ⟨t,guard,hguard,rfl⟩)
  | release t =>
    obtain ⟨guard,hguard,he⟩ := bind_ok.mp hs
    cases he
    obtain ⟨hinv,hleaving,hvalue,_,hpoint⟩ := Guard.release_spec h hguard
    have hpassed := Guard.passed_iff (by simp [hleaving]) (by decide) hpoint
    exact Or.inl (guarded_of_passed hinv hvalue hpassed)
  | interrupt ready => exact Or.inr (Or.inr ⟨ready,hs⟩)

omit [DecidableEq Thread] in
theorem State.Inv.guarded (h : s.Inv input) (hs : Guarded s s') : s'.Inv input := by
  rw [hs.eq]
  refine ⟨hs.guard,h.input,?_⟩
  rcases h.mode with hm | hm | hm
  · exact Or.inl ⟨hs.spent hm.guard,hm.polls,hm.incoming,hm.ended,hm.taken,hm.returned⟩
  · exact Or.inr (Or.inl ⟨hs.charged hm.guard,hm.polls,hm.announced⟩)
  · exact Or.inr (Or.inr ⟨hs.spent hm.guard,hm.polls,hm.incoming,hm.announced⟩)

/-- What was announced is fetched; only a byte other than EOF makes the device poll again. -/
theorem State.Inv.getChar {guard : Guard.State Thread} (h : s.Inv input)
    (hs : s.guard.after t = .ok guard) : Inv input { s with
      guard := guard
      device := s.device.GetChar.2
      returned := s.returned ++ [s.device.GetChar.1] } := by
  obtain ⟨hguard,hmoves,hvalue⟩ := Guard.after_spec h.guard hs
  refine ⟨hguard,h.input,?_⟩
  have hpassed : ¬ s.guard.Spent := fun hg => hg.2 t hmoves.source
  rcases h.mode with hm | hm | hm
  · exact absurd hm.guard hpassed
  · have hspent := hmoves.spent h.guard hvalue hm.guard
    rcases hm.announced with ⟨hended,hreturned,htaken⟩ | ⟨hended,hincoming,hinput,htaken,hreturned⟩
    · by_cases hc : s.device.incoming = EOF
      · refine Or.inr (Or.inr ⟨hspent,?_,rfl,Or.inl ⟨hended,?_,htaken.symm⟩⟩)
        · simp [ConsoleInput.GetChar,hc,hm.polls]
        · rw [htaken,hc]
          simp
      · refine Or.inl ⟨hspent,?_,rfl,hended,?_,htaken.symm⟩
        · simp [ConsoleInput.GetChar,hc,hm.polls]
        · rw [htaken]
          simp [hreturned,Ne.symm hc]
    · refine Or.inr (Or.inr ⟨hspent,?_,rfl,Or.inr ⟨hended,hinput,htaken,?_⟩⟩)
      · simp [ConsoleInput.GetChar,hincoming,hm.polls]
      · simp [ConsoleInput.GetChar,hincoming,hreturned]
  · exact absurd hm.guard hpassed

omit [DecidableEq Thread] in
/-- The device only calls back while it polls. -/
theorem State.Inv.polling (h : s.Inv input) (hpolls : 0 < s.device.polls) : s.Polling := by
  rcases h.mode with hm | hm | hm
  · exact hm
  · rw [hm.polls] at hpolls
    exact absurd hpolls (lt_irrefl 0)
  · rw [hm.polls] at hpolls
    exact absurd hpolls (lt_irrefl 0)

omit [DecidableEq Thread] in
/-- A poll that finds nothing. -/
theorem interrupt_false (hm : s.Polling) : s.interrupt false = .ok s := by
  have hpolls : 0 < s.device.polls := by simp [hm.polls]
  simp only [State.interrupt,require_of hpolls,ConsoleInput.CallBack,check_of hm.incoming]
  obtain ⟨guard,⟨incoming,input,polls⟩,taken,returned,ended⟩ := s
  cases hm.polls
  cases hm.ended
  rfl

omit [DecidableEq Thread] in
/-- A poll at the end of the file. -/
theorem interrupt_end (hm : s.Polling) (hinput : s.device.input = []) :
    s.interrupt true = .ok { s with
      guard := s.guard.V
      device := ⟨EOF,[],0⟩
      ended := true } := by
  have hpolls : 0 < s.device.polls := by simp [hm.polls]
  simp only [State.interrupt,require_of hpolls,ConsoleInput.CallBack,check_of hm.incoming,hinput]
  obtain ⟨guard,⟨incoming,input,polls⟩,taken,returned,ended⟩ := s
  cases hm.polls
  cases hm.incoming
  cases hm.ended
  cases hinput
  simp [bind,Except.bind,pure,Except.pure]

omit [DecidableEq Thread] in
/-- A poll that finds a byte. -/
theorem interrupt_byte {ch : Byte} {rest : List Byte} (hm : s.Polling)
    (hinput : s.device.input = ch :: rest) :
    s.interrupt true = .ok { s with
      guard := s.guard.V
      device := ⟨ch,rest,0⟩
      taken := s.taken ++ [ch] } := by
  have hpolls : 0 < s.device.polls := by simp [hm.polls]
  simp only [State.interrupt,require_of hpolls,ConsoleInput.CallBack,check_of hm.incoming,hinput]
  obtain ⟨guard,⟨incoming,input,polls⟩,taken,returned,ended⟩ := s
  cases hm.polls
  cases hm.ended
  cases hinput
  rfl

omit [DecidableEq Thread] in
theorem State.Inv.interrupt {ready : Bool} (h : s.Inv input)
    (hs : s.interrupt ready = .ok s') : s'.Inv input := by
  obtain ⟨hpolls,_⟩ := require_bind_ok.mp hs
  have hm := h.polling hpolls
  have hcharged := hm.guard.V h.guard
  have hguard := (Guard.V_spec h.guard hm.guard.1).1
  cases ready with
  | false =>
    rw [interrupt_false hm] at hs
    cases hs
    exact h
  | true =>
    cases hinput : s.device.input with
    | nil =>
      rw [interrupt_end hm hinput] at hs
      cases hs
      refine ⟨hguard,?_,Or.inr (Or.inl ⟨hcharged,rfl,Or.inr ⟨rfl,rfl,rfl,hm.taken,hm.returned⟩⟩)⟩
      rw [← h.input,hinput]
    | cons ch rest =>
      rw [interrupt_byte hm hinput] at hs
      cases hs
      refine ⟨hguard,?_,Or.inr (Or.inl ⟨hcharged,rfl,Or.inl ⟨hm.ended,?_,?_⟩⟩)⟩
      · rw [← h.input,hinput]
        simp
      · rw [hm.returned]
        exact hm.taken
      · rw [hm.returned]

theorem inv_step {a : Action Thread} (h : s.Inv input) (hs : step s a = .ok s') :
    s'.Inv input := by
  rcases step_cases h.guard hs with hg | ⟨t,guard,hafter,rfl⟩ | ⟨ready,hs⟩
  · exact h.guarded hg
  · exact h.getChar hafter
  · exact h.interrupt hs

theorem reachable_inv (h : (machine input).Reachable s) : s.Inv input :=
  h.invariant (fun _ hi => hi ▸ inv_initial input) fun _ _ _ => inv_step

theorem inv_run {as : List (Action Thread)} (h : s.Inv input)
    (hs : (machine input).run s as = .ok s') : s'.Inv input :=
  (machine input).run_invariant (fun _ _ _ => inv_step) h hs

/-- Once nothing will arrive, nobody gets a character. -/
theorem silent_step {a : Action Thread} (h : s.Inv input) (hm : s.Silent)
    (hs : step s a = .ok s') : s'.Silent ∧ s'.returned = s.returned := by
  rcases step_cases h.guard hs with hg | ⟨t,guard,hafter,rfl⟩ | ⟨ready,hs⟩
  · rw [hg.eq]
    exact ⟨⟨hg.spent hm.guard,hm.polls,hm.incoming,hm.announced⟩,rfl⟩
  · obtain ⟨_,hmoves,_⟩ := Guard.after_spec h.guard hafter
    exact absurd hmoves.source (hm.guard.2 t)
  · obtain ⟨hpolls,_⟩ := require_bind_ok.mp hs
    rw [hm.polls] at hpolls
    exact absurd hpolls (lt_irrefl 0)

theorem silent_run {as : List (Action Thread)} (h : s.Inv input) (hm : s.Silent)
    (hs : (machine input).run s as = .ok s') : s'.Silent ∧ s'.returned = s.returned := by
  have hkeeps := (machine input).run_invariant
    (P := fun u => u.Inv input ∧ u.Silent ∧ u.returned = s.returned) (fun u a v hu hstep => ?_)
    ⟨h,hm,rfl⟩ hs
  · exact hkeeps.2
  · obtain ⟨hsilent,hreturned⟩ := silent_step hu.1 hu.2.1 hstep
    exact ⟨inv_step hu.1 hstep,hsilent,hreturned.trans hu.2.2⟩

/-! One call with nobody else about. -/

/-- The character a call gets when it is served next. -/
def State.next (s : State Thread) : Byte := s.device.input.headD EOF

/-- The poll finds what is next and the call takes it. -/
theorem round (h : s.Inv input) (hfree : s.guard.Free) (hm : s.Polling) (t : Thread) :
    ∃ s', (machine input).run s [.interrupt true,.call t,.setHolder t,.P t,.getChar t,.release t]
        = .ok s' ∧ s'.guard.Free ∧ s'.guard.value = 0 ∧ s'.returned = s.returned ++ [s.next] ∧
      s'.device = ⟨EOF,s.device.input.tail,if s.next = EOF then 0 else 1⟩ := by
  obtain ⟨hguard,hone⟩ := Guard.V_spec h.guard hm.guard.1
  obtain ⟨g₁,g₂,g₃,g₄,g₅,g₆,h₁,h₂,h₃,h₄,h₅,h₆,hfree₆,hvalue⟩ :=
    hguard.call_free hfree (by rw [hone]; decide) t
  have hvalue : g₆.value = 0 := by
    rw [hvalue,hone]
    rfl
  -- the sections of the call after the interrupt, for whatever it left in the device
  have hcall : ∀ device taken ended,
      (machine input).run ⟨s.guard.V,device,taken,s.returned,ended⟩
        [.call t,.setHolder t,.P t,.getChar t,.release t] =
      .ok ⟨g₆,device.GetChar.2,taken,s.returned ++ [device.GetChar.1],ended⟩ := by
    intro device taken ended
    simp only [Machine.run,machine,step,h₁,h₂,h₃,h₄,h₅,h₆,bind,Except.bind,pure,Except.pure]
  cases hinput : s.device.input with
  | nil =>
    refine ⟨_,bind_ok.mpr ⟨_,interrupt_end hm hinput,hcall _ _ _⟩,hfree₆,hvalue,?_,?_⟩
    · simp [State.next,hinput,ConsoleInput.GetChar]
    · simp [State.next,hinput,ConsoleInput.GetChar]
  | cons ch rest =>
    refine ⟨_,bind_ok.mpr ⟨_,interrupt_byte hm hinput,hcall _ _ _⟩,hfree₆,hvalue,?_,?_⟩
    · simp [State.next,hinput,ConsoleInput.GetChar]
    · by_cases hc : ch = EOF <;> simp [State.next,hinput,ConsoleInput.GetChar,hc]

omit [DecidableEq Thread] in
/-- With the lock free and the semaphore at zero, the device polls or nothing will arrive. -/
theorem State.Inv.mode_of_free (h : s.Inv input) (hfree : s.guard.Free)
    (hvalue : s.guard.value = 0) :
    (0 < s.device.polls → s.Polling) ∧ (s.device.polls = 0 → s.Silent) := by
  refine ⟨h.polling,fun hpolls => ?_⟩
  rcases h.mode with hm | hm | hm
  · cases hm.polls.symm.trans hpolls
  · rcases hm.guard with ⟨hone,_⟩ | ⟨_,t,ht⟩
    · cases hone.symm.trans hvalue
    · cases ht.symm.trans (h.guard.entered_of_free hfree t)
  · exact hm

/-! The console of the system calls is this device with one caller at a time. -/

structure Represents (s : State Thread) (console : Console) : Prop where
  free : s.guard.Free
  input : s.device.input = console.input
  polling : console.ended = false → s.Polling
  silent : console.ended = true → s.Silent

theorem GetChar_refines {k k' : Kernel} {c : Byte} (h : s.Inv input)
    (hr : Represents s k.console) (hk : k.GetChar = .ok (c,k')) (t : Thread) :
    ∃ s', (machine input).run s [.interrupt true,.call t,.setHolder t,.P t,.getChar t,.release t]
        = .ok s' ∧ s'.returned = s.returned ++ [c] ∧ Represents s' k'.console := by
  unfold Kernel.GetChar at hk
  split at hk
  · cases hk
  · next hended =>
    have hm := hr.polling (by simpa using hended)
    obtain ⟨s',hrun,hfree,hvalue,hreturned,hdevice⟩ := round h hr.free hm t
    obtain ⟨hpolling,hsilent⟩ := (inv_run h hrun).mode_of_free hfree hvalue
    rw [hdevice] at hpolling hsilent
    split at hk
    · next hinput =>
      cases hk
      have hnext : s.next = EOF := by rw [State.next,hr.input,hinput]; rfl
      simp only [hnext,if_true] at hpolling hsilent hdevice
      refine ⟨s',hrun,by rw [hreturned,hnext],hfree,?_,nofun,fun _ => hsilent trivial⟩
      rw [hdevice,hr.input,hinput]
      rfl
    · next _ rest hinput =>
      cases hk
      have hnext : s.next = c := by rw [State.next,hr.input,hinput]; rfl
      simp only [hnext] at hpolling hsilent hdevice
      refine ⟨s',hrun,by rw [hreturned,hnext],hfree,?_,fun he => ?_,fun he => ?_⟩
      · rw [hdevice,hr.input,hinput]
        rfl
      · simp only [beq_eq_false_iff_ne] at he
        exact hpolling (by simp [he])
      · simp only [beq_iff_eq] at he
        exact hsilent (by simp [he])

/-- Once the console is at its end, nobody gets another character: the caller waits. -/
theorem GetChar_blocks {k : Kernel} {e : Fault} (h : s.Inv input) (hr : Represents s k.console)
    (hk : k.GetChar = .error e) {as : List (Action Thread)}
    (hs : (machine input).run s as = .ok s') : s'.returned = s.returned := by
  unfold Kernel.GetChar at hk
  split at hk
  · next hended => exact (silent_run h (hr.silent hended) hs).2
  · split at hk <;> cases hk

omit [DecidableEq Thread] in
theorem represents_new (input output : List Byte) :
    Represents (new input : State Thread) ⟨input,false,output⟩ := by
  refine ⟨fun _ => rfl,rfl,fun _ => ?_,nofun⟩
  exact (inv_initial input).polling Nat.one_pos

/-! Delivery. -/

/-- What is expected of the console while it is used: no assertion fails, the characters
returned are the bytes of the input in order, and until its end either the device polls or
a byte is buffered. -/
structure State.Delivers (input : List Byte) (s : State Thread) : Prop where
  assertion : ∀ a, step s a ≠ .error .assertion
  ordered : s.ended = false → s.returned <+: input
  all : s.ended = true → s.returned = input ∨ s.returned = input ++ [EOF]
  arrives : s.ended = false → Xor (0 < s.device.polls) (s.device.incoming ≠ EOF)

theorem State.Inv.step_not_assertion (h : s.Inv input) (a : Action Thread) :
    step s a ≠ .error .assertion := by
  cases a with
  | call t => exact bind_pure_assertion.not.mpr (h.guard.not_assertion t).1
  | resume t => exact bind_pure_assertion.not.mpr (h.guard.not_assertion t).2.1
  | setHolder t => exact bind_pure_assertion.not.mpr (h.guard.not_assertion t).2.2.1
  | P t =>
    intro hs
    rcases bind_assertion.mp hs with hs | ⟨g₁,hbefore,hs⟩
    · exact (h.guard.not_assertion t).2.2.2.1 hs
    · have hinv := (Guard.before_spec h.guard hbefore).1
      exact bind_pure_assertion.not.mpr (hinv.not_assertion t).2.2.2.2.1 hs
  | resumeP t => exact bind_pure_assertion.not.mpr (h.guard.not_assertion t).2.2.2.2.2.1
  | getChar t => exact bind_pure_assertion.not.mpr (h.guard.not_assertion t).2.2.2.2.2.2.1
  | release t => exact bind_pure_assertion.not.mpr (h.guard.not_assertion t).2.2.2.2.2.2.2
  | interrupt ready =>
    intro hs
    have hpolls := (require_bind_assertion.mp hs).1
    have hm := h.polling hpolls
    cases ready with
    | false =>
      rw [step,interrupt_false hm] at hs
      cases hs
    | true =>
      cases hinput : s.device.input with
      | nil =>
        rw [step,interrupt_end hm hinput] at hs
        cases hs
      | cons ch rest =>
        rw [step,interrupt_byte hm hinput] at hs
        cases hs

omit [DecidableEq Thread] in
/-- What was returned before the end is what was read, up to the byte in the buffer. -/
theorem State.Inv.returned_prefix (h : s.Inv input) (he : s.ended = false) :
    s.returned <+: input := by
  rw [← h.input]
  rcases h.mode with hm | hm | hm
  · rw [hm.returned]
    exact List.prefix_append _ _
  · rcases hm.announced with ⟨_,_,htaken⟩ | ⟨hended,_⟩
    · rw [htaken,List.append_assoc]
      exact List.prefix_append _ _
    · cases he.symm.trans hended
  · rcases hm.announced with ⟨_,_,hreturned⟩ | ⟨hended,_⟩
    · rw [hreturned]
      exact List.prefix_append _ _
    · cases he.symm.trans hended

omit [DecidableEq Thread] in
/-- The end is announced when the whole input was returned. -/
theorem State.Inv.returned_all (h : s.Inv input) (he : s.ended = true) :
    EOF ∉ s.taken ∧ (s.returned = input ∨ s.returned = input ++ [EOF]) := by
  rw [← h.input]
  rcases h.mode with hm | hm | hm
  · cases he.symm.trans hm.ended
  · rcases hm.announced with ⟨hended,_⟩ | ⟨_,_,hinput,htaken,hreturned⟩
    · cases he.symm.trans hended
    · rw [hinput,hreturned,List.append_nil]
      exact ⟨htaken,Or.inl rfl⟩
  · rcases hm.announced with ⟨hended,_⟩ | ⟨_,hinput,htaken,hreturned⟩
    · cases he.symm.trans hended
    · rw [hinput,hreturned,List.append_nil]
      exact ⟨htaken,Or.inr rfl⟩

omit [DecidableEq Thread] in
/-- The device keeps running until it reads a byte that is EOF as a `char`. -/
theorem State.Inv.arrives_iff (h : s.Inv input) (he : s.ended = false) :
    Xor (0 < s.device.polls) (s.device.incoming ≠ EOF) ↔ EOF ∉ s.taken := by
  rcases h.mode with hm | hm | hm
  · simp [Xor,hm.polls,hm.incoming,hm.taken]
  · rcases hm.announced with ⟨_,hreturned,htaken⟩ | ⟨hended,_⟩
    · simp [Xor,hm.polls,htaken,hreturned,eq_comm]
    · cases he.symm.trans hended
  · rcases hm.announced with ⟨_,htaken,_⟩ | ⟨hended,_⟩
    · simp [Xor,hm.polls,hm.incoming,htaken]
    · cases he.symm.trans hended

/-- A state is as expected as long as no byte read was taken for the end of the input. -/
theorem State.Inv.delivers_iff (h : s.Inv input) : s.Delivers input ↔ EOF ∉ s.taken := by
  constructor
  · intro hd
    cases he : s.ended with
    | false => exact (h.arrives_iff he).mp (hd.arrives he)
    | true => exact (h.returned_all he).1
  · intro ht
    exact ⟨h.step_not_assertion,h.returned_prefix,fun he => (h.returned_all he).2,
      fun he => (h.arrives_iff he).mpr ht⟩

/-- Calls one after the other read the input up to a byte that is EOF as a `char`. -/
theorem reads_up_to {pre rest : List Byte} (hpre : EOF ∉ pre) (h : s.Inv input)
    (hfree : s.guard.Free) (hm : s.Polling) (hinput : s.device.input = pre ++ rest) (t : Thread) :
    ∃ as s', (machine input).run s as = .ok s' ∧ s'.Polling ∧ s'.device.input = rest := by
  induction pre generalizing s with
  | nil => exact ⟨[],s,rfl,hm,hinput⟩
  | cons ch pre ih =>
    have hch : ch ≠ EOF := fun he => hpre (by simp [he])
    have hnext : s.next = ch := by rw [State.next,hinput]; rfl
    obtain ⟨s₁,hrun,hfree₁,hvalue₁,_,hdevice⟩ := round h hfree hm t
    have hinv₁ := inv_run h hrun
    rw [hinput,hnext,if_neg hch] at hdevice
    have hm₁ := (hinv₁.mode_of_free hfree₁ hvalue₁).1 (by simp [hdevice])
    obtain ⟨as,s',hrun',hm',hinput'⟩ := ih (fun hp => hpre (List.mem_cons_of_mem _ hp)) hinv₁
      hfree₁ hm₁ (by simp [hdevice])
    exact ⟨_ ++ as,s',(machine input).run_append_ok.mpr ⟨s₁,hrun,hrun'⟩,hm',hinput'⟩

/-- The console delivers an input to any number of threads, in every interleaving with its
interrupts, exactly if no byte of it is EOF as a `char`. -/
theorem input_delivered_iff [Nonempty Thread] (input : List Byte) :
    (∀ s : State Thread, (machine input).Reachable s → s.Delivers input) ↔ EOF ∉ input := by
  constructor
  · intro hd hmem
    obtain ⟨pre,rest,hinput,hpre⟩ := List.eq_append_cons_of_mem hmem
    obtain ⟨t⟩ := ‹Nonempty Thread›
    have hnew : (new input : State Thread).Inv input := inv_initial input
    obtain ⟨as,s,hrun,hm,hrest⟩ := reads_up_to hpre hnew (fun _ => rfl)
      (hnew.polling Nat.one_pos) hinput t
    have hs := StateMachine.Machine.Reachable.run (.start rfl) hrun
    have hread : (machine input).step s (.interrupt true) = .ok _ := interrupt_byte hm hrest
    have hs' := StateMachine.Machine.Reachable.step hs hread
    exact (reachable_inv hs').delivers_iff.mp (hd _ hs') (by simp)
  · intro hinput s h
    have hinv := reachable_inv h
    refine hinv.delivers_iff.mpr fun ht => hinput ?_
    rw [← hinv.input]
    exact List.mem_append_left _ ht

/-- After the first of two bytes has been read. -/
theorem input_delivered_iff_hi : ∃ s : State (Fin 2), (machine [72#8,105#8]).run
      (new [72#8,105#8]) [.interrupt true,.call 0,.setHolder 0,.P 0,.getChar 0,.release 0] = .ok s ∧
    s.returned = [72#8] ∧ s.Delivers [72#8,105#8] := by
  refine ⟨_,rfl,rfl,(input_delivered_iff [72#8,105#8]).mpr (by decide) _ ?_⟩
  exact StateMachine.Machine.Reachable.run (.start rfl)
    (show (machine [72#8,105#8]).run (new [72#8,105#8])
      [.interrupt true,.call 0,.setHolder 0,.P 0,.getChar 0,.release 0] = .ok _ from rfl)

/-- The byte 255 is returned, but the device takes it for an empty buffer and does not poll
again: the byte after it never arrives. -/
theorem input_stops_at_255 : ∃ s : State (Fin 1), (machine [255#8,65#8]).run (new [255#8,65#8])
      [.interrupt true,.call 0,.setHolder 0,.P 0,.getChar 0,.release 0] = .ok s ∧
    s.returned = [255#8] ∧ s.device.input = [65#8] ∧ s.ended = false ∧ s.device.polls = 0 ∧
    s.device.incoming = EOF ∧ ∀ ready, step s (.interrupt ready) = .error .blocked :=
  ⟨_,rfl,rfl,rfl,rfl,rfl,rfl,fun _ => rfl⟩

end SynchConsoleInput
end NachOS
