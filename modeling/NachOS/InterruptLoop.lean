import NachOS.Interrupt

/-! The loop of `CheckIfDue` when the interrupt handlers schedule further interrupts, as the
polling devices do from their callbacks.  A handler is any finite sequence of what handlers
may do, and the handlers of one call of `CheckIfDue` are a sequence without end. -/
namespace NachOS
namespace Interrupt

open StateMachine Memory
open Scheduler (IntStatus)

/-- The devices whose callbacks schedule their next interrupt; the timer may do so at
random. -/
inductive Periodic
  | timer (randomize : Bool)
  | consoleInput
  | networkInput
  deriving DecidableEq

/-- `random` is the value of `RandomNumber()`. -/
def Periodic.delay (random : ℕ) : Periodic → ℤ
  | .timer false => TimerTicks
  | .timer true => 1 + random % (TimerTicks * 2)
  | .consoleInput => ConsoleTime
  | .networkInput => NetworkTime

def Periodic.type : Periodic → IntType
  | .timer _ => .timerInt
  | .consoleInput => .consoleReadInt
  | .networkInput => .networkRecvInt

/-- What the callback of a device does to the interrupts when it has nothing to report. -/
def Periodic.CallBack (random : ℕ) (d : Periodic) : List (Action Periodic) :=
  [.schedule d (d.delay random) d.type]

variable {Device : Type} [DecidableEq Device] {s t : State Device}

/-- What an interrupt handler may do, with a positive delay. -/
def Handles : Action Device → Prop
  | .schedule _ fromNow _ => 0 < fromNow
  | .setLevel now => now = .intOff
  | .yieldOnReturn => True
  | _ => False

theorem Periodic.handles (random : ℕ) (d : Periodic) : ∀ a ∈ d.CallBack random, Handles a := by
  intro a ha
  obtain rfl := List.mem_singleton.mp ha
  cases d with
  | timer randomize =>
    cases randomize with
    | false => exact (by decide : (0 : ℤ) < 100)
    | true =>
      have hrandom : (0 : ℤ) ≤ random % (100 * 2) := Int.emod_nonneg _ (by norm_num)
      exact (by omega : (0 : ℤ) < 1 + random % (100 * 2))
  | consoleInput => exact (by decide : (0 : ℤ) < 100)
  | networkInput => exact (by decide : (0 : ℤ) < 100)

/-- The body of the loop and its condition; `handler` is what the handler does. -/
def pass (s : State Device) (handler : List (Action Device)) : Except Fault (State Device) := do
  let called ← step s .deliver
  let handled ← machine.run called handler
  step handled .handlerReturns

/-- The loop of `CheckIfDue`, from the start of its body to the return; `none` if it has not
returned after `fuel` passes. -/
def deliveryLoop : ℕ → (ℕ → List (Action Device)) → State Device →
    Except Fault (Option (State Device))
  | 0,_,_ => return none
  | fuel + 1,handlers,s => do
    let t ← pass s (handlers 0)
    match t.control with
    | .loop _ => deliveryLoop fuel (fun n => handlers (n + 1)) t
    | _ => return some t

/-- The time for which the interrupt is scheduled is an `int`. -/
def ScheduledInRange (s : State Device) : Action Device → Prop
  | .schedule _ fromNow _ => s.stats.totalTicks + fromNow < 2 ^ 31
  | _ => True

/-! What holds in every state, whatever the clock does. -/

structure Loop (s : State Device) : Prop where
  clock : -2 ^ 31 ≤ s.stats.totalTicks ∧ s.stats.totalTicks < 2 ^ 31
  times : ∀ p ∈ s.pending, -2 ^ 31 ≤ p.when ∧ p.when < 2 ^ 31
  fresh : ∀ p ∈ s.pending, p.id < s.scheduled
  handling : s.control ≠ .running → s.inHandler = true
  due : Due s

/-- The interrupts that are due. -/
def dueNow (s : State Device) : ℕ := s.pending.countP (fun p => p.when ≤ s.stats.totalTicks)

theorem Loop.schedule {toCall : Device} {fromNow : ℤ} {type : IntType} (hs : Loop s)
    (hnot : ∀ caller, s.control ≠ .loop caller)
    (h : s.Schedule toCall fromNow type = .ok t) : Loop t := by
  obtain ⟨_,rfl⟩ := Schedule_ok h
  have hmem := fun p => (KernelList.insertBehind_perm PendingCompare
    ⟨s.scheduled,toCall,wrap (s.stats.totalTicks + fromNow),type⟩ s.pending).mem_iff (a := p)
  constructor
  · exact hs.clock
  · intro p hp
    rcases List.mem_cons.mp ((hmem p).mp hp) with rfl | hp
    · exact wrap_range _
    · exact hs.times p hp
  · intro p hp
    rcases List.mem_cons.mp ((hmem p).mp hp) with rfl | hp
    · exact Nat.lt_succ_self _
    · exact Nat.lt_succ_of_lt (hs.fresh p hp)
  · exact hs.handling
  · exact due_of_not_loop hnot

omit [DecidableEq Device] in
/-- Steps that change neither the interrupts nor the clock. -/
theorem Loop.of_same (hs : Loop s) (hq : SameQueue s t) (hstats : t.stats = s.stats)
    (hhandling : t.control ≠ .running → t.inHandler = true) (hdue : Due t) : Loop t := by
  refine ⟨hstats ▸ hs.clock,?_,?_,hhandling,hdue⟩
  · rw [hq.pending]
    exact hs.times
  · rw [hq.pending,hq.scheduled]
    exact hs.fresh

omit [DecidableEq Device] in
theorem Loop.checked {fired : Bool} {caller : Caller} (hs : Loop s)
    (h : s.checked fired caller = .ok t) : Loop t := by
  obtain ⟨hq,hstats,hcontrol⟩ := checked_ok h
  exact hs.of_same hq hstats (fun hc => absurd hcontrol hc)
    (due_of_not_loop (by simp [hcontrol]))

omit [DecidableEq Device] in
theorem Loop.CheckIfDue {advanceClock : Bool} {caller : Caller} (hs : Loop s)
    (h : s.CheckIfDue advanceClock caller = .ok t) : Loop t := by
  obtain ⟨_,h⟩ := check_bind_ok.mp h
  split at h
  · exact hs.checked h
  · next first rest hpending =>
    split at h
    · next hlater =>
      split at h
      · exact hs.checked h
      · cases h
        exact ⟨hs.times first (by simp [hpending]),hs.times,hs.fresh,fun _ => rfl,
          fun _ _ => ⟨first,rest,hpending,le_refl _⟩⟩
    · next hdue =>
      cases h
      exact ⟨hs.clock,hs.times,hs.fresh,fun _ => rfl,
        fun _ _ => ⟨first,rest,hpending,not_lt.mp hdue⟩⟩

omit [DecidableEq Device] in
theorem Loop.OneTick (hs : Loop s) (hnot : ∀ caller, s.control ≠ .loop caller)
    (h : s.OneTick = .ok t) : Loop t := by
  refine Loop.CheckIfDue (s := { s.tick with level := .intOff }) ?_ h
  unfold State.tick
  split
  · exact ⟨wrap_range _,hs.times,hs.fresh,hs.handling,due_of_not_loop hnot⟩
  · exact ⟨wrap_range _,hs.times,hs.fresh,hs.handling,due_of_not_loop hnot⟩

omit [DecidableEq Device] in
theorem Loop.SetLevel {now : IntStatus} (hs : Loop s) (hnot : ∀ caller, s.control ≠ .loop caller)
    (h : s.SetLevel now = .ok t) : Loop t := by
  obtain ⟨_,h⟩ := check_bind_ok.mp h
  have hs' : Loop { s with level := now } :=
    hs.of_same ⟨rfl,rfl,rfl⟩ rfl hs.handling (due_of_not_loop hnot)
  split at h
  · exact Loop.OneTick hs' hnot h
  · cases h
    exact hs'

omit [DecidableEq Device] in
theorem Loop.deliver {caller : Caller} (hs : Loop s) (hcontrol : s.control = .loop caller)
    (h : s.deliver caller = .ok t) : Loop t := by
  obtain ⟨p,rest,hpending,_⟩ := hs.due caller hcontrol
  have htimes := hs.times
  have hfresh := hs.fresh
  unfold State.deliver at h
  rw [hpending] at h htimes hfresh
  cases h
  exact ⟨hs.clock,fun q hq => htimes q (List.mem_cons_of_mem p hq),
    fun q hq => hfresh q (List.mem_cons_of_mem p hq),
    fun _ => hs.handling (by simp [hcontrol]),fun _ hc => by cases hc⟩

omit [DecidableEq Device] in
theorem Loop.handlerReturns {caller : Caller} (hs : Loop s) (hcontrol : s.control = .handler caller)
    (h : s.handlerReturns caller = .ok t) : Loop t := by
  have hdone : State.checked { s with inHandler := false } true caller = .ok t → Loop t := by
    intro h
    obtain ⟨hq,hstats,hrunning⟩ := checked_ok h
    exact hs.of_same ⟨hq.pending,hq.scheduled,hq.delivered⟩ hstats
      (fun hc => absurd hrunning hc) (due_of_not_loop (by simp [hrunning]))
  unfold State.handlerReturns at h
  split at h
  · exact hdone h
  · next first rest hpending =>
    split at h
    · next hdue =>
      cases h
      exact hs.of_same ⟨rfl,rfl,rfl⟩ rfl (fun _ => hs.handling (by simp [hcontrol]))
        (fun _ _ => ⟨first,rest,hpending,hdue⟩)
    · exact hdone h

theorem Loop.step {a : Action Device} (hs : Loop s) (h : step s a = .ok t) : Loop t := by
  cases step_runs h with
  | schedule hnot h => exact hs.schedule hnot h
  | oneTick hcontrol h => exact hs.OneTick (by simp [hcontrol]) h
  | idle hcontrol h =>
    exact Loop.CheckIfDue (s := { s with status := .idleMode })
      (hs.of_same ⟨rfl,rfl,rfl⟩ rfl hs.handling (due_of_not_loop (by simp [hcontrol]))) h
  | setLevel hnot h => exact hs.SetLevel hnot h
  | setStatus hcontrol =>
    exact hs.of_same ⟨rfl,rfl,rfl⟩ rfl hs.handling (due_of_not_loop (by simp [hcontrol]))
  | resumes hcontrol =>
    exact hs.of_same ⟨rfl,rfl,rfl⟩ rfl hs.handling (due_of_not_loop (by simp [hcontrol]))
  | deliver hcontrol h => exact hs.deliver hcontrol h
  | yieldOnReturn hnot =>
    exact hs.of_same ⟨rfl,rfl,rfl⟩ rfl hs.handling (due_of_not_loop hnot)
  | handlerReturns hcontrol h => exact hs.handlerReturns hcontrol h

theorem loop_of_reachable (h : machine.Reachable s) : Loop s := by
  apply Machine.Reachable.invariant _ _ h
  · rintro s rfl
    exact ⟨by simp [State.new],by simp [State.new],by simp [State.new],fun hc => absurd rfl hc,
      due_of_not_loop (by simp [State.new])⟩
  · intro s a t hs ht
    exact hs.step ht

/-! Handlers that schedule in range make no further interrupt due, so that every pass of the
loop leaves fewer. -/

/-- A state in the same handler, at the same time and with the same interrupts due. -/
structure SameDue (s t : State Device) : Prop where
  control : t.control = s.control
  stats : t.stats = s.stats
  due : dueNow t = dueNow s

theorem schedule_sameDue {toCall : Device} {fromNow : ℤ} {type : IntType} (hs : Loop s)
    (hpos : 0 < fromNow) (hrange : s.stats.totalTicks + fromNow < 2 ^ 31) :
    ∃ t, s.Schedule toCall fromNow type = .ok t ∧ SameDue s t := by
  have hlow := hs.clock.1
  have hwhen : wrap (s.stats.totalTicks + fromNow) = s.stats.totalTicks + fromNow :=
    wrap_of_range (by omega) hrange
  let p : PendingInterrupt Device :=
    ⟨s.scheduled,toCall,wrap (s.stats.totalTicks + fromNow),type⟩
  have hnew : p ∉ s.pending := fun hp => lt_irrefl _ (hs.fresh p hp)
  have hinsert : KernelList.insert PendingCompare s.pending p =
      .ok (KernelList.insertBehind PendingCompare p s.pending) :=
    KernelList.insert_ok.mpr ⟨hnew,rfl⟩
  refine ⟨_,check_bind_ok.mpr ⟨hpos,bind_ok.mpr ⟨_,hinsert,rfl⟩⟩,rfl,rfl,?_⟩
  unfold dueNow
  rw [(KernelList.insertBehind_perm PendingCompare p s.pending).countP_eq,List.countP_cons]
  simp [p,hwhen,hpos]

theorem handler_sameDue {caller : Caller} {handler : List (Action Device)} (hs : Loop s)
    (hcontrol : s.control = .handler caller)
    (hhandler : ∀ a ∈ handler, Handles a ∧ ScheduledInRange s a) :
    ∃ t, machine.run s handler = .ok t ∧ Loop t ∧ SameDue s t := by
  induction handler generalizing s with
  | nil => exact ⟨s,rfl,hs,rfl,rfl,rfl⟩
  | cons a as ih =>
    have hstep : ∃ m, step s a = .ok m ∧ SameDue s m := by
      obtain ⟨ha,hrange⟩ := hhandler a List.mem_cons_self
      cases a with
      | schedule toCall fromNow type =>
        simp only [step,hcontrol]
        exact schedule_sameDue hs ha hrange
      | setLevel now =>
        obtain rfl : now = .intOff := ha
        have hcode : step s (.setLevel .intOff) = s.SetLevel .intOff := by
          simp only [step,hcontrol]
        refine ⟨{ s with level := .intOff },hcode.trans ?_,rfl,rfl,rfl⟩
        exact check_bind_ok.mpr ⟨Or.inl rfl,by simp; rfl⟩
      | yieldOnReturn =>
        have hcode : step s .yieldOnReturn = s.YieldOnReturn := by simp only [step,hcontrol]
        refine ⟨{ s with yieldOnReturn := true },hcode.trans ?_,rfl,rfl,rfl⟩
        exact check_bind_ok.mpr ⟨hs.handling (by simp [hcontrol]),rfl⟩
      | oneTick | idle | setStatus | resumes | deliver | handlerReturns => cases ha
    obtain ⟨m,hm,hcm,hsm,hdm⟩ := hstep
    have hrest : ∀ b ∈ as, Handles b ∧ ScheduledInRange m b := by
      intro b hb
      obtain ⟨hb,hrange⟩ := hhandler b (List.mem_cons_of_mem a hb)
      refine ⟨hb,?_⟩
      unfold ScheduledInRange at hrange ⊢
      rw [hsm]
      exact hrange
    obtain ⟨t,ht,hloop,hct,hst,hdt⟩ := ih (hs.step hm) (hcm.trans hcontrol) hrest
    exact ⟨t,machine.run_cons_ok.mpr ⟨m,hm,ht⟩,hloop,hct.trans hcm,hst.trans hsm,hdt.trans hdm⟩

/-- One pass delivers one interrupt that was due. -/
theorem pass_ok {caller : Caller} {handler : List (Action Device)} (hs : Loop s)
    (hcontrol : s.control = .loop caller)
    (hhandler : ∀ a ∈ handler, Handles a ∧ ScheduledInRange s a) :
    ∃ t, pass s handler = .ok t ∧ Loop t ∧ t.stats = s.stats ∧ dueNow t < dueNow s ∧
      (t.control = .loop caller ∨ t.control = .running) := by
  obtain ⟨p,rest,hpending,hdue⟩ := hs.due caller hcontrol
  let called : State Device := { s with
    pending := rest
    delivered := s.delivered ++ [(p,s.stats.totalTicks)]
    control := .handler caller }
  have hcalled : step s .deliver = .ok called := by
    simp only [step,hcontrol,State.deliver,hpending]
    rfl
  have hfewer : dueNow called < dueNow s := by
    unfold dueNow
    simp [called,hpending,hdue]
  have hin : called.control = .handler caller := rfl
  obtain ⟨handled,hrun,hloop,hc,hst,hd⟩ := handler_sameDue (hs.step hcalled) hin hhandler
  have hreturned : ∃ t, step handled .handlerReturns = .ok t ∧ t.stats = handled.stats ∧
      dueNow t = dueNow handled ∧ (t.control = .loop caller ∨ t.control = .running) := by
    have hchecked : ∃ t, State.checked { handled with inHandler := false } true caller = .ok t ∧
        t.stats = handled.stats ∧ dueNow t = dueNow handled ∧ t.control = .running := by
      cases caller with
      | oneTick oldStatus =>
        simp only [State.checked]
        split
        · exact ⟨_,rfl,rfl,rfl,rfl⟩
        · exact ⟨_,rfl,rfl,rfl,rfl⟩
      | idle => exact ⟨_,rfl,rfl,rfl,rfl⟩
    obtain ⟨t,ht,hst,hdt,hct⟩ := hchecked
    simp only [step,hc,called,State.handlerReturns]
    split
    · exact ⟨t,ht,hst,hdt,Or.inr hct⟩
    · split
      · exact ⟨_,rfl,rfl,rfl,Or.inl rfl⟩
      · exact ⟨t,ht,hst,hdt,Or.inr hct⟩
  obtain ⟨t,ht,hst',hdt,hct⟩ := hreturned
  refine ⟨t,bind_ok.mpr ⟨called,hcalled,bind_ok.mpr ⟨handled,hrun,ht⟩⟩,hloop.step ht,
    hst'.trans hst,?_,hct⟩
  rw [hdt,hd]
  exact hfewer

theorem deliveryLoop_ok {caller : Caller} (n : ℕ) (hs : Loop s)
    (hcontrol : s.control = .loop caller) (hn : dueNow s ≤ n)
    {handlers : ℕ → List (Action Device)}
    (hhandlers : ∀ k, ∀ a ∈ handlers k, Handles a ∧ ScheduledInRange s a) :
    ∃ t, deliveryLoop n handlers s = .ok (some t) ∧ t.control = .running := by
  induction n generalizing s handlers with
  | zero =>
    obtain ⟨m,_,_,_,hfewer,_⟩ := pass_ok hs hcontrol (hhandlers 0)
    omega
  | succ n ih =>
    obtain ⟨m,hm,hloop,hst,hfewer,hc⟩ := pass_ok hs hcontrol (hhandlers 0)
    rcases hc with hc | hc
    · have hrest : ∀ k, ∀ a ∈ handlers (k + 1), Handles a ∧ ScheduledInRange m a := by
        intro k a ha
        obtain ⟨ha,hrange⟩ := hhandlers (k + 1) a ha
        refine ⟨ha,?_⟩
        unfold ScheduledInRange at hrange ⊢
        rw [hst]
        exact hrange
      obtain ⟨t,ht,hrunning⟩ := ih hloop hc (by omega) hrest
      refine ⟨t,bind_ok.mpr ⟨m,hm,?_⟩,hrunning⟩
      simp only [hc]
      exact ht
    · refine ⟨m,bind_ok.mpr ⟨m,hm,?_⟩,hc⟩
      simp only [hc]
      rfl

/-- From every state at the start of the loop that a run can reach, the loop returns if its
handlers schedule interrupts for times that are `int`s. -/
theorem checkIfDue_returns (h : machine.Reachable s) {caller : Caller}
    (hcontrol : s.control = .loop caller) {handlers : ℕ → List (Action Device)}
    (hhandlers : ∀ k, ∀ a ∈ handlers k, Handles a ∧ ScheduledInRange s a) :
    ∃ fuel t, deliveryLoop fuel handlers s = .ok (some t) ∧ t.control = .running :=
  ⟨dueNow s,deliveryLoop_ok (dueNow s) (loop_of_reachable h) hcontrol (le_refl _) hhandlers⟩

/-- A machine that waits for input: `n` times it idles until the console polls again. -/
def waiting : ℕ → List (Action Periodic)
  | 0 => [.schedule .consoleInput ConsoleTime .consoleReadInt]
  | n + 1 => waiting n ++
    (.idle :: .deliver :: Periodic.consoleInput.CallBack 0 ++ [.handlerReturns])

/-- The machine after `n` polls. -/
def polled (n : ℕ) (delivered : List (PendingInterrupt Periodic × ℤ)) : State Periodic :=
  { (State.new : State Periodic) with
    pending := [⟨n,.consoleInput,100 * (n + 1),.consoleReadInt⟩]
    stats := ⟨100 * n,100 * n,0,0⟩
    scheduled := n + 1
    delivered := delivered }

/-- The machine when the next poll is due. -/
def pollDue (n : ℕ) (delivered : List (PendingInterrupt Periodic × ℤ)) : State Periodic :=
  { polled n delivered with
    status := .idleMode
    inHandler := true
    stats := ⟨100 * (n + 1),100 * (n + 1),0,0⟩
    control := .loop .idle }

/-- The console polls and finds nothing. -/
theorem checkIfDue_returns_poll : ∃ s : State Periodic, machine.Reachable s ∧
    s.control = .loop .idle ∧ ∃ fuel t,
      deliveryLoop fuel (fun _ => Periodic.consoleInput.CallBack 0) s = .ok (some t) ∧
      t.control = .running := by
  have hrun : machine.run State.new
      [.schedule .consoleInput ConsoleTime .consoleReadInt,.idle] = .ok (pollDue 0 []) := rfl
  have hreach : machine.Reachable (pollDue 0 []) := (Machine.Reachable.start rfl).run hrun
  refine ⟨pollDue 0 [],hreach,rfl,checkIfDue_returns hreach rfl ?_⟩
  intro k a ha
  refine ⟨Periodic.handles 0 .consoleInput a ha,?_⟩
  obtain rfl := List.mem_singleton.mp ha
  exact (by decide : (100 : ℤ) * (0 + 1) + 100 < 2 ^ 31)

theorem polled_idle (n : ℕ) (delivered : List (PendingInterrupt Periodic × ℤ))
    (hn : (100 : ℤ) * (n + 1) < 2 ^ 31) :
    step (polled n delivered) .idle = .ok (pollDue n delivered) := by
  have hgap : wrap ((100 : ℤ) * (n + 1) - 100 * n) = 100 := by
    rw [show (100 : ℤ) * (n + 1) - 100 * n = 100 by ring]
    rfl
  have hidle : wrap ((100 : ℤ) * n + 100) = 100 * (n + 1) := by
    rw [show (100 : ℤ) * n + 100 = 100 * (n + 1) by ring]
    exact wrap_of_range (by omega) hn
  simp [step,polled,pollDue,State.new,State.Idle,State.CheckIfDue,State.skipTo,hgap,hidle,
    bind,Except.bind,pure,Except.pure]

theorem run_waiting (n : ℕ) (hn : (100 : ℤ) * (n + 1) < 2 ^ 31) :
    ∃ delivered, machine.run State.new (waiting n) = .ok (polled n delivered) := by
  induction n with
  | zero => exact ⟨[],rfl⟩
  | succ n ih =>
    push_cast at hn
    obtain ⟨delivered,hrun⟩ := ih (by omega)
    let p : PendingInterrupt Periodic := ⟨n,.consoleInput,100 * (n + 1),.consoleReadInt⟩
    have hidle := polled_idle n delivered (by omega)
    have hwhen : wrap ((100 : ℤ) * (n + 1) + 100) = 100 * (n + 1 + 1) := by
      rw [show (100 : ℤ) * (n + 1) + 100 = 100 * (n + 1 + 1) by ring]
      exact wrap_of_range (by omega) hn
    have hrest : machine.run (pollDue n delivered)
        (.deliver :: Periodic.consoleInput.CallBack 0 ++ [.handlerReturns]) =
        .ok (polled (n + 1) (delivered ++ [(p,(100 * (n + 1) : ℤ))])) := by
      simp [machine,Machine.run,step,pollDue,polled,State.new,State.deliver,State.Schedule,
        State.handlerReturns,State.checked,KernelList.removeFront,KernelList.insert,
        Periodic.CallBack,Periodic.delay,Periodic.type,hwhen,bind,Except.bind,pure,Except.pure,p]
    exact ⟨_,machine.run_append_ok.mpr ⟨_,hrun,machine.run_cons_ok.mpr ⟨_,hidle,hrest⟩⟩⟩

/-- When the next poll would be after the last `int`, it is scheduled for a time long past. -/
theorem deliveryLoop_polling (fuel : ℕ) {s : State Periodic} {p : PendingInterrupt Periodic}
    (hcontrol : s.control = .loop .idle)
    (hpending : s.pending = [p]) (hnow : s.stats.totalTicks = 2147483600) :
    deliveryLoop fuel (fun _ => Periodic.consoleInput.CallBack 0) s = .ok none := by
  induction fuel generalizing s p with
  | zero => rfl
  | succ fuel ih =>
    let called : State Periodic := { s with
      pending := []
      delivered := s.delivered ++ [(p,s.stats.totalTicks)]
      control := .handler .idle }
    let again : State Periodic := { called with
      pending := [⟨s.scheduled,.consoleInput,-2147483596,.consoleReadInt⟩]
      scheduled := s.scheduled + 1
      control := .loop .idle }
    have hdue : (-2147483596 : ℤ) ≤ s.stats.totalTicks := by omega
    have hwrap : wrap (s.stats.totalTicks + 100) = -2147483596 := by
      rw [hnow]
      rfl
    have hpass : pass s (Periodic.consoleInput.CallBack 0) = .ok again := by
      simp [pass,machine,Machine.run,step,hcontrol,hpending,State.deliver,State.Schedule,
        State.handlerReturns,KernelList.removeFront,KernelList.insert,Periodic.CallBack,
        Periodic.delay,Periodic.type,hwrap,hdue,bind,Except.bind,pure,Except.pure,again,called]
    unfold deliveryLoop
    rw [hpass]
    exact ih rfl rfl hnow

/-- A machine that waits for input long enough never leaves the loop again. -/
theorem checkIfDue_never_returns : ∃ s : State Periodic,
    machine.run State.new (waiting 21474835 ++ [.idle]) = .ok s ∧ s.control = .loop .idle ∧
    ∀ fuel, deliveryLoop fuel (fun _ => Periodic.consoleInput.CallBack 0) s = .ok none := by
  obtain ⟨delivered,hrun⟩ := run_waiting 21474835 (by norm_num)
  have hidle := polled_idle 21474835 delivered (by norm_num)
  refine ⟨pollDue 21474835 delivered,machine.run_append_ok.mpr ⟨_,hrun,?_⟩,rfl,fun fuel => ?_⟩
  · exact machine.run_cons_ok.mpr ⟨_,hidle,rfl⟩
  · apply deliveryLoop_polling fuel rfl rfl
    simp only [pollDue]
    norm_num

end Interrupt
end NachOS
