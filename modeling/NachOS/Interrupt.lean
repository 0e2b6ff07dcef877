import NachOS.Scheduler
import NachOS.Memory

/-! The simulation of hardware interrupts (machine/interrupt.cc): the clock, the list of
pending interrupts and the loop of `CheckIfDue` that delivers those that are due.  A step
ends where other code runs: at the call of an interrupt handler and at its return. -/
namespace NachOS
namespace Interrupt

open StateMachine Memory
open Scheduler (IntStatus)

inductive MachineStatus
  | idleMode | systemMode | userMode
  deriving DecidableEq, Repr

inductive IntType
  | timerInt | diskInt | consoleWriteInt | consoleReadInt | networkSendInt | networkRecvInt
  deriving DecidableEq, Repr

/-- The counters of `Statistics` that measure time. -/
structure Statistics where
  totalTicks : ℤ
  idleTicks : ℤ
  systemTicks : ℤ
  userTicks : ℤ

abbrev UserTick : ℤ := 1
abbrev SystemTick : ℤ := 10
abbrev ConsoleTime : ℤ := 100
abbrev NetworkTime : ℤ := 100
abbrev TimerTicks : ℤ := 100

/-- `id` tells one `PendingInterrupt` object from another; they are numbered as they are
scheduled. -/
structure PendingInterrupt (Device : Type) where
  id : ℕ
  callOnInterrupt : Device
  when : ℤ
  type : IntType
  deriving DecidableEq

variable {Device : Type} [DecidableEq Device]

def PendingCompare (x y : PendingInterrupt Device) : ℤ :=
  if x.when < y.when then -1 else if x.when > y.when then 1 else 0

/-- Who called `CheckIfDue`, with the local variable of `OneTick`. -/
inductive Caller
  | oneTick (oldStatus : MachineStatus)
  | idle

/-- `loop` is the start of the body of the loop in `CheckIfDue`, `handler` a handler that
the loop has called. -/
inductive Control
  | running
  | loop (caller : Caller)
  | handler (caller : Caller)

/-- `suspended` holds the local variable of each `OneTick` that has called `Yield`.
`scheduled` counts the interrupts scheduled so far, and `delivered` lists those whose
handlers were called, with the time; both are ghosts. -/
structure State (Device : Type) where
  level : IntStatus
  pending : List (PendingInterrupt Device)
  inHandler : Bool
  yieldOnReturn : Bool
  status : MachineStatus
  stats : Statistics
  control : Control
  suspended : List MachineStatus
  scheduled : ℕ
  delivered : List (PendingInterrupt Device × ℤ)

namespace State

def new : State Device where
  level := .intOff
  pending := []
  inHandler := false
  yieldOnReturn := false
  status := .systemMode
  stats := ⟨0,0,0,0⟩
  control := .running
  suspended := []
  scheduled := 0
  delivered := []

def Schedule (s : State Device) (toCall : Device) (fromNow : ℤ) (type : IntType) :
    Except Fault (State Device) := do
  let when := wrap (s.stats.totalTicks + fromNow)
  let toOccur : PendingInterrupt Device := ⟨s.scheduled,toCall,when,type⟩
  check (fromNow > 0)
  let pending ← KernelList.insert PendingCompare s.pending toOccur
  return { s with pending := pending,scheduled := s.scheduled + 1 }

/-- What is left of `OneTick` or `Idle` when `CheckIfDue` returns `fired`. -/
def checked (s : State Device) (fired : Bool) : Caller → Except Fault (State Device)
  | .oneTick oldStatus =>
    if s.yieldOnReturn then
      return { s with
        level := .intOn
        yieldOnReturn := false
        status := .systemMode
        suspended := oldStatus :: s.suspended
        control := .running }
    else
      return { s with level := .intOn,control := .running }
  | .idle =>
    if fired then return { s with status := .systemMode,control := .running }
    else .error .halted

/-- The clock moves on to the next interrupt. -/
def skipTo (s : State Device) (when : ℤ) : State Device :=
  { s with stats := { s.stats with
    idleTicks := wrap (s.stats.idleTicks + wrap (when - s.stats.totalTicks))
    totalTicks := when } }

/-- `CheckIfDue` up to its loop. -/
def CheckIfDue (s : State Device) (advanceClock : Bool) (caller : Caller) :
    Except Fault (State Device) := do
  check (s.level = .intOff)
  match s.pending with
  | [] => s.checked false caller
  | next :: _ =>
    if next.when > s.stats.totalTicks then
      if advanceClock = false then s.checked false caller
      else return { s.skipTo next.when with inHandler := true,control := .loop caller }
    else return { s with inHandler := true,control := .loop caller }

/-- `next = pending->RemoveFront(); next->callOnInterrupt->CallBack();` up to the call. -/
def deliver (s : State Device) (caller : Caller) : Except Fault (State Device) := do
  let (next,pending) ← KernelList.removeFront s.pending
  return { s with
    pending := pending
    delivered := s.delivered ++ [(next,s.stats.totalTicks)]
    control := .handler caller }

/-- The condition of the loop, after a handler returned. -/
def handlerReturns (s : State Device) (caller : Caller) : Except Fault (State Device) :=
  match s.pending with
  | [] => checked { s with inHandler := false } true caller
  | next :: _ =>
    if next.when ≤ s.stats.totalTicks then return { s with control := .loop caller }
    else checked { s with inHandler := false } true caller

/-- The time that `OneTick` adds, in the counter of the current mode. -/
def tick (s : State Device) : State Device :=
  if s.status = .systemMode then
    { s with stats := { s.stats with
      totalTicks := wrap (s.stats.totalTicks + SystemTick)
      systemTicks := wrap (s.stats.systemTicks + SystemTick) } }
  else
    { s with stats := { s.stats with
      totalTicks := wrap (s.stats.totalTicks + UserTick)
      userTicks := wrap (s.stats.userTicks + UserTick) } }

def tickLength (s : State Device) : ℤ :=
  if s.status = .systemMode then SystemTick else UserTick

def OneTick (s : State Device) : Except Fault (State Device) :=
  CheckIfDue { s.tick with level := .intOff } false (.oneTick s.status)

def Idle (s : State Device) : Except Fault (State Device) :=
  CheckIfDue { s with status := .idleMode } true .idle

def YieldOnReturn (s : State Device) : Except Fault (State Device) := do
  check (s.inHandler = true)
  return { s with yieldOnReturn := true }

def SetLevel (s : State Device) (now : IntStatus) : Except Fault (State Device) := do
  let old := s.level
  check (now = .intOff ∨ s.inHandler = false)
  let s := { s with level := now }
  if now = .intOn ∧ old = .intOff then s.OneTick else return s

end State

/-- `resumes` is the end of a `OneTick` that called `Yield`. -/
inductive Action (Device : Type)
  | schedule (toCall : Device) (fromNow : ℤ) (type : IntType)
  | oneTick
  | idle
  | setLevel (now : IntStatus)
  | setStatus (st : MachineStatus)
  | resumes (oldStatus : MachineStatus)
  | deliver
  | yieldOnReturn
  | handlerReturns

/-- A handler may schedule interrupts and change the level; between `loop` and `handler`
nothing else runs. -/
def step (s : State Device) (a : Action Device) : Except Fault (State Device) :=
  match s.control,a with
  | .running,.schedule toCall fromNow type => s.Schedule toCall fromNow type
  | .running,.oneTick => s.OneTick
  | .running,.idle => s.Idle
  | .running,.setLevel now => s.SetLevel now
  | .running,.setStatus st => return { s with status := st }
  | .running,.resumes oldStatus => do
    require (oldStatus ∈ s.suspended)
    return { s with status := oldStatus,suspended := s.suspended.erase oldStatus }
  | .loop caller,.deliver => s.deliver caller
  | .handler _,.schedule toCall fromNow type => s.Schedule toCall fromNow type
  | .handler _,.setLevel now => s.SetLevel now
  | .handler _,.yieldOnReturn => s.YieldOnReturn
  | .handler caller,.handlerReturns => s.handlerReturns caller
  | _,_ => .error .blocked

def machine : Machine (State Device) (Action Device) := ⟨fun s => s = .new,step⟩

/-- The step keeps tick values below `2 ^ 31`. -/
def InRange (s : State Device) : Action Device → Prop
  | .schedule _ fromNow _ => s.stats.totalTicks + fromNow < 2 ^ 31
  | .oneTick => s.stats.totalTicks + s.tickLength < 2 ^ 31
  | .setLevel now => now = .intOn → s.level = .intOff →
    s.stats.totalTicks + s.tickLength < 2 ^ 31
  | _ => True

instance (s : State Device) : ∀ a, Decidable (InRange s a)
  | .schedule _ _ _ => inferInstanceAs (Decidable (_ < _))
  | .oneTick => inferInstanceAs (Decidable (_ < _))
  | .setLevel _ => inferInstanceAs (Decidable (_ → _ → _))
  | .idle | .setStatus _ | .resumes _ | .deliver | .yieldOnReturn | .handlerReturns =>
    inferInstanceAs (Decidable True)

/-! The invariant. -/

/-- The order of delivery: by time, and by number for equal times. -/
def Before (p q : PendingInterrupt Device) : Prop :=
  p.when < q.when ∨ p.when = q.when ∧ p.id < q.id

structure Queue (pending : List (PendingInterrupt Device)) (scheduled : ℕ)
    (delivered : List (PendingInterrupt Device × ℤ)) : Prop where
  ordered : pending.Pairwise Before
  distinct : (pending.map (·.id)).Nodup
  fresh : ∀ p ∈ pending, p.id < scheduled
  pastFresh : ∀ d ∈ delivered, d.1.id < scheduled
  once : (delivered.map (·.1.id)).Nodup
  apart : ∀ d ∈ delivered, ∀ p ∈ pending, d.1.id ≠ p.id
  onTime : ∀ d ∈ delivered, d.1.when ≤ d.2
  below : ∀ p ∈ pending, p.when < 2 ^ 31

structure Clock (c : Statistics) : Prop where
  idle : 0 ≤ c.idleTicks
  system : 0 ≤ c.systemTicks
  user : 0 ≤ c.userTicks
  below : c.totalTicks < 2 ^ 31
  accounted : c.totalTicks = c.idleTicks + c.systemTicks + c.userTicks

/-- When the loop body starts, the first interrupt is due. -/
def Due (s : State Device) : Prop :=
  ∀ caller, s.control = .loop caller →
    ∃ p rest, s.pending = p :: rest ∧ p.when ≤ s.stats.totalTicks

structure Inv (s : State Device) : Prop where
  queue : Queue s.pending s.scheduled s.delivered
  clock : Clock s.stats
  due : Due s

/-- The interrupts are the same in both states. -/
structure SameQueue (s t : State Device) : Prop where
  pending : t.pending = s.pending
  scheduled : t.scheduled = s.scheduled
  delivered : t.delivered = s.delivered

variable {s t : State Device}

omit [DecidableEq Device] in
theorem Inv.of_same (h : Inv s) (hq : SameQueue s t) (hc : Clock t.stats) (hd : Due t) :
    Inv t := by
  refine ⟨?_,hc,hd⟩
  rw [hq.pending,hq.scheduled,hq.delivered]
  exact h.queue

omit [DecidableEq Device] in
theorem due_of_not_loop (h : ∀ caller, t.control ≠ .loop caller) : Due t :=
  fun caller hc => absurd hc (h caller)

omit [DecidableEq Device] in
theorem Queue.new : Queue ([] : List (PendingInterrupt Device)) 0 [] := by
  constructor <;> simp

omit [DecidableEq Device] in
/-- A new interrupt goes behind those that are due at the same time. -/
theorem Queue.insert {pending : List (PendingInterrupt Device)} {n : ℕ}
    {delivered : List (PendingInterrupt Device × ℤ)} (h : Queue pending n delivered)
    {p : PendingInterrupt Device} (hid : p.id = n) (hp : p.when < 2 ^ 31) :
    Queue (KernelList.insertBehind PendingCompare p pending) (n + 1) delivered := by
  have hcompare : ∀ q : PendingInterrupt Device, PendingCompare p q < 0 ↔ p.when < q.when := by
    intro q
    unfold PendingCompare
    split
    · simpa
    · split <;> simp <;> omega
  have hmem : ∀ q, q ∈ KernelList.insertBehind PendingCompare p pending →
      q = p ∨ q ∈ pending := fun q hq =>
    List.mem_cons.mp ((KernelList.insertBehind_perm _ p pending).mem_iff.mp hq)
  constructor
  · apply KernelList.pairwise_insertBehind h.ordered
    · intro q hq hnot
      have hfresh := h.fresh q hq
      rw [hcompare] at hnot
      unfold Before
      omega
    · intro q _ hlt
      exact Or.inl ((hcompare q).mp hlt)
    · intro q r hlt hqr
      have hlt := (hcompare q).mp hlt
      unfold Before at hqr ⊢
      omega
  · have hperm := (KernelList.insertBehind_perm PendingCompare p pending).map (·.id)
    rw [hperm.nodup_iff,List.map_cons,List.nodup_cons]
    refine ⟨fun hin => ?_,h.distinct⟩
    obtain ⟨q,hq,he⟩ := List.mem_map.mp hin
    have hfresh := h.fresh q hq
    omega
  · intro q hq
    rcases hmem q hq with rfl | hq
    · omega
    · exact Nat.lt_succ_of_lt (h.fresh q hq)
  · exact fun d hd => Nat.lt_succ_of_lt (h.pastFresh d hd)
  · exact h.once
  · intro d hd q hq
    rcases hmem q hq with rfl | hq
    · have hpast := h.pastFresh d hd
      omega
    · exact h.apart d hd q hq
  · exact h.onTime
  · intro q hq
    rcases hmem q hq with rfl | hq
    · exact hp
    · exact h.below q hq

omit [DecidableEq Device] in
/-- The first interrupt is delivered. -/
theorem Queue.deliver {p : PendingInterrupt Device} {rest : List (PendingInterrupt Device)} {n : ℕ}
    {delivered : List (PendingInterrupt Device × ℤ)} (h : Queue (p :: rest) n delivered)
    {time : ℤ} (hp : p.when ≤ time) : Queue rest n (delivered ++ [(p,time)]) := by
  obtain ⟨hfirst,hrest⟩ := List.pairwise_cons.mp h.ordered
  have hmem : ∀ d, d ∈ delivered ++ [(p,time)] → d ∈ delivered ∨ d = (p,time) := by
    intro d hd
    simpa using hd
  obtain ⟨hnot,hdistinct⟩ := List.nodup_cons.mp h.distinct
  have hother : ∀ q ∈ rest, p.id ≠ q.id := by
    intro q hq he
    exact hnot (List.mem_map.mpr ⟨q,hq,he.symm⟩)
  constructor
  · exact hrest
  · exact hdistinct
  · exact fun q hq => h.fresh q (List.mem_cons_of_mem p hq)
  · intro d hd
    rcases hmem d hd with hd | rfl
    · exact h.pastFresh d hd
    · exact h.fresh p List.mem_cons_self
  · rw [List.map_append,List.nodup_append]
    refine ⟨h.once,by simp,?_⟩
    intro a ha b hb
    obtain ⟨d,hd,rfl⟩ := List.mem_map.mp ha
    have hb : b = p.id := by simpa using hb
    rw [hb]
    exact h.apart d hd p List.mem_cons_self
  · intro d hd q hq
    rcases hmem d hd with hd | rfl
    · exact h.apart d hd q (List.mem_cons_of_mem p hq)
    · exact hother q hq
  · intro d hd
    rcases hmem d hd with hd | rfl
    · exact h.onTime d hd
    · exact hp
  · exact fun q hq => h.below q (List.mem_cons_of_mem p hq)

/-! One lemma for each part of the code. -/

theorem Schedule_ok {toCall : Device} {fromNow : ℤ} {type : IntType}
    (h : s.Schedule toCall fromNow type = .ok t) : fromNow > 0 ∧
    t = { s with
      pending := KernelList.insertBehind PendingCompare
        ⟨s.scheduled,toCall,wrap (s.stats.totalTicks + fromNow),type⟩ s.pending
      scheduled := s.scheduled + 1 } := by
  obtain ⟨hpos,h⟩ := check_bind_ok.mp h
  obtain ⟨pending,hinsert,h⟩ := bind_ok.mp h
  obtain ⟨_,rfl⟩ := KernelList.insert_ok.mp hinsert
  exact ⟨hpos,(Except.ok.inj h).symm⟩

omit [DecidableEq Device] in
/-- `CheckIfDue` returns to code outside the loop. -/
theorem checked_ok {fired : Bool} {caller : Caller} (h : s.checked fired caller = .ok t) :
    SameQueue s t ∧ t.stats = s.stats ∧ t.control = .running := by
  cases caller with
  | oneTick oldStatus =>
    simp only [State.checked] at h
    split at h
    · cases h
      exact ⟨⟨rfl,rfl,rfl⟩,rfl,rfl⟩
    · cases h
      exact ⟨⟨rfl,rfl,rfl⟩,rfl,rfl⟩
  | idle =>
    simp only [State.checked] at h
    split at h
    · cases h
      exact ⟨⟨rfl,rfl,rfl⟩,rfl,rfl⟩
    · cases h

omit [DecidableEq Device] in
theorem Clock.skipTo {when : ℤ} (h : Clock s.stats) (hlater : s.stats.totalTicks < when)
    (hwhen : when < 2 ^ 31) : Clock (s.skipTo when).stats := by
  obtain ⟨hidle,hsystem,huser,hbelow,hsum⟩ := h
  have hgap : wrap (when - s.stats.totalTicks) = when - s.stats.totalTicks :=
    wrap_of_range (by omega) (by omega)
  have hmore : wrap (s.stats.idleTicks + (when - s.stats.totalTicks)) =
      s.stats.idleTicks + (when - s.stats.totalTicks) := wrap_of_range (by omega) (by omega)
  unfold State.skipTo
  constructor <;> simp only [hgap,hmore] <;> omega

omit [DecidableEq Device] in
theorem Clock.tick (h : Clock s.stats) (hrange : s.stats.totalTicks + s.tickLength < 2 ^ 31) :
    Clock s.tick.stats ∧ s.stats.totalTicks ≤ s.tick.stats.totalTicks := by
  obtain ⟨hidle,hsystem,huser,hbelow,hsum⟩ := h
  unfold State.tickLength at hrange
  unfold State.tick
  by_cases hmode : s.status = .systemMode
  · rw [if_pos hmode] at hrange ⊢
    simp only [SystemTick] at hrange ⊢
    have htotal : wrap (s.stats.totalTicks + 10) = s.stats.totalTicks + 10 :=
      wrap_of_range (by omega) (by omega)
    have hmore : wrap (s.stats.systemTicks + 10) = s.stats.systemTicks + 10 :=
      wrap_of_range (by omega) (by omega)
    rw [htotal,hmore]
    exact ⟨⟨hidle,by simp only; omega,huser,hrange,by simp only; omega⟩,by omega⟩
  · rw [if_neg hmode] at hrange ⊢
    simp only [UserTick] at hrange ⊢
    have htotal : wrap (s.stats.totalTicks + 1) = s.stats.totalTicks + 1 :=
      wrap_of_range (by omega) (by omega)
    have hmore : wrap (s.stats.userTicks + 1) = s.stats.userTicks + 1 :=
      wrap_of_range (by omega) (by omega)
    rw [htotal,hmore]
    exact ⟨⟨hidle,hsystem,by simp only; omega,hrange,by simp only; omega⟩,by omega⟩

omit [DecidableEq Device] in
/-- `CheckIfDue` up to its loop keeps the invariant; it moves the clock forward only. -/
theorem CheckIfDue_ok {advanceClock : Bool} {caller : Caller}
    (hq : Queue s.pending s.scheduled s.delivered) (hc : Clock s.stats)
    (h : s.CheckIfDue advanceClock caller = .ok t) :
    Inv t ∧ SameQueue s t ∧ s.stats.totalTicks ≤ t.stats.totalTicks := by
  obtain ⟨_,h⟩ := check_bind_ok.mp h
  have hreturn : s.checked false caller = .ok t →
      Inv t ∧ SameQueue s t ∧ s.stats.totalTicks ≤ t.stats.totalTicks := by
    intro h
    obtain ⟨hsame,hstats,hcontrol⟩ := checked_ok h
    refine ⟨⟨?_,hstats ▸ hc,?_⟩,hsame,by rw [hstats]⟩
    · rw [hsame.pending,hsame.scheduled,hsame.delivered]
      exact hq
    · exact due_of_not_loop (by simp [hcontrol])
  split at h
  · exact hreturn h
  · next first rest hpending =>
    have hbelow := hq.below first (by simp [hpending])
    split at h
    · next hlater =>
      split at h
      · exact hreturn h
      · cases h
        refine ⟨⟨hq,hc.skipTo hlater hbelow,?_⟩,⟨rfl,rfl,rfl⟩,le_of_lt hlater⟩
        exact fun _ _ => ⟨first,rest,hpending,le_refl _⟩
    · next hdue =>
      cases h
      refine ⟨⟨hq,hc,?_⟩,⟨rfl,rfl,rfl⟩,le_refl _⟩
      exact fun _ _ => ⟨first,rest,hpending,not_lt.mp hdue⟩

omit [DecidableEq Device] in
theorem OneTick_ok (hs : Inv s) (hrange : s.stats.totalTicks + s.tickLength < 2 ^ 31)
    (h : s.OneTick = .ok t) :
    Inv t ∧ SameQueue s t ∧ s.stats.totalTicks ≤ t.stats.totalTicks := by
  obtain ⟨hclock,hlater⟩ := hs.clock.tick hrange
  have htick : SameQueue s s.tick := by
    unfold State.tick
    split <;> exact ⟨rfl,rfl,rfl⟩
  have hq := hs.queue
  rw [← htick.pending,← htick.scheduled,← htick.delivered] at hq
  obtain ⟨hinv,hsame,hmore⟩ := CheckIfDue_ok (s := { s.tick with level := .intOff }) hq hclock h
  exact ⟨hinv,⟨hsame.pending.trans htick.pending,hsame.scheduled.trans htick.scheduled,
    hsame.delivered.trans htick.delivered⟩,le_trans hlater hmore⟩

omit [DecidableEq Device] in
theorem SetLevel_ok {now : IntStatus} (hs : Inv s) (hnot : ∀ caller, s.control ≠ .loop caller)
    (hrange : now = .intOn → s.level = .intOff → s.stats.totalTicks + s.tickLength < 2 ^ 31)
    (h : s.SetLevel now = .ok t) :
    Inv t ∧ SameQueue s t ∧ s.stats.totalTicks ≤ t.stats.totalTicks := by
  obtain ⟨_,h⟩ := check_bind_ok.mp h
  have hs' : Inv { s with level := now } :=
    hs.of_same ⟨rfl,rfl,rfl⟩ hs.clock (due_of_not_loop hnot)
  split at h
  · next hon =>
    obtain ⟨hinv,hsame,hlater⟩ := OneTick_ok hs' (hrange hon.1 hon.2) h
    exact ⟨hinv,⟨hsame.pending,hsame.scheduled,hsame.delivered⟩,hlater⟩
  · cases h
    exact ⟨hs',⟨rfl,rfl,rfl⟩,le_refl _⟩

omit [DecidableEq Device] in
/-- When the loop ends, nothing that is left is due. -/
theorem handlerReturns_ok {caller : Caller} (hs : Inv s) (h : s.handlerReturns caller = .ok t) :
    Inv t ∧ SameQueue s t ∧ t.stats = s.stats ∧
      (t.control = .running → ∀ p ∈ t.pending, t.stats.totalTicks < p.when) := by
  have hreturn : State.checked { s with inHandler := false } true caller = .ok t →
      (∀ p ∈ s.pending, s.stats.totalTicks < p.when) →
      Inv t ∧ SameQueue s t ∧ t.stats = s.stats ∧
        (t.control = .running → ∀ p ∈ t.pending, t.stats.totalTicks < p.when) := by
    intro h hnone
    obtain ⟨hsame,hstats,hcontrol⟩ := checked_ok h
    have hsame : SameQueue s t := ⟨hsame.pending,hsame.scheduled,hsame.delivered⟩
    have hstats : t.stats = s.stats := hstats
    have hinv := hs.of_same hsame (hstats ▸ hs.clock) (due_of_not_loop (by simp [hcontrol]))
    refine ⟨hinv,hsame,hstats,fun _ => ?_⟩
    rw [hsame.pending,hstats]
    exact hnone
  unfold State.handlerReturns at h
  split at h
  · next hpending => exact hreturn h (by simp [hpending])
  · next first rest hpending =>
    split at h
    · next hdue =>
      cases h
      refine ⟨hs.of_same ⟨rfl,rfl,rfl⟩ hs.clock ?_,⟨rfl,rfl,rfl⟩,rfl,fun hc => by cases hc⟩
      exact fun _ _ => ⟨first,rest,hpending,hdue⟩
    · next hlater =>
      refine hreturn h fun p hp => ?_
      have hordered := hs.queue.ordered
      rw [hpending] at hp hordered
      rcases List.mem_cons.mp hp with rfl | hp
      · omega
      · have hbefore := (List.pairwise_cons.mp hordered).1 p hp
        unfold Before at hbefore
        omega

/-- What a step does to the clock, the pending interrupts and those delivered. -/
structure Step (s : State Device) (a : Action Device) (t : State Device) : Prop where
  inv : Inv t
  later : s.stats.totalTicks ≤ t.stats.totalTicks
  delivers : a = .deliver → ∃ p, s.pending = p :: t.pending ∧ p.when ≤ s.stats.totalTicks ∧
    t.delivered = s.delivered ++ [(p,s.stats.totalTicks)] ∧ ∀ q ∈ t.pending, Before p q
  keeps : a ≠ .deliver → t.delivered = s.delivered
  schedules : ∀ toCall fromNow type, a = .schedule toCall fromNow type →
    t.pending.Perm (⟨s.scheduled,toCall,s.stats.totalTicks + fromNow,type⟩ :: s.pending)
  ends : a = .handlerReturns → t.control = .running →
    ∀ p ∈ t.pending, t.stats.totalTicks < p.when

omit [DecidableEq Device] in
/-- A step that leaves the interrupts as they are and returns from no handler. -/
theorem Step.of_same {a : Action Device} (hdeliver : a ≠ .deliver)
    (hreturns : a ≠ .handlerReturns)
    (hschedule : ∀ toCall fromNow type, a ≠ .schedule toCall fromNow type)
    (h : Inv t ∧ SameQueue s t ∧ s.stats.totalTicks ≤ t.stats.totalTicks) : Step s a t where
  inv := h.1
  later := h.2.2
  delivers := fun ha => absurd ha hdeliver
  keeps := fun _ => h.2.1.delivered
  schedules := fun _ _ _ ha => absurd ha (hschedule _ _ _)
  ends := fun ha => absurd ha hreturns

theorem Step.schedule {toCall : Device} {fromNow : ℤ} {type : IntType} (hs : Inv s)
    (hnot : ∀ caller, s.control ≠ .loop caller)
    (hrange : s.stats.totalTicks + fromNow < 2 ^ 31)
    (h : s.Schedule toCall fromNow type = .ok t) :
    Step s (.schedule toCall fromNow type) t := by
  obtain ⟨hpos,rfl⟩ := Schedule_ok h
  obtain ⟨hidle,hsystem,huser,hbelow,hsum⟩ := hs.clock
  have hwhen : wrap (s.stats.totalTicks + fromNow) = s.stats.totalTicks + fromNow :=
    wrap_of_range (by omega) hrange
  rw [hwhen]
  constructor
  · exact ⟨hs.queue.insert rfl hrange,hs.clock,due_of_not_loop hnot⟩
  · exact le_refl _
  · intro ha
    cases ha
  · exact fun _ => rfl
  · intro _ _ _ ha
    cases ha
    exact KernelList.insertBehind_perm _ _ _
  · intro ha
    cases ha

omit [DecidableEq Device] in
theorem Step.deliver {caller : Caller} (hs : Inv s) (hcontrol : s.control = .loop caller)
    (h : s.deliver caller = .ok t) : Step s .deliver t := by
  obtain ⟨p,rest,hpending,hdue⟩ := hs.due caller hcontrol
  unfold State.deliver at h
  rw [hpending] at h
  cases h
  have hq := hs.queue
  rw [hpending] at hq
  constructor
  · exact ⟨hq.deliver hdue,hs.clock,fun _ hc => by cases hc⟩
  · exact le_refl _
  · exact fun _ => ⟨p,hpending,hdue,rfl,(List.pairwise_cons.mp hq.ordered).1⟩
  · exact fun ha => absurd rfl ha
  · intro _ _ _ ha
    cases ha
  · intro ha
    cases ha

omit [DecidableEq Device] in
theorem Step.handlerReturns {caller : Caller} (hs : Inv s)
    (h : s.handlerReturns caller = .ok t) : Step s .handlerReturns t := by
  obtain ⟨hinv,hsame,hstats,hends⟩ := handlerReturns_ok hs h
  constructor
  · exact hinv
  · rw [hstats]
  · intro ha
    cases ha
  · exact fun _ => hsame.delivered
  · intro _ _ _ ha
    cases ha
  · exact fun _ => hends

/-- The code that a step runs, and where. -/
inductive Runs (s : State Device) : Action Device → State Device → Prop
  | schedule {toCall : Device} {fromNow : ℤ} {type : IntType} {t : State Device}
      (hnot : ∀ caller, s.control ≠ .loop caller) (h : s.Schedule toCall fromNow type = .ok t) :
      Runs s (.schedule toCall fromNow type) t
  | oneTick {t : State Device} (hcontrol : s.control = .running) (h : s.OneTick = .ok t) :
      Runs s .oneTick t
  | idle {t : State Device} (hcontrol : s.control = .running) (h : s.Idle = .ok t) : Runs s .idle t
  | setLevel {now : IntStatus} {t : State Device} (hnot : ∀ caller, s.control ≠ .loop caller)
      (h : s.SetLevel now = .ok t) : Runs s (.setLevel now) t
  | setStatus {st : MachineStatus} (hcontrol : s.control = .running) :
      Runs s (.setStatus st) { s with status := st }
  | resumes {oldStatus : MachineStatus} (hcontrol : s.control = .running) :
      Runs s (.resumes oldStatus)
        { s with status := oldStatus,suspended := s.suspended.erase oldStatus }
  | deliver {caller : Caller} {t : State Device} (hcontrol : s.control = .loop caller)
      (h : s.deliver caller = .ok t) : Runs s .deliver t
  | yieldOnReturn (hnot : ∀ caller, s.control ≠ .loop caller) :
      Runs s .yieldOnReturn { s with yieldOnReturn := true }
  | handlerReturns {caller : Caller} {t : State Device} (hcontrol : s.control = .handler caller)
      (h : s.handlerReturns caller = .ok t) : Runs s .handlerReturns t

theorem step_runs {a : Action Device} (h : step s a = .ok t) : Runs s a t := by
  unfold step at h
  split at h
  · next hcontrol => exact .schedule (by simp [hcontrol]) h
  · next hcontrol => exact .oneTick hcontrol h
  · next hcontrol => exact .idle hcontrol h
  · next hcontrol => exact .setLevel (by simp [hcontrol]) h
  · next hcontrol =>
    cases h
    exact .setStatus hcontrol
  · next hcontrol =>
    obtain ⟨_,h⟩ := require_bind_ok.mp h
    cases h
    exact .resumes hcontrol
  · next hcontrol => exact .deliver hcontrol h
  · next hcontrol => exact .schedule (by simp [hcontrol]) h
  · next hcontrol => exact .setLevel (by simp [hcontrol]) h
  · next hcontrol =>
    obtain ⟨_,h⟩ := check_bind_ok.mp h
    cases h
    exact .yieldOnReturn (by simp [hcontrol])
  · next hcontrol => exact .handlerReturns hcontrol h
  · cases h

theorem step_ok {a : Action Device} (hs : Inv s) (hrange : InRange s a)
    (h : step s a = .ok t) : Step s a t := by
  cases step_runs h with
  | schedule hnot h => exact Step.schedule hs hnot hrange h
  | oneTick _ h => exact .of_same (by simp) (by simp) (by simp) (OneTick_ok hs hrange h)
  | idle _ h =>
    obtain ⟨hinv,hq,hlater⟩ :=
      CheckIfDue_ok (s := { s with status := .idleMode }) hs.queue hs.clock h
    exact .of_same (by simp) (by simp) (by simp)
      ⟨hinv,⟨hq.pending,hq.scheduled,hq.delivered⟩,hlater⟩
  | setLevel hnot h => exact .of_same (by simp) (by simp) (by simp) (SetLevel_ok hs hnot hrange h)
  | setStatus hcontrol =>
    refine .of_same (by simp) (by simp) (by simp) ⟨?_,⟨rfl,rfl,rfl⟩,le_refl _⟩
    exact hs.of_same ⟨rfl,rfl,rfl⟩ hs.clock (due_of_not_loop (by simp [hcontrol]))
  | resumes hcontrol =>
    refine .of_same (by simp) (by simp) (by simp) ⟨?_,⟨rfl,rfl,rfl⟩,le_refl _⟩
    exact hs.of_same ⟨rfl,rfl,rfl⟩ hs.clock (due_of_not_loop (by simp [hcontrol]))
  | deliver hcontrol h => exact Step.deliver hs hcontrol h
  | yieldOnReturn hnot =>
    refine .of_same (by simp) (by simp) (by simp) ⟨?_,⟨rfl,rfl,rfl⟩,le_refl _⟩
    exact hs.of_same ⟨rfl,rfl,rfl⟩ hs.clock (due_of_not_loop hnot)
  | handlerReturns _ h => exact Step.handlerReturns hs h

theorem inv_of_reachable (h : machine.ReachableWith InRange s) : Inv s := by
  apply Machine.ReachableWith.invariant _ _ h
  · rintro s rfl
    exact ⟨Queue.new,by constructor <;> simp [State.new],due_of_not_loop (by simp [State.new])⟩
  · intro s a t hs hrange ht
    exact (step_ok hs hrange ht).inv

omit [DecidableEq Device] in
/-- The objects delivered and those pending are all different. -/
theorem Queue.nodup {pending : List (PendingInterrupt Device)} {n : ℕ}
    {delivered : List (PendingInterrupt Device × ℤ)} (h : Queue pending n delivered) :
    (delivered.map (·.1.id) ++ pending.map (·.id)).Nodup := by
  rw [List.nodup_append]
  refine ⟨h.once,h.distinct,?_⟩
  intro i hi j hj
  obtain ⟨d,hd,rfl⟩ := List.mem_map.mp hi
  obtain ⟨p,hp,rfl⟩ := List.mem_map.mp hj
  exact h.apart d hd p hp

/-- In every run that keeps the clock in range: the list is sorted, handlers are called on
time and at most once for each `Schedule`, and every tick is accounted for.  A step takes
the clock forward only; it delivers the first interrupt in order of time and then of
scheduling; and when the loop ends nothing is due. -/
theorem interrupts_in_order (h : machine.ReachableWith InRange s) :
    s.pending.Pairwise (·.when ≤ ·.when) ∧
    (∀ d ∈ s.delivered, d.1.when ≤ d.2) ∧
    (s.delivered.map (·.1.id) ++ s.pending.map (·.id)).Nodup ∧
    (∀ i ∈ s.delivered.map (·.1.id) ++ s.pending.map (·.id), i < s.scheduled) ∧
    s.stats.totalTicks = s.stats.idleTicks + s.stats.systemTicks + s.stats.userTicks ∧
    ∀ a t, InRange s a → step s a = .ok t → Step s a t := by
  have hs := inv_of_reachable h
  have hsorted : s.pending.Pairwise (·.when ≤ ·.when) := by
    apply hs.queue.ordered.imp
    intro p q hbefore
    unfold Before at hbefore
    omega
  have hnumbers : ∀ i ∈ s.delivered.map (·.1.id) ++ s.pending.map (·.id), i < s.scheduled := by
    intro i hi
    rcases List.mem_append.mp hi with hi | hi
    · obtain ⟨d,hd,rfl⟩ := List.mem_map.mp hi
      exact hs.queue.pastFresh d hd
    · obtain ⟨p,hp,rfl⟩ := List.mem_map.mp hi
      exact hs.queue.fresh p hp
  exact ⟨hsorted,hs.queue.onTime,hs.queue.nodup,hnumbers,hs.clock.accounted,
    fun a t hrange ht => step_ok hs hrange ht⟩

/-- Two interrupts for the same time; the first handler schedules a third. -/
theorem interrupts_in_order_handler : ∃ s : State Bool, machine.ReachableWith InRange s ∧
    s.delivered.map (fun d => (d.1.callOnInterrupt,d.1.when,d.2)) =
      [(true,100,100),(false,100,100)] ∧
    s.pending.map (·.when) = [105] ∧ s.pending.Pairwise (·.when ≤ ·.when) := by
  let as : List (Action Bool) := [.schedule true 100 .timerInt,.schedule false 100 .diskInt,
    .idle,.deliver,.schedule true 5 .timerInt,.handlerReturns,.deliver,.handlerReturns]
  have hrun : ∃ s, machine.runWith InRange .new as = .ok s ∧
      s.delivered.map (fun d => (d.1.callOnInterrupt,d.1.when,d.2)) =
        [(true,100,100),(false,100,100)] ∧ s.pending.map (·.when) = [105] := ⟨_,rfl,rfl,rfl⟩
  obtain ⟨s,hs,hdelivered,hpending⟩ := hrun
  have hreach : machine.ReachableWith InRange s := (Machine.ReachableWith.start rfl).runWith hs
  exact ⟨s,hreach,hdelivered,hpending,(interrupts_in_order hreach).1⟩

end Interrupt
end NachOS
