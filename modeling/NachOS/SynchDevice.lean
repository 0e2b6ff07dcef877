import NachOS.Lock

/-! Threads in front of a device that answers by an interrupt.  The wrappers of the kernel
(`SynchDisk`, `SynchConsoleOutput`, `SynchConsoleInput`, `PostOfficeOutput`) hold a lock around
a `P` of a semaphore whose `V` is called by the interrupt handler. -/
namespace NachOS

open StateMachine

/-! The lock and the semaphore of a wrapper. -/
namespace Guard

variable {Thread : Type} [DecidableEq Thread]

/-- How far the thread that has the lock is: before and after what precedes `P`, asleep in
`P`, and before and after what follows `P`. -/
inductive Point
  | entered | ready | waiting | passed | leaving
  deriving DecidableEq, Repr

structure State (Thread : Type) where
  lock : Lock.State Thread
  semaphore : Semaphore.State Thread
  point : Thread → Point

def new : State Thread := ⟨Lock.new,⟨Semaphore.new 0,[],0,0⟩,fun _ => .entered⟩

namespace State

def acquire (g : State Thread) (t : Thread) : Except Fault (State Thread) := do
  return { g with lock := ← g.lock.acquire t }

def resume (g : State Thread) (t : Thread) : Except Fault (State Thread) := do
  return { g with lock := ← g.lock.resume t }

def setHolder (g : State Thread) (t : Thread) : Except Fault (State Thread) := do
  return { g with lock := ← g.lock.setHolder t }

/-- The statement between `Acquire` and `P`. -/
def before (g : State Thread) (t : Thread) : Except Fault (State Thread) := do
  require (g.lock.loc t = .inside ∧ g.point t = .entered)
  return { g with point := Function.update g.point t .ready }

def afterP (g : State Thread) (t : Thread) (r : Semaphore.State Thread × Bool) : State Thread :=
  { g with
    semaphore := r.1
    point := Function.update g.point t (if r.2 then .passed else .waiting) }

def P (g : State Thread) (t : Thread) : Except Fault (State Thread) := do
  require (g.point t = .ready)
  return g.afterP t (← g.semaphore.callP t)

def resumeP (g : State Thread) (t : Thread) : Except Fault (State Thread) := do
  require (g.point t = .waiting)
  return g.afterP t (← g.semaphore.resumeP t)

/-- The statement between `P` and `Release`. -/
def after (g : State Thread) (t : Thread) : Except Fault (State Thread) := do
  require (g.point t = .passed)
  return { g with point := Function.update g.point t .leaving }

def release (g : State Thread) (t : Thread) : Except Fault (State Thread) := do
  require (g.point t = .leaving)
  return { g with lock := ← g.lock.release t, point := Function.update g.point t .entered }

/-- The handler. -/
def V (g : State Thread) : State Thread := { g with semaphore := g.semaphore.callV }

abbrev value (g : State Thread) : ℤ := g.semaphore.sem.value

structure Inv (g : State Thread) : Prop where
  lock : g.lock.Inv
  semaphore : g.semaphore.Inv 0
  inP : ∀ t, g.semaphore.InP t ↔ g.point t = .waiting
  inside : ∀ t, g.point t ≠ .entered → g.lock.loc t = .inside

variable {g g' : State Thread} {t u : Thread}

omit [DecidableEq Thread] in
theorem Inv.unique (h : g.Inv) (ht : g.point t ≠ .entered) (hu : g.point u ≠ .entered) : t = u :=
  h.lock.owner_unique (Or.inr (h.inside t ht)) (Or.inr (h.inside u hu))

omit [DecidableEq Thread] in
/-- Only one thread is past the first statement, so nothing is known of another one. -/
theorem Inv.others (h : g.Inv) (ht : g.lock.loc t = .inside) (hu : u ≠ t) :
    g.point u = .entered := by
  by_contra hne
  exact hu (h.lock.owner_unique (Or.inr (h.inside u hne)) (Or.inr ht))

end State

open State

omit [DecidableEq Thread] in
theorem inv_initial : (new : State Thread).Inv where
  lock := Lock.inv_initial
  semaphore := Semaphore.inv_initial 0 le_rfl (by norm_num)
  inP t := by simp [new,Semaphore.State.InP,Semaphore.new]
  inside t ht := absurd rfl ht

/-! What the sections do. -/

variable {g g' : State Thread} {t u : Thread}

/-- A section of `Acquire` moves its thread in the lock only. -/
structure Acquires (g g' : State Thread) (t : Thread) : Prop where
  semaphore : g'.semaphore = g.semaphore
  point : g'.point = g.point
  loc : ∃ l, g'.lock.loc = Function.update g.lock.loc t l ∧ l ≠ .outside
  notInside : g.lock.loc t ≠ .inside

theorem acquires_inv (h : g.Inv) (hlock : g'.lock.Inv) (ha : Acquires g g' t) : g'.Inv := by
  obtain ⟨l,hloc,_⟩ := ha.loc
  refine ⟨hlock,?_,fun u => ?_,fun u hu => ?_⟩
  · rw [ha.semaphore]
    exact h.semaphore
  · rw [ha.semaphore,ha.point]
    exact h.inP u
  · rw [ha.point] at hu
    have hin := h.inside u hu
    have hne : u ≠ t := by
      rintro rfl
      exact ha.notInside hin
    rw [hloc,Function.update_of_ne hne]
    exact hin

theorem acquire_spec (h : g.Inv) (hs : g.acquire t = .ok g') :
    g'.Inv ∧ g.lock.loc t = .outside ∧ Acquires g g' t := by
  obtain ⟨lock,hlock,he⟩ := bind_ok.mp hs
  cases he
  obtain ⟨hout,l,hl,hloc⟩ := Lock.State.acquire_loc hlock
  have ha : Acquires g { g with lock := lock } t := by
    refine ⟨rfl,rfl,⟨l,hloc,?_⟩,by simp [hout]⟩
    rcases hl with rfl | rfl <;> decide
  exact ⟨acquires_inv h (h.lock.acquire hlock) ha,hout,ha⟩

theorem resume_spec (h : g.Inv) (hs : g.resume t = .ok g') :
    g'.Inv ∧ g.lock.loc t ≠ .outside ∧ Acquires g g' t := by
  obtain ⟨lock,hlock,he⟩ := bind_ok.mp hs
  cases he
  obtain ⟨hacq,l,hl,hloc⟩ := Lock.State.resume_loc hlock
  have ha : Acquires g { g with lock := lock } t := by
    refine ⟨rfl,rfl,⟨l,hloc,?_⟩,by simp [hacq]⟩
    rcases hl with rfl | rfl <;> decide
  exact ⟨acquires_inv h (h.lock.resume hlock) ha,by simp [hacq],ha⟩

theorem setHolder_spec (h : g.Inv) (hs : g.setHolder t = .ok g') :
    g'.Inv ∧ g.lock.loc t ≠ .outside ∧ Acquires g g' t := by
  obtain ⟨lock,hlock,he⟩ := bind_ok.mp hs
  cases he
  obtain ⟨hacq,hloc⟩ := Lock.State.setHolder_ok.mp hlock
  have ha : Acquires g { g with lock := lock } t :=
    ⟨rfl,rfl,⟨.inside,by rw [hloc],by decide⟩,by simp [hacq]⟩
  exact ⟨acquires_inv h (h.lock.setHolder hlock) ha,by simp [hacq],ha⟩

/-- A statement of the thread that has the lock. -/
structure Moves (g g' : State Thread) (t : Thread) (p p' : Point) : Prop where
  loc : g.lock.loc t = .inside
  lock : g'.lock = g.lock
  source : g.point t = p
  point : g'.point = Function.update g.point t p'

theorem moves_inv {p : Point} (h : g.Inv) (hloc : g.lock.loc t = .inside)
    (ht : g.point t ≠ .waiting) (hp : p ≠ .waiting) :
    State.Inv { g with point := Function.update g.point t p } := by
  refine ⟨h.lock,h.semaphore,fun u => ?_,fun u hu => ?_⟩
  · by_cases he : u = t
    · simp [he,h.inP,ht,hp]
    · simp [he,h.inP]
  · by_cases he : u = t
    · rw [he]
      exact hloc
    · simp only [Function.update_of_ne he] at hu
      exact h.inside u hu

theorem before_spec (h : g.Inv) (hs : g.before t = .ok g') :
    g'.Inv ∧ Moves g g' t .entered .ready ∧ g'.value = g.value := by
  obtain ⟨⟨hloc,hpoint⟩,he⟩ := require_bind_ok.mp hs
  cases he
  exact ⟨moves_inv h hloc (by simp [hpoint]) (by decide),⟨hloc,rfl,hpoint,rfl⟩,rfl⟩

theorem after_spec (h : g.Inv) (hs : g.after t = .ok g') :
    g'.Inv ∧ Moves g g' t .passed .leaving ∧ g'.value = g.value := by
  obtain ⟨hpoint,he⟩ := require_bind_ok.mp hs
  cases he
  have hloc := h.inside t (by simp [hpoint])
  exact ⟨moves_inv h hloc (by simp [hpoint]) (by decide),⟨hloc,rfl,hpoint,rfl⟩,rfl⟩

/-- A pass of `P` takes the one unit there is, or goes to sleep. -/
structure Passes (g g' : State Thread) (t : Thread) : Prop where
  loc : g.lock.loc t = .inside
  lock : g'.lock = g.lock
  source : g.point t = .ready ∨ g.point t = .waiting
  cases : (g.value = 0 ∧ g'.value = 0 ∧ g'.point = Function.update g.point t .waiting) ∨
    (g.value ≠ 0 ∧ g'.value = g.value - 1 ∧ g'.point = Function.update g.point t .passed)

theorem passes_inv {r : Semaphore.State Thread} {b : Bool} (h : g.Inv) (hsem : r.Inv 0)
    (hpoint : g.point t = .ready ∨ g.point t = .waiting) (hr : g.semaphore.PassesP r t b) :
    (g.afterP t (r,b)).Inv ∧ Passes g (g.afterP t (r,b)) t := by
  have hloc := h.inside t (by rcases hpoint with hp | hp <;> simp [hp])
  have hinside : ∀ p u, Function.update g.point t p u ≠ .entered → g.lock.loc u = .inside := by
    intro p u hu
    by_cases he : u = t
    · rw [he]
      exact hloc
    · rw [Function.update_of_ne he] at hu
      exact h.inside u hu
  rcases hr with ⟨rfl,hv,hv',hin⟩ | ⟨rfl,hv,hv',hin⟩
  · refine ⟨⟨h.lock,hsem,fun u => ?_,hinside _⟩,⟨hloc,rfl,hpoint,Or.inl ⟨hv,hv',rfl⟩⟩⟩
    by_cases hu : u = t <;> simp [State.afterP,hin,h.inP,hu]
  · refine ⟨⟨h.lock,hsem,fun u => ?_,hinside _⟩,⟨hloc,rfl,hpoint,Or.inr ⟨hv,hv',rfl⟩⟩⟩
    by_cases hu : u = t <;> simp [State.afterP,hin,h.inP,hu]

theorem P_spec (h : g.Inv) (hs : g.P t = .ok g') : g'.Inv ∧ Passes g g' t := by
  obtain ⟨hpoint,hs⟩ := require_bind_ok.mp hs
  obtain ⟨⟨r,b⟩,hr,he⟩ := bind_ok.mp hs
  cases he
  exact passes_inv h (h.semaphore.callP hr) (Or.inl hpoint)
    (Semaphore.State.callP_passes h.semaphore hr)

theorem resumeP_spec (h : g.Inv) (hs : g.resumeP t = .ok g') : g'.Inv ∧ Passes g g' t := by
  obtain ⟨hpoint,hs⟩ := require_bind_ok.mp hs
  obtain ⟨⟨r,b⟩,hr,he⟩ := bind_ok.mp hs
  cases he
  exact passes_inv h (h.semaphore.resumeP hr) (Or.inr hpoint)
    (Semaphore.State.resumeP_passes h.semaphore hr)

theorem release_spec (h : g.Inv) (hs : g.release t = .ok g') :
    g'.Inv ∧ g.point t = .leaving ∧ g'.value = g.value ∧
      g'.lock.loc = Function.update g.lock.loc t .outside ∧
      g'.point = Function.update g.point t .entered := by
  obtain ⟨hpoint,hs⟩ := require_bind_ok.mp hs
  obtain ⟨lock,hlock,he⟩ := bind_ok.mp hs
  cases he
  have hinv := h.lock.release hlock
  obtain ⟨hloc,_,rfl⟩ := Lock.State.release_ok.mp hlock
  refine ⟨⟨hinv,h.semaphore,fun u => ?_,fun u hu => ?_⟩,hpoint,rfl,rfl,rfl⟩
  · by_cases hu : u = t
    · simp [hu,h.inP,hpoint]
    · simp [hu,h.inP]
  · by_cases he : u = t
    · simp [he] at hu
    · simp only [Function.update_of_ne he] at hu ⊢
      exact h.inside u hu

omit [DecidableEq Thread] in
theorem V_spec (h : g.Inv) (hzero : g.value = 0) : g.V.Inv ∧ g.V.value = 1 := by
  have hroom : g.value < 2 ^ 31 - 1 := by rw [hzero]; norm_num
  obtain ⟨hv,hin⟩ := Semaphore.State.callV_spec h.semaphore hroom
  refine ⟨⟨h.lock,h.semaphore.callV hroom,fun u => (hin u).trans (h.inP u),h.inside⟩,?_⟩
  exact hv.trans (by rw [show g.semaphore.sem.value = 0 from hzero]; rfl)

/-! When a call goes through. -/

/-- Nobody holds the lock or waits for it. -/
def State.Free (g : State Thread) : Prop := ∀ t, g.lock.loc t = .outside

omit [DecidableEq Thread] in
theorem State.Inv.entered_of_free (h : g.Inv) (hfree : g.Free) (t : Thread) :
    g.point t = .entered := by
  by_contra hne
  cases (hfree t).symm.trans (h.inside t hne)

theorem State.Inv.acquire_free (h : g.Inv) (hfree : g.Free) (t : Thread) :
    ∃ g₁ g₂, g.acquire t = .ok g₁ ∧ g₁.setHolder t = .ok g₂ ∧ g₂.semaphore = g.semaphore ∧
      g₂.point = g.point ∧ g₂.lock.loc = Function.update g.lock.loc t .inside := by
  obtain ⟨l₁,l₂,hl₁,hl₂,hloc⟩ := h.lock.acquire_free hfree t
  refine ⟨{ g with lock := l₁ },{ g with lock := l₂ },?_,?_,rfl,rfl,hloc⟩
  · simp only [State.acquire,hl₁]
    rfl
  · simp only [State.setHolder,hl₂]
    rfl

theorem State.Inv.P_positive (h : g.Inv) (ht : g.point t = .ready) (hv : g.value ≠ 0) :
    ∃ g', g.P t = .ok g' := by
  have hin : ¬ g.semaphore.InP t := by
    rw [h.inP,ht]
    decide
  obtain ⟨r,hr⟩ := Semaphore.State.callP_of_value hv hin
  refine ⟨g.afterP t (r,true),?_⟩
  simp only [State.P,require_of ht,hr]
  rfl

theorem State.Inv.release_leaving (h : g.Inv) (ht : g.point t = .leaving) :
    ∃ g', g.release t = .ok g' := by
  obtain ⟨l,hl,_⟩ := h.lock.release_inside (h.inside t (by simp [ht]))
  refine ⟨{ g with lock := l,point := Function.update g.point t .entered },?_⟩
  simp only [State.release,require_of ht,hl]
  rfl

/-- A call that finds the lock free and the semaphore positive goes through, and leaves the
lock free again. -/
theorem State.Inv.call_free (h : g.Inv) (hfree : g.Free) (hv : g.value ≠ 0) (t : Thread) :
    ∃ g₁ g₂ g₃ g₄ g₅ g₆, g.acquire t = .ok g₁ ∧ g₁.setHolder t = .ok g₂ ∧ g₂.before t = .ok g₃ ∧
      g₃.P t = .ok g₄ ∧ g₄.after t = .ok g₅ ∧ g₅.release t = .ok g₆ ∧ g₆.Free ∧
      g₆.value = g.value - 1 := by
  obtain ⟨g₁,g₂,h₁,h₂,hsem₂,hpoint₂,hloc₂⟩ := h.acquire_free hfree t
  have hinv₂ := (setHolder_spec (acquire_spec h h₁).1 h₂).1
  obtain ⟨g₃,h₃⟩ : ∃ g₃, g₂.before t = .ok g₃ := by
    refine ⟨_,require_bind_ok.mpr ⟨⟨?_,?_⟩,rfl⟩⟩
    · rw [hloc₂,Function.update_self]
    · rw [hpoint₂]
      exact h.entered_of_free hfree t
  obtain ⟨hinv₃,hmoves₃,hvalue₃⟩ := before_spec hinv₂ h₃
  have hvalue₃ : g₃.value = g.value := by rw [hvalue₃,State.value,hsem₂]
  have hv₃ : g₃.value ≠ 0 := by rwa [hvalue₃]
  obtain ⟨g₄,h₄⟩ := hinv₃.P_positive (by rw [hmoves₃.point,Function.update_self]) hv₃
  obtain ⟨hinv₄,hpasses⟩ := P_spec hinv₃ h₄
  obtain ⟨hvalue₄,hpassed⟩ : g₄.value = g.value - 1 ∧ g₄.point t = .passed := by
    rcases hpasses.cases with ⟨hzero,_⟩ | ⟨_,hv',hpoint⟩
    · exact absurd hzero hv₃
    · rw [hv',hvalue₃,hpoint,Function.update_self]
      exact ⟨rfl,rfl⟩
  obtain ⟨g₅,h₅⟩ : ∃ g₅, g₄.after t = .ok g₅ := ⟨_,require_bind_ok.mpr ⟨hpassed,rfl⟩⟩
  obtain ⟨hinv₅,hmoves₅,hvalue₅⟩ := after_spec hinv₄ h₅
  obtain ⟨g₆,h₆⟩ := hinv₅.release_leaving (t := t) (by rw [hmoves₅.point,Function.update_self])
  obtain ⟨_,_,hvalue₆,hloc₆,_⟩ := release_spec hinv₅ h₆
  refine ⟨g₁,g₂,g₃,g₄,g₅,g₆,h₁,h₂,h₃,h₄,h₅,h₆,fun u => ?_,
    hvalue₆.trans (hvalue₅.trans hvalue₄)⟩
  rw [hloc₆,hmoves₅.lock,hpasses.lock,hmoves₃.lock,hloc₂,Function.update_idem]
  by_cases hu : u = t
  · rw [hu,Function.update_self]
  · rw [Function.update_of_ne hu]
    exact hfree u

/-- No section stops at an assertion. -/
theorem State.Inv.not_assertion (h : g.Inv) (t : Thread) :
    g.acquire t ≠ .error .assertion ∧ g.resume t ≠ .error .assertion ∧
    g.setHolder t ≠ .error .assertion ∧ g.before t ≠ .error .assertion ∧
    g.P t ≠ .error .assertion ∧ g.resumeP t ≠ .error .assertion ∧
    g.after t ≠ .error .assertion ∧ g.release t ≠ .error .assertion := by
  have hrequire : ∀ {c : Prop} [Decidable c] {x : Except Fault (State Thread)},
      x ≠ .error .assertion → (require c >>= fun _ => x) ≠ .error .assertion :=
    fun hx hs => hx (require_bind_assertion.mp hs).2
  refine ⟨bind_pure_assertion.not.mpr (h.lock.step_not_assertion (.acquire t)),
    bind_pure_assertion.not.mpr (h.lock.step_not_assertion (.resume t)),
    bind_pure_assertion.not.mpr (h.lock.step_not_assertion (.setHolder t)),
    hrequire nofun,hrequire (bind_pure_assertion.not.mpr (g.semaphore.callP_not_assertion t)),
    hrequire (bind_pure_assertion.not.mpr (Semaphore.State.resumeP_not_assertion h.semaphore t)),
    hrequire nofun,hrequire (bind_pure_assertion.not.mpr (h.lock.step_not_assertion (.release t)))⟩

end Guard

/-! The wrapper of a device that takes one request at a time. -/
namespace SynchDevice

variable {Thread Dev Request Answer : Type} [DecidableEq Thread]

/-- `request` schedules the interrupt that calls `done`.  A device that is not busy takes
every request. -/
structure Device (Dev Request Answer : Type) where
  request : Dev → Request → Except Fault (Answer × Dev)
  done : Dev → Dev
  Idle : Dev → Prop
  done_idle : ∀ d, Idle (done d)
  request_ok : ∀ d r, Idle d → ∃ answer, request d r = .ok answer

/-- `pending` holds the completion interrupts that are scheduled, by the number of the
request; `argument` and `result` belong to the call the thread is in.  The other fields are
ghosts: the number of the thread's request, the numbers of those completed, the requests in
the order of issue and the calls of each thread. -/
structure State (Thread Dev Request Answer : Type) where
  guard : Guard.State Thread
  device : Dev
  pending : List ℕ
  argument : Thread → Option Request
  result : Thread → Option Answer
  number : Thread → ℕ
  completed : List ℕ
  log : List (Thread × Request × Answer)
  calls : Thread → List Request

inductive Action (Thread Request : Type)
  | call (t : Thread) (r : Request) | resume (t : Thread) | setHolder (t : Thread)
  | request (t : Thread) | P (t : Thread) | resumeP (t : Thread) | release (t : Thread)
  | interrupt (n : ℕ)
  deriving DecidableEq, Repr

def new (d : Dev) : State Thread Dev Request Answer where
  guard := Guard.new
  device := d
  pending := []
  argument := fun _ => none
  result := fun _ => none
  number := fun _ => 0
  completed := []
  log := []
  calls := fun _ => []

variable (D : Device Dev Request Answer)

/-- The statement between `Acquire` and `P`. -/
def State.issue (s : State Thread Dev Request Answer) (t : Thread) :
    Except Fault (State Thread Dev Request Answer) := do
  let guard ← s.guard.before t
  match s.argument t with
  | none => .error .blocked
  | some r =>
    let (answer,device) ← D.request s.device r
    return { s with
      guard := guard
      device := device
      pending := s.pending ++ [s.log.length]
      result := Function.update s.result t (some answer)
      number := Function.update s.number t s.log.length
      log := s.log ++ [(t,r,answer)] }

def step (s : State Thread Dev Request Answer) :
    Action Thread Request → Except Fault (State Thread Dev Request Answer)
  | .call t r => do
    let guard ← s.guard.acquire t
    return { s with
      guard := guard
      argument := Function.update s.argument t (some r)
      calls := Function.update s.calls t (s.calls t ++ [r]) }
  | .resume t => do return { s with guard := ← s.guard.resume t }
  | .setHolder t => do return { s with guard := ← s.guard.setHolder t }
  | .request t => s.issue D t
  | .P t => do return { s with guard := ← s.guard.P t }
  | .resumeP t => do return { s with guard := ← s.guard.resumeP t }
  | .release t => do
    let guard ← s.guard.after t
    let guard ← guard.release t
    return { s with guard := guard, argument := Function.update s.argument t none }
  | .interrupt n => do
    require (n ∈ s.pending)
    return { s with
      guard := s.guard.V
      device := D.done s.device
      pending := s.pending.erase n
      completed := s.completed ++ [n] }

def machine (d : Dev) : Machine (State Thread Dev Request Answer) (Action Thread Request) where
  initial s := s = new d
  step := step D

namespace State

/-- The request of the call the thread is in, as long as it is not issued. -/
def unissued (s : State Thread Dev Request Answer) (t : Thread) : List Request :=
  if s.guard.point t = .entered then (s.argument t).toList else []

def issuedBy (s : State Thread Dev Request Answer) (t : Thread) : List Request :=
  (s.log.filter fun e => e.1 = t).map fun e => e.2.1

/-- No interrupt is scheduled and none has been handled that nobody waits for. -/
def Quiet (s : State Thread Dev Request Answer) : Prop := s.pending = [] ∧ s.guard.value = 0

/-- What is outstanding while the thread is at a point of its call. -/
def Outstanding (s : State Thread Dev Request Answer) (t : Thread) : Guard.Point → Prop
  | .entered => s.Quiet
  | .ready | .waiting => (s.pending = [s.number t] ∧ s.guard.value = 0) ∨
      (s.pending = [] ∧ s.guard.value = 1 ∧ s.number t ∈ s.completed)
  | .passed | .leaving => s.Quiet ∧ s.number t ∈ s.completed

/-- The thread's request is the last one that was issued. -/
def Latest (s : State Thread Dev Request Answer) (t : Thread) : Prop :=
  ∃ pre r answer, s.log = pre ++ [(t,r,answer)] ∧ s.number t = pre.length ∧
    s.argument t = some r ∧ s.result t = some answer

/-- Semaphore, pending interrupts and lock keep in step. -/
structure Inv (s : State Thread Dev Request Answer) : Prop where
  guard : s.guard.Inv
  argument : ∀ t, s.argument t = none ↔ s.guard.lock.loc t = .outside
  quiet : (∀ t, s.guard.point t = .entered) → s.Quiet
  outstanding : ∀ t, s.guard.point t ≠ .entered → s.Outstanding t (s.guard.point t)
  latest : ∀ t, s.guard.point t ≠ .entered → s.Latest t
  idle : s.pending = [] → D.Idle s.device
  order : ∀ t, s.issuedBy t ++ s.unissued t = s.calls t

variable {D} {s s' : State Thread Dev Request Answer} {t : Thread}

theorem inv_initial {d : Dev} (hd : D.Idle d) : (new d : State Thread Dev Request Answer).Inv D where
  guard := Guard.inv_initial
  argument t := by simp [new,Guard.new,Lock.new]
  quiet _ := ⟨rfl,rfl⟩
  outstanding t ht := absurd rfl ht
  latest t ht := absurd rfl ht
  idle _ := hd
  order t := by simp [new,issuedBy,unissued,Guard.new]

/-- While a thread is past its first statement, nothing is to be shown of the others. -/
theorem inv_of_inside (hguard : s.guard.Inv) (ht : s.guard.point t ≠ .entered)
    (hargument : ∀ u, s.argument u = none ↔ s.guard.lock.loc u = .outside)
    (houtstanding : s.Outstanding t (s.guard.point t)) (hlatest : s.Latest t)
    (hidle : s.pending = [] → D.Idle s.device)
    (horder : ∀ u, s.issuedBy u ++ s.unissued u = s.calls u) : s.Inv D where
  guard := hguard
  argument := hargument
  quiet h := absurd (h t) ht
  outstanding _ hu := hguard.unique ht hu ▸ houtstanding
  latest _ hu := hguard.unique ht hu ▸ hlatest
  idle := hidle
  order := horder

/-- Nothing is outstanding when a thread issues its request. -/
theorem Inv.quiet_of_entered (h : s.Inv D) (hloc : s.guard.lock.loc t = .inside)
    (ht : s.guard.point t = .entered) : s.Quiet := by
  refine h.quiet fun u => ?_
  by_cases hu : u = t
  · rw [hu]
    exact ht
  · exact h.guard.others hloc hu

/-- Sections of `Acquire`: the caller is not inside the lock. -/
theorem Inv.acquires {guard : Guard.State Thread} {argument : Thread → Option Request}
    {calls : Thread → List Request} (h : s.Inv D) (hguard : guard.Inv)
    (ha : Guard.Acquires s.guard guard t) (hother : ∀ u, u ≠ t → argument u = s.argument u)
    (hargument : argument t ≠ none)
    (horder : ∀ u, s.issuedBy u ++ unissued { s with argument := argument } u = calls u) :
    Inv D { s with guard := guard,argument := argument,calls := calls } := by
  obtain ⟨l,hloc,hl⟩ := ha.loc
  have hentered : s.guard.point t = .entered := by
    by_contra hne
    exact ha.notInside (h.guard.inside t hne)
  refine ⟨hguard,fun u => ?_,fun hq => ?_,fun u hu => ?_,fun u hu => ?_,h.idle,fun u => ?_⟩
  · by_cases hu : u = t
    · simp [hu,hloc,hl,hargument]
    · simp only [hother u hu,hloc,Function.update_of_ne hu]
      exact h.argument u
  · simp only [ha.point] at hq
    simp only [Quiet,Guard.State.value,ha.semaphore]
    exact h.quiet hq
  · simp only [ha.point] at hu ⊢
    have hold := h.outstanding u hu
    cases hp : s.guard.point u <;>
      simpa only [hp,Outstanding,Quiet,Guard.State.value,ha.semaphore] using hold
  · simp only [ha.point] at hu
    have hne : u ≠ t := by
      rintro rfl
      exact hu hentered
    simp only [Latest,hother u hne]
    exact h.latest u hu
  · simpa only [issuedBy,unissued,ha.point] using horder u

theorem Inv.call {guard : Guard.State Thread} (h : s.Inv D) (r : Request)
    (hs : s.guard.acquire t = .ok guard) : Inv D { s with
      guard := guard
      argument := Function.update s.argument t (some r)
      calls := Function.update s.calls t (s.calls t ++ [r]) } := by
  obtain ⟨hguard,hout,ha⟩ := Guard.acquire_spec h.guard hs
  refine h.acquires hguard ha (fun u hu => Function.update_of_ne hu _ _) (by simp) fun u => ?_
  have horder := h.order u
  by_cases hu : u = t
  · subst hu
    have hentered : s.guard.point u = .entered := by
      by_contra hne
      exact ha.notInside (h.guard.inside u hne)
    simp only [unissued,hentered,(h.argument u).mpr hout,if_true,Option.toList_none,
      List.append_nil] at horder
    simp only [unissued,hentered,if_true,Function.update_self,Option.toList_some,horder]
  · simp only [unissued,Function.update_of_ne hu]
    exact horder

/-- A request is issued: its interrupt is the only one that is scheduled. -/
theorem Inv.issue (h : s.Inv D) (hs : s.issue D t = .ok s') : s'.Inv D := by
  obtain ⟨guard,hguard,hs⟩ := bind_ok.mp hs
  obtain ⟨hinv,hmoves,hvalue⟩ := Guard.before_spec h.guard hguard
  cases hr : s.argument t with
  | none => simp [hr] at hs
  | some r =>
    simp only [hr] at hs
    obtain ⟨⟨answer,device⟩,_,he⟩ := bind_ok.mp hs
    cases he
    obtain ⟨hpending,hzero⟩ := h.quiet_of_entered hmoves.loc hmoves.source
    have hready : guard.point t = .ready := by rw [hmoves.point,Function.update_self]
    refine inv_of_inside (t := t) hinv (by simp [hready]) ?_ ?_ ?_ ?_ fun u => ?_
    · simp only [hmoves.lock]
      exact h.argument
    · simp only [hready,Outstanding,hpending,List.nil_append,Function.update_self]
      exact Or.inl ⟨trivial,hvalue.trans hzero⟩
    · exact ⟨s.log,r,answer,rfl,by simp,hr,by simp⟩
    · simp [hpending]
    · rw [← h.order u]
      by_cases hu : u = t
      · simp [hu,issuedBy,unissued,hready,hmoves.source,hr]
      · simp [issuedBy,unissued,hmoves.point,hu,Ne.symm hu]

theorem Inv.passes {guard : Guard.State Thread} (h : s.Inv D) (hguard : guard.Inv)
    (hp : Guard.Passes s.guard guard t) : Inv D { s with guard := guard } := by
  have hne : s.guard.point t ≠ .entered := by
    rcases hp.source with hp | hp <;> simp [hp]
  have hold : s.Outstanding t .waiting := by
    have hold := h.outstanding t hne
    rcases hp.source with hp | hp <;> rwa [hp] at hold
  have hargument : ∀ u, s.argument u = none ↔ guard.lock.loc u = .outside := by
    rw [hp.lock]
    exact h.argument
  have horder : ∀ {p}, p ≠ .entered → guard.point = Function.update s.guard.point t p →
      ∀ u, issuedBy { s with guard := guard } u ++ unissued { s with guard := guard } u =
        s.calls u := by
    intro p hp' hpoint u
    rw [← h.order u]
    by_cases hu : u = t
    · simp only [unissued,hpoint,hu,Function.update_self,if_neg hp',if_neg hne]
      rfl
    · simp only [unissued,hpoint,Function.update_of_ne hu]
      rfl
  rcases hp.cases with ⟨hv,hv',hpoint⟩ | ⟨hv,hv',hpoint⟩
  · have hwaiting : guard.point t = .waiting := by rw [hpoint,Function.update_self]
    refine inv_of_inside (t := t) hguard (by simp [hwaiting]) hargument ?_ (h.latest t hne) h.idle
      (horder (by decide) hpoint)
    simp only [hwaiting,Outstanding]
    rw [show guard.value = s.guard.value from hv'.trans hv.symm]
    exact hold
  · have hpassed : guard.point t = .passed := by rw [hpoint,Function.update_self]
    refine inv_of_inside (t := t) hguard (by simp [hpassed]) hargument ?_ (h.latest t hne) h.idle
      (horder (by decide) hpoint)
    simp only [hpassed,Outstanding]
    rcases hold with ⟨_,hzero⟩ | ⟨hpending,hone,hcompleted⟩
    · exact absurd hzero hv
    · exact ⟨⟨hpending,by rw [hv',hone]; norm_num⟩,hcompleted⟩

/-- The call returns. -/
theorem Inv.release {g₁ g₂ : Guard.State Thread} (h : s.Inv D) (hafter : s.guard.after t = .ok g₁)
    (hrelease : g₁.release t = .ok g₂) :
    Inv D { s with guard := g₂,argument := Function.update s.argument t none } := by
  obtain ⟨hinv₁,hmoves,hvalue₁⟩ := Guard.after_spec h.guard hafter
  obtain ⟨hinv₂,_,hvalue₂,hloc₂,hpoint₂⟩ := Guard.release_spec hinv₁ hrelease
  have hne : s.guard.point t ≠ .entered := by simp [hmoves.source]
  have hentered : ∀ u, g₂.point u = .entered := by
    intro u
    by_cases hu : u = t
    · rw [hpoint₂,hu,Function.update_self]
    · rw [hpoint₂,hmoves.point,Function.update_of_ne hu,Function.update_of_ne hu]
      exact h.guard.others hmoves.loc hu
  have hold := h.outstanding t hne
  rw [hmoves.source] at hold
  refine ⟨hinv₂,fun u => ?_,fun _ => ?_,fun u hu => absurd (hentered u) hu,
    fun u hu => absurd (hentered u) hu,h.idle,fun u => ?_⟩
  · simp only [hloc₂,hmoves.lock]
    by_cases hu : u = t
    · simp [hu]
    · simp only [Function.update_of_ne hu]
      exact h.argument u
  · exact ⟨hold.1.1,(hvalue₂.trans hvalue₁).trans hold.1.2⟩
  · rw [← h.order u]
    by_cases hu : u = t
    · simp [hu,unissued,hentered,hne,issuedBy]
    · simp [hu,unissued,hentered,h.guard.others hmoves.loc hu,issuedBy]

/-- The interrupt that is handled is the one of the request that is waited for. -/
theorem Inv.interrupt {n : ℕ} (h : s.Inv D) (hn : n ∈ s.pending) : Inv D { s with
      guard := s.guard.V
      device := D.done s.device
      pending := s.pending.erase n
      completed := s.completed ++ [n] } := by
  obtain ⟨t,ht⟩ : ∃ t, s.guard.point t ≠ .entered := by
    by_contra hall
    push Not at hall
    rw [(h.quiet hall).1] at hn
    cases hn
  -- its thread has not been woken yet
  have hwaits : (s.guard.point t = .ready ∨ s.guard.point t = .waiting) ∧
      s.pending = [s.number t] ∧ s.guard.value = 0 := by
    have hold := h.outstanding t ht
    cases hp : s.guard.point t with
    | entered => exact absurd hp ht
    | passed | leaving =>
      simp only [hp,Outstanding,Quiet] at hold
      rw [hold.1.1] at hn
      cases hn
    | ready | waiting =>
      simp only [hp,Outstanding] at hold
      rcases hold with hold | ⟨hpending,_⟩
      · exact ⟨by simp,hold⟩
      · rw [hpending] at hn
        cases hn
  obtain ⟨hpoint,hpending,hzero⟩ := hwaits
  obtain ⟨hguard,hvalue⟩ := Guard.V_spec h.guard hzero
  rw [hpending,List.mem_singleton] at hn
  refine inv_of_inside (t := t) hguard ht h.argument ?_ (h.latest t ht) (fun _ => D.done_idle _)
    h.order
  change Outstanding _ t (s.guard.point t)
  rcases hpoint with hp | hp
  · rw [hp]
    exact Or.inr ⟨by simp [hpending,hn],hvalue,by simp [hn]⟩
  · rw [hp]
    exact Or.inr ⟨by simp [hpending,hn],hvalue,by simp [hn]⟩

theorem inv_step {a : Action Thread Request} (h : s.Inv D) (hs : step D s a = .ok s') :
    s'.Inv D := by
  cases a with
  | call t r =>
    obtain ⟨guard,hguard,he⟩ := bind_ok.mp hs
    cases he
    exact h.call r hguard
  | resume t =>
    obtain ⟨guard,hguard,he⟩ := bind_ok.mp hs
    cases he
    obtain ⟨hinv,hout,ha⟩ := Guard.resume_spec h.guard hguard
    exact h.acquires hinv ha (fun _ _ => rfl) (fun hn => hout ((h.argument t).mp hn)) h.order
  | setHolder t =>
    obtain ⟨guard,hguard,he⟩ := bind_ok.mp hs
    cases he
    obtain ⟨hinv,hout,ha⟩ := Guard.setHolder_spec h.guard hguard
    exact h.acquires hinv ha (fun _ _ => rfl) (fun hn => hout ((h.argument t).mp hn)) h.order
  | request t => exact h.issue hs
  | P t =>
    obtain ⟨guard,hguard,he⟩ := bind_ok.mp hs
    cases he
    obtain ⟨hinv,hp⟩ := Guard.P_spec h.guard hguard
    exact h.passes hinv hp
  | resumeP t =>
    obtain ⟨guard,hguard,he⟩ := bind_ok.mp hs
    cases he
    obtain ⟨hinv,hp⟩ := Guard.resumeP_spec h.guard hguard
    exact h.passes hinv hp
  | release t =>
    obtain ⟨g₁,hafter,hs⟩ := bind_ok.mp hs
    obtain ⟨g₂,hrelease,he⟩ := bind_ok.mp hs
    cases he
    exact h.release hafter hrelease
  | interrupt n =>
    obtain ⟨hn,he⟩ := require_bind_ok.mp hs
    cases he
    exact h.interrupt hn

end State

open State

variable {D} {s s' : State Thread Dev Request Answer}

theorem reachable_inv {d : Dev} (hd : D.Idle d) (h : (machine D d).Reachable s) : s.Inv D :=
  h.invariant (fun _ hi => hi ▸ inv_initial hd) fun _ _ _ => inv_step

/-- What one step does to the device and to the requests issued. -/
theorem device_step {a : Action Thread Request} (h : step D s a = .ok s') :
    (s'.log = s.log ∧ (s'.device = s.device ∨ s'.device = D.done s.device)) ∨
    ∃ t r answer, D.request s.device r = .ok (answer,s'.device) ∧
      s'.log = s.log ++ [(t,r,answer)] := by
  cases a with
  | call t r =>
    obtain ⟨guard,_,he⟩ := bind_ok.mp h
    cases he
    exact Or.inl ⟨rfl,Or.inl rfl⟩
  | resume t | setHolder t | P t | resumeP t =>
    obtain ⟨guard,_,he⟩ := bind_ok.mp h
    cases he
    exact Or.inl ⟨rfl,Or.inl rfl⟩
  | request t =>
    obtain ⟨guard,_,h⟩ := bind_ok.mp h
    cases hr : s.argument t with
    | none => simp [hr] at h
    | some r =>
      simp only [hr] at h
      obtain ⟨⟨answer,device⟩,hrequest,he⟩ := bind_ok.mp h
      cases he
      exact Or.inr ⟨t,r,answer,hrequest,rfl⟩
  | release t =>
    obtain ⟨g₁,_,h⟩ := bind_ok.mp h
    obtain ⟨g₂,_,he⟩ := bind_ok.mp h
    cases he
    exact Or.inl ⟨rfl,Or.inl rfl⟩
  | interrupt n =>
    obtain ⟨_,he⟩ := require_bind_ok.mp h
    cases he
    exact Or.inl ⟨rfl,Or.inr rfl⟩

/-- What a request and the interrupt preserve holds of the device and the requests issued,
for every interleaving of the callers. -/
theorem device_invariant {d : Dev} {R : Dev → List (Thread × Request × Answer) → Prop}
    (hnew : R d []) (hdone : ∀ d log, R d log → R (D.done d) log)
    (hrequest : ∀ d log t r answer d', R d log → D.request d r = .ok (answer,d') →
      R d' (log ++ [(t,r,answer)]))
    (h : (machine D d).Reachable s) : R s.device s.log := by
  refine h.invariant (P := fun s => R s.device s.log) (fun _ hi => hi ▸ hnew)
    fun s a s' hs hstep => ?_
  rcases device_step hstep with ⟨hlog,hdev | hdev⟩ | ⟨t,r,answer,hr,hlog⟩
  · rw [hlog,hdev]
    exact hs
  · rw [hlog,hdev]
    exact hdone _ _ hs
  · rw [hlog]
    exact hrequest _ _ t r answer _ hs hr

/-- No assertion of the lock, the semaphore or the device fails. -/
theorem State.Inv.step_not_assertion (h : s.Inv D) (a : Action Thread Request) :
    step D s a ≠ .error .assertion := by
  cases a with
  | call t r => exact bind_pure_assertion.not.mpr (h.guard.not_assertion t).1
  | resume t => exact bind_pure_assertion.not.mpr (h.guard.not_assertion t).2.1
  | setHolder t => exact bind_pure_assertion.not.mpr (h.guard.not_assertion t).2.2.1
  | request t =>
    intro hs
    rcases bind_assertion.mp hs with hs | ⟨guard,hguard,hs⟩
    · exact (h.guard.not_assertion t).2.2.2.1 hs
    · obtain ⟨_,hmoves,_⟩ := Guard.before_spec h.guard hguard
      cases hr : s.argument t with
      | none => simp [hr] at hs
      | some r =>
        obtain ⟨answer,hanswer⟩ := D.request_ok s.device r
          (h.idle (h.quiet_of_entered hmoves.loc hmoves.source).1)
        simp only [hr,hanswer] at hs
        cases hs
  | P t => exact bind_pure_assertion.not.mpr (h.guard.not_assertion t).2.2.2.2.1
  | resumeP t => exact bind_pure_assertion.not.mpr (h.guard.not_assertion t).2.2.2.2.2.1
  | release t =>
    intro hs
    rcases bind_assertion.mp hs with hs | ⟨g₁,hafter,hs⟩
    · exact (h.guard.not_assertion t).2.2.2.2.2.2.1 hs
    · have hinv := (Guard.after_spec h.guard hafter).1
      exact bind_pure_assertion.not.mpr (hinv.not_assertion t).2.2.2.2.2.2.2 hs
  | interrupt n =>
    intro hs
    cases (require_bind_assertion.mp hs).2

/-- At most one request is outstanding, and the semaphore counts at most its completion. -/
theorem State.Inv.bounds (h : s.Inv D) :
    s.pending.length ≤ 1 ∧ 0 ≤ s.guard.value ∧ s.guard.value ≤ 1 := by
  by_cases hall : ∀ t, s.guard.point t = .entered
  · obtain ⟨hpending,hvalue⟩ := h.quiet hall
    simp [hpending,hvalue]
  · push Not at hall
    obtain ⟨t,ht⟩ := hall
    have hold := h.outstanding t ht
    cases hp : s.guard.point t with
    | entered => exact absurd hp ht
    | passed | leaving =>
      rw [hp] at hold
      obtain ⟨⟨hpending,hvalue⟩,_⟩ := hold
      simp [hpending,hvalue]
    | ready | waiting =>
      rw [hp] at hold
      rcases hold with ⟨hpending,hvalue⟩ | ⟨hpending,hvalue,_⟩ <;> simp [hpending,hvalue]

/-- A call returns with the answer of the last request issued, its own, after the interrupt
of that request. -/
theorem State.Inv.returns (h : s.Inv D) {t : Thread} (hs : step D s (.release t) = .ok s') :
    s.number t ∈ s.completed ∧ s.Latest t := by
  obtain ⟨g₁,hafter,hs⟩ := bind_ok.mp hs
  obtain ⟨_,hmoves,_⟩ := Guard.after_spec h.guard hafter
  have hne : s.guard.point t ≠ .entered := by simp [hmoves.source]
  have hold := h.outstanding t hne
  rw [hmoves.source] at hold
  exact ⟨hold.2,h.latest t hne⟩

/-- The requests of a thread are issued once each, in the order of its calls. -/
theorem State.Inv.issued_prefix (h : s.Inv D) (t : Thread) : s.issuedBy t <+: s.calls t :=
  ⟨s.unissued t,h.order t⟩

theorem State.Inv.issued_all (h : s.Inv D) {t : Thread} (ht : s.argument t = none) :
    s.issuedBy t = s.calls t := by
  rw [← h.order t]
  simp [unissued,ht]

end SynchDevice
end NachOS
