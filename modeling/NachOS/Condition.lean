import NachOS.Lock

/-! `Condition::Wait`, `Signal` and `Broadcast` (threads/synch.cc) over one lock.
`Wait` allocates a semaphore of its own, queues it, releases the lock, sleeps on the
semaphore and re-acquires the lock; all of these are separate sections.  Semaphores
are named by the number of the `Wait` call that allocated them, so a smaller number
means a longer wait. -/
namespace NachOS
namespace Condition

open StateMachine KernelList

variable {Thread : Type} [DecidableEq Thread]

/-- How far a thread is in `Wait`: the lock is released but `waiter->P()` not reached,
asleep in it, woken but not yet run, or past it with the lock still to be acquired. -/
inductive Phase
  | none | pending (w : ℕ) | asleep (w : ℕ) | ready (w : ℕ) | passed (w : ℕ)
  deriving DecidableEq, Repr

def Phase.waiter : Phase → Option ℕ
  | .none => Option.none
  | .pending w | .asleep w | .ready w | .passed w => some w

/-- `Acquire` is called outside `Wait`, or by `Wait` once its `P` has returned. -/
def Phase.MayAcquire : Phase → Prop
  | .none | .passed _ => True
  | .pending _ | .asleep _ | .ready _ => False

instance (p : Phase) : Decidable p.MayAcquire := by
  cases p <;> unfold Phase.MayAcquire <;> infer_instance

/-- `broadcasting t` is set while `t` is in the loop of `Broadcast`: the queue at the
call and the waiters this call has released so far.  `vCount` is a ghost. -/
structure State (Thread : Type) where
  lock : Lock.State Thread
  waitQueue : List ℕ
  waiter : ℕ → Option (Semaphore Thread)
  phase : Thread → Phase
  nextWaiter : ℕ
  broadcasting : Thread → Option (List ℕ × List ℕ)
  vCount : ℕ → ℕ

def new : State Thread :=
  ⟨Lock.new,[],fun _ => none,fun _ => .none,0,fun _ => none,fun _ => 0⟩

namespace State

/-- The thread holds the lock and is between two calls. -/
def Free (s : State Thread) (t : Thread) : Prop :=
  s.lock.loc t = .inside ∧ s.phase t = .none ∧ s.broadcasting t = none

instance (s : State Thread) (t : Thread) : Decidable (s.Free t) :=
  inferInstanceAs (Decidable (_ ∧ _))

/-- `Wait` up to the end of `conditionLock->Release()`. -/
def wait (s : State Thread) (t : Thread) : Except Fault (State Thread) := do
  require (s.Free t)
  check (s.lock.IsHeldByCurrentThread t)
  let w := s.nextWaiter
  let waitQueue ← append s.waitQueue w
  let lock ← s.lock.release t
  return { s with
    lock := lock
    waitQueue := waitQueue
    waiter := Function.update s.waiter w (some (Semaphore.new 0))
    phase := Function.update s.phase t (.pending w)
    nextWaiter := w + 1 }

/-- One pass of `waiter->P()`; using a deleted semaphore counts as a failure. -/
def waiterPass (s : State Thread) (t : Thread) (w : ℕ) : Except Fault (State Thread) :=
  match s.waiter w with
  | none => .error .assertion
  | some sem => do
    let (sem,through) ← sem.P t
    return { s with
      waiter := Function.update s.waiter w (some sem)
      phase := Function.update s.phase t (if through then .passed w else .asleep w) }

def waiterP (s : State Thread) (t : Thread) : Except Fault (State Thread) :=
  match s.phase t with
  | .pending w => s.waiterPass t w
  | _ => .error .blocked

def waiterResume (s : State Thread) (t : Thread) : Except Fault (State Thread) :=
  match s.phase t with
  | .ready w => s.waiterPass t w
  | _ => .error .blocked

def acquire (s : State Thread) (t : Thread) : Except Fault (State Thread) := do
  require (s.phase t).MayAcquire
  return { s with lock := ← s.lock.acquire t }

def resume (s : State Thread) (t : Thread) : Except Fault (State Thread) := do
  return { s with lock := ← s.lock.resume t }

/-- The end of `Acquire`; inside `Wait` it is followed by `delete waiter`. -/
def setHolder (s : State Thread) (t : Thread) : Except Fault (State Thread) := do
  let lock ← s.lock.setHolder t
  match s.phase t with
  | .passed w => return { s with
      lock := lock
      waiter := Function.update s.waiter w none
      phase := Function.update s.phase t .none }
  | _ => return { s with lock := lock }

def release (s : State Thread) (t : Thread) : Except Fault (State Thread) := do
  require (s.Free t)
  return { s with lock := ← s.lock.release t }

/-- The body of `Signal` for the thread `t`. -/
def signalBody (s : State Thread) (t : Thread) : Except Fault (State Thread) := do
  check (s.lock.IsHeldByCurrentThread t)
  match s.waitQueue with
  | [] => return s
  | w :: waitQueue =>
    match s.waiter w with
    | none => .error .assertion
    | some sem => return { s with
        waitQueue := waitQueue
        waiter := Function.update s.waiter w (some sem.V.1)
        phase := match sem.V.2 with
          | none => s.phase
          | some u => Function.update s.phase u (.ready w)
        vCount := Function.update s.vCount w (s.vCount w + 1) }

def signal (s : State Thread) (t : Thread) : Except Fault (State Thread) := do
  require (s.Free t)
  s.signalBody t

def broadcast (s : State Thread) (t : Thread) : Except Fault (State Thread) := do
  require (s.Free t)
  return { s with broadcasting := Function.update s.broadcasting t (some (s.waitQueue,[])) }

/-- One test of the loop in `Broadcast`, with the `Signal` it leads to. -/
def broadcastLoop (s : State Thread) (t : Thread) : Except Fault (State Thread) :=
  match s.broadcasting t, s.waitQueue with
  | none, _ => .error .blocked
  | some _, [] => return { s with broadcasting := Function.update s.broadcasting t none }
  | some (q,released), w :: _ => do
    let s' ← s.signalBody t
    return { s' with
      broadcasting := Function.update s'.broadcasting t (some (q,released ++ [w])) }

end State

inductive Action (Thread : Type)
  | acquire (t : Thread) | resume (t : Thread) | setHolder (t : Thread) | release (t : Thread)
  | wait (t : Thread) | waiterP (t : Thread) | waiterResume (t : Thread)
  | signal (t : Thread) | broadcast (t : Thread) | broadcastLoop (t : Thread)
  deriving DecidableEq, Repr

def step (s : State Thread) : Action Thread → Except Fault (State Thread)
  | .acquire t => s.acquire t
  | .resume t => s.resume t
  | .setHolder t => s.setHolder t
  | .release t => s.release t
  | .wait t => s.wait t
  | .waiterP t => s.waiterP t
  | .waiterResume t => s.waiterResume t
  | .signal t => s.signal t
  | .broadcast t => s.broadcast t
  | .broadcastLoop t => s.broadcastLoop t

def machine : Machine (State Thread) (Action Thread) where
  initial s := s = new
  step := step

namespace State

/-- What the phase of a thread says about its semaphore.  A pending waiter that has
left the queue owns a unit, so its `P` will not sleep. -/
def PhaseOk (s : State Thread) (t : Thread) : Prop :=
  match s.phase t with
  | .none => True
  | .pending w => w < s.nextWaiter ∧
      s.waiter w = some ⟨if w ∈ s.waitQueue then 0 else 1,[]⟩ ∧ s.lock.loc t = .outside
  | .asleep w => w < s.nextWaiter ∧ w ∈ s.waitQueue ∧ s.waiter w = some ⟨0,[t]⟩ ∧
      s.lock.loc t = .outside
  | .ready w => w < s.nextWaiter ∧ w ∉ s.waitQueue ∧ s.waiter w = some ⟨1,[]⟩ ∧
      s.lock.loc t = .outside
  | .passed w => w < s.nextWaiter ∧ w ∉ s.waitQueue ∧ s.waiter w = some ⟨0,[]⟩ ∧
      s.lock.loc t ≠ .inside

structure Inv (s : State Thread) : Prop where
  lock : s.lock.Inv
  sorted : s.waitQueue.Pairwise (· < ·)
  fresh : ∀ w, s.nextWaiter ≤ w → s.waiter w = none ∧ s.vCount w = 0 ∧ w ∉ s.waitQueue
  queued : ∀ w ∈ s.waitQueue, ∃ t, s.phase t = .pending w ∨ s.phase t = .asleep w
  count : ∀ w, w < s.nextWaiter → s.vCount w = if w ∈ s.waitQueue then 0 else 1
  phases : ∀ t, s.PhaseOk t
  unique : ∀ t u w, (s.phase t).waiter = some w → (s.phase u).waiter = some w → t = u
  alloc : ∀ w, s.waiter w ≠ none → ∃ t, (s.phase t).waiter = some w
  loop : ∀ t q d, s.broadcasting t = some (q,d) →
    s.lock.loc t = .inside ∧ q = d ++ s.waitQueue

variable {s s' : State Thread} {t u : Thread} {w : ℕ}

omit [DecidableEq Thread] in
/-- A thread whose own waiter and lock position are untouched keeps its facts. -/
theorem PhaseOk.congr (h : s.PhaseOk t) (hp : s'.phase t = s.phase t)
    (hn : s.nextWaiter ≤ s'.nextWaiter)
    (hw : ∀ w, (s.phase t).waiter = some w →
      (w ∈ s'.waitQueue ↔ w ∈ s.waitQueue) ∧ s'.waiter w = s.waiter w)
    (hl : s'.lock.loc t = s.lock.loc t) : s'.PhaseOk t := by
  unfold PhaseOk at h ⊢
  rw [hp]
  cases hc : s.phase t with
  | none => trivial
  | pending w =>
    simp only [hc] at h
    have hww := hw w (by simp [hc,Phase.waiter])
    refine ⟨by omega,?_,by rw [hl]; exact h.2.2⟩
    rw [hww.2,h.2.1]
    simp only [hww.1]
  | asleep w =>
    simp only [hc] at h
    have hww := hw w (by simp [hc,Phase.waiter])
    exact ⟨by omega,hww.1.mpr h.2.1,by rw [hww.2]; exact h.2.2.1,by rw [hl]; exact h.2.2.2⟩
  | ready w =>
    simp only [hc] at h
    have hww := hw w (by simp [hc,Phase.waiter])
    exact ⟨by omega,fun hm => h.2.1 (hww.1.mp hm),by rw [hww.2]; exact h.2.2.1,
      by rw [hl]; exact h.2.2.2⟩
  | passed w =>
    simp only [hc] at h
    have hww := hw w (by simp [hc,Phase.waiter])
    exact ⟨by omega,fun hm => h.2.1 (hww.1.mp hm),by rw [hww.2]; exact h.2.2.1,
      by rw [hl]; exact h.2.2.2⟩

omit [DecidableEq Thread] in
/-- The thread inside the lock is in no phase of `Wait`. -/
theorem Inv.phase_of_inside (h : Inv s) (hl : s.lock.loc t = .inside) : s.phase t = .none := by
  have hp := h.phases t
  unfold PhaseOk at hp
  cases hc : s.phase t <;> simp_all

omit [DecidableEq Thread] in
/-- A thread past `outside` is not in the sleeping part of `Wait`. -/
theorem Inv.phase_of_not_outside (h : Inv s) (hl : s.lock.loc t ≠ .outside) :
    s.phase t = .none ∨ ∃ w, s.phase t = .passed w := by
  have hp := h.phases t
  unfold PhaseOk at hp
  cases hc : s.phase t <;> simp_all

omit [DecidableEq Thread] in
/-- While a thread outside every call holds the lock, nobody is in `Broadcast`. -/
theorem Inv.no_broadcast (h : Inv s) (hf : s.Free t) (u : Thread) : s.broadcasting u = none := by
  cases hb : s.broadcasting u with
  | none => rfl
  | some r =>
    have hu := (h.loop u r.1 r.2 hb).1
    have he := h.lock.owner_unique (Or.inr hu) (Or.inr hf.1)
    rw [he,hf.2.2] at hb
    simp at hb

/-- Only the lock changed, and only for a thread that is not broadcasting. -/
theorem Inv.lockStep (h : Inv s) {lock : Lock.State Thread} (hlock : lock.Inv)
    (hother : ∀ u, u ≠ t → lock.loc u = s.lock.loc u)
    (ht : { s with lock := lock }.PhaseOk t) (hb : s.broadcasting t = none) :
    Inv { s with lock := lock } := by
  refine ⟨hlock,h.sorted,h.fresh,h.queued,h.count,?_,h.unique,h.alloc,?_⟩
  · intro u
    by_cases hu : u = t
    · exact hu ▸ ht
    · exact (h.phases u).congr rfl le_rfl (fun w _ => ⟨Iff.rfl,rfl⟩) (hother u hu)
  · intro u q d hq
    have hu : u ≠ t := fun he => by rw [he,hb] at hq; simp at hq
    have hl := h.loop u q d hq
    exact ⟨by rw [hother u hu]; exact hl.1,hl.2⟩

omit [DecidableEq Thread] in
theorem Inv.not_broadcasting (h : Inv s) (hl : s.lock.loc t ≠ .inside) :
    s.broadcasting t = none := by
  cases hb : s.broadcasting t with
  | none => rfl
  | some r => exact absurd (h.loop t r.1 r.2 hb).1 hl

theorem Inv.acquire (h : Inv s) (hs : s.acquire t = .ok s') : Inv s' := by
  obtain ⟨hmay,hs⟩ := require_bind_ok.mp hs
  obtain ⟨lock,hlock,he⟩ := bind_ok.mp hs
  cases he
  obtain ⟨hout,l,hl,hloc⟩ := Lock.State.acquire_loc hlock
  have hp := h.phases t
  refine h.lockStep (t := t) (h.lock.acquire hlock) (fun u hu => by simp [hloc,hu]) ?_
    (h.not_broadcasting (by simp [hout]))
  have hne : lock.loc t ≠ .inside := by rcases hl with rfl | rfl <;> simp [hloc]
  unfold PhaseOk at hp ⊢
  cases hc : s.phase t <;> simp_all [Phase.MayAcquire]

theorem Inv.resume (h : Inv s) (hs : s.resume t = .ok s') : Inv s' := by
  obtain ⟨lock,hlock,he⟩ := bind_ok.mp hs
  cases he
  obtain ⟨hacq,l,hl,hloc⟩ := Lock.State.resume_loc hlock
  have hp := h.phases t
  refine h.lockStep (t := t) (h.lock.resume hlock) (fun u hu => by simp [hloc,hu]) ?_
    (h.not_broadcasting (by simp [hacq]))
  have hne : lock.loc t ≠ .inside := by rcases hl with rfl | rfl <;> simp [hloc]
  unfold PhaseOk at hp ⊢
  cases hc : s.phase t <;> simp_all

theorem Inv.release (h : Inv s) (hs : s.release t = .ok s') : Inv s' := by
  obtain ⟨hf,hs⟩ := require_bind_ok.mp hs
  obtain ⟨lock,hlock,he⟩ := bind_ok.mp hs
  cases he
  have hinv := h.lock.release hlock
  obtain ⟨_,_,rfl⟩ := Lock.State.release_ok.mp hlock
  refine h.lockStep (t := t) hinv (fun u hu => by simp [hu]) ?_ hf.2.2
  simp [PhaseOk,hf.2.1]

theorem setHolder_cases (hs : s.setHolder t = .ok s') :
    ∃ lock, s.lock.setHolder t = .ok lock ∧
      ((∃ w, s.phase t = .passed w ∧ s' = { s with
          lock := lock
          waiter := Function.update s.waiter w none
          phase := Function.update s.phase t .none }) ∨
        ((∀ w, s.phase t ≠ .passed w) ∧ s' = { s with lock := lock })) := by
  obtain ⟨lock,hlock,he⟩ := bind_ok.mp hs
  refine ⟨lock,hlock,?_⟩
  cases hc : s.phase t <;> simp only [hc] at he <;> cases he
  case passed w => exact Or.inl ⟨w,rfl,rfl⟩
  all_goals exact Or.inr ⟨by simp,rfl⟩

theorem Inv.setHolder (h : Inv s) (hs : s.setHolder t = .ok s') : Inv s' := by
  obtain ⟨lock,hlock,hc⟩ := setHolder_cases hs
  have hinv := h.lock.setHolder hlock
  obtain ⟨hacq,rfl⟩ := Lock.State.setHolder_ok.mp hlock
  have hb := h.not_broadcasting (t := t) (by simp [hacq])
  rcases hc with ⟨w,hw,rfl⟩ | ⟨hw,rfl⟩
  · have hp := h.phases t
    simp only [PhaseOk,hw] at hp
    have hne : ∀ u, u ≠ t → (s.phase u).waiter ≠ some w := fun u hu he =>
      hu (h.unique u t w he (by simp [hw,Phase.waiter]))
    refine ⟨hinv,h.sorted,?_,?_,h.count,?_,?_,?_,?_⟩
    · intro v hv
      simp only at hv
      have hvw : v ≠ w := by omega
      simpa [hvw] using h.fresh v hv
    · intro v hv
      obtain ⟨u,hu⟩ := h.queued v hv
      have hut : u ≠ t := fun he => by simp [he,hw] at hu
      exact ⟨u,by simpa [hut] using hu⟩
    · intro u
      by_cases hu : u = t
      · simp [PhaseOk,hu]
      · refine (h.phases u).congr (by simp [hu]) le_rfl (fun v hv => ⟨Iff.rfl,?_⟩) (by simp [hu])
        have : v ≠ w := fun he => hne u hu (he ▸ hv)
        simp [this]
    · intro a b v ha hb'
      by_cases hat : a = t
      · simp [hat,Phase.waiter] at ha
      · by_cases hbt : b = t
        · simp [hbt,Phase.waiter] at hb'
        · exact h.unique a b v (by simpa [hat] using ha) (by simpa [hbt] using hb')
    · intro v hv
      have hvw : v ≠ w := fun he => by simp [he] at hv
      obtain ⟨u,hu⟩ := h.alloc v (by simpa [hvw] using hv)
      have hut : u ≠ t := fun he => by
        rw [he,hw] at hu
        exact hvw (by simpa [Phase.waiter] using hu.symm)
      exact ⟨u,by simpa [hut] using hu⟩
    · intro u q d hq
      have hu : u ≠ t := fun he => by simp [he,hb] at hq
      simpa [hu] using h.loop u q d hq
  · refine h.lockStep (t := t) hinv (fun u hu => by simp [hu]) ?_ hb
    have hp := h.phase_of_not_outside (t := t) (by simp [hacq])
    rcases hp with hp | ⟨w,hp⟩
    · simp [PhaseOk,hp]
    · exact absurd hp (hw w)

theorem wait_ok (hs : s.wait t = .ok s') :
    s.Free t ∧ s.nextWaiter ∉ s.waitQueue ∧ ∃ lock, s.lock.release t = .ok lock ∧ s' = { s with
      lock := lock
      waitQueue := s.waitQueue ++ [s.nextWaiter]
      waiter := Function.update s.waiter s.nextWaiter (some (Semaphore.new 0))
      phase := Function.update s.phase t (.pending s.nextWaiter)
      nextWaiter := s.nextWaiter + 1 } := by
  obtain ⟨hf,hs⟩ := require_bind_ok.mp hs
  obtain ⟨_,hs⟩ := check_bind_ok.mp hs
  obtain ⟨q,hq,hs⟩ := bind_ok.mp hs
  obtain ⟨hn,rfl⟩ := append_ok.mp hq
  obtain ⟨lock,hlock,he⟩ := bind_ok.mp hs
  cases he
  exact ⟨hf,hn,lock,hlock,rfl⟩

omit [DecidableEq Thread] in
/-- Waiters of threads are older than the next one to be allocated. -/
theorem Inv.waiter_lt (h : Inv s) (hw : (s.phase t).waiter = some w) : w < s.nextWaiter := by
  have hp := h.phases t
  unfold PhaseOk at hp
  cases hc : s.phase t <;> simp_all [Phase.waiter]

theorem Inv.wait (h : Inv s) (hs : s.wait t = .ok s') : Inv s' := by
  obtain ⟨hf,hn,lock,hlock,rfl⟩ := wait_ok hs
  have hinv := h.lock.release hlock
  obtain ⟨_,_,rfl⟩ := Lock.State.release_ok.mp hlock
  have hold : ∀ v ∈ s.waitQueue, v < s.nextWaiter := by
    intro v hv
    obtain ⟨u,hu⟩ := h.queued v hv
    apply h.waiter_lt (t := u)
    rcases hu with hu | hu <;> simp [hu,Phase.waiter]
  refine ⟨hinv,?_,?_,?_,?_,?_,?_,?_,?_⟩
  · apply List.pairwise_append.mpr
    exact ⟨h.sorted,by simp,fun a ha b hb => by simpa [List.mem_singleton.mp hb] using hold a ha⟩
  · intro v hv
    simp only at hv
    have hvw : v ≠ s.nextWaiter := by omega
    simpa [hvw] using h.fresh v (by omega)
  · intro v hv
    rcases List.mem_append.mp hv with hv | hv
    · obtain ⟨u,hu⟩ := h.queued v hv
      have hut : u ≠ t := fun he => by simp [he,hf.2.1] at hu
      exact ⟨u,by simpa [hut] using hu⟩
    · exact ⟨t,Or.inl (by simp [List.mem_singleton.mp hv])⟩
  · intro v hv
    simp only at hv
    by_cases hvw : v = s.nextWaiter
    · simpa [hvw] using (h.fresh _ le_rfl).2.1
    · simpa [hvw] using h.count v (by omega)
  · intro u
    by_cases hu : u = t
    · simp [PhaseOk,hu,Semaphore.new]
    · refine (h.phases u).congr (by simp [hu]) (by simp) (fun v hv => ?_) (by simp [hu])
      have : v ≠ s.nextWaiter := by have := h.waiter_lt hv; omega
      simp [this]
  · have hnew : ∀ a, a ≠ t → (s.phase a).waiter ≠ some s.nextWaiter := fun a _ he =>
      absurd (h.waiter_lt he) (lt_irrefl _)
    intro a b v ha hb
    by_cases hat : a = t <;> by_cases hbt : b = t
    · rw [hat,hbt]
    · have he : v = s.nextWaiter := by simpa [hat,Phase.waiter,eq_comm] using ha
      exact absurd (by simpa [hbt,he] using hb) (hnew b hbt)
    · have he : v = s.nextWaiter := by simpa [hbt,Phase.waiter,eq_comm] using hb
      exact absurd (by simpa [hat,he] using ha) (hnew a hat)
    · exact h.unique a b v (by simpa [hat] using ha) (by simpa [hbt] using hb)
  · intro v hv
    by_cases hvw : v = s.nextWaiter
    · exact ⟨t,by simp [hvw,Phase.waiter]⟩
    · obtain ⟨u,hu⟩ := h.alloc v (by simpa [hvw] using hv)
      have hut : u ≠ t := fun he => by simp [he,hf.2.1,Phase.waiter] at hu
      exact ⟨u,by simpa [hut] using hu⟩
  · intro u q d hq
    simp [h.no_broadcast hf u] at hq

/-- A thread moves on within its own `waiter->P()`. -/
theorem Inv.moveWaiter (h : Inv s) {sem : Semaphore Thread} {p : Phase}
    (hold : (s.phase t).waiter = some w) (hnew : p.waiter = some w)
    (hq : w ∈ s.waitQueue → p = .pending w ∨ p = .asleep w)
    (hp : { s with
      waiter := Function.update s.waiter w (some sem)
      phase := Function.update s.phase t p }.PhaseOk t) :
    Inv { s with
      waiter := Function.update s.waiter w (some sem)
      phase := Function.update s.phase t p } := by
  have hlt := h.waiter_lt hold
  have hwaiter : ∀ u, (Function.update s.phase t p u).waiter = (s.phase u).waiter := by
    intro u
    by_cases hu : u = t
    · simp [hu,hold,hnew]
    · simp [hu]
  refine ⟨h.lock,h.sorted,?_,?_,h.count,?_,?_,?_,h.loop⟩
  · intro v hv
    simp only at hv
    have hvw : v ≠ w := by omega
    simpa [hvw] using h.fresh v hv
  · intro v hv
    obtain ⟨u,hu⟩ := h.queued v hv
    by_cases hut : u = t
    · have hvw : w = v := by
        rcases hu with hu | hu <;> simpa [hut ▸ hu,Phase.waiter] using hold.symm
      subst hvw
      exact ⟨t,by simpa using hq hv⟩
    · exact ⟨u,by simpa [hut] using hu⟩
  · intro u
    by_cases hu : u = t
    · exact hu ▸ hp
    · refine (h.phases u).congr (by simp [hu]) le_rfl (fun v hv => ⟨Iff.rfl,?_⟩) rfl
      have : v ≠ w := fun he => hu (h.unique u t w (he ▸ hv) hold)
      simp [this]
  · intro a b v ha hb
    exact h.unique a b v (by rw [← hwaiter]; exact ha) (by rw [← hwaiter]; exact hb)
  · intro v hv
    by_cases hvw : v = w
    · exact ⟨t,by simp [hvw,hnew]⟩
    · obtain ⟨u,hu⟩ := h.alloc v (by simpa [hvw] using hv)
      exact ⟨u,by simpa only [hwaiter] using hu⟩

/-- The first pass of `waiter->P()`: it sleeps exactly while the waiter is queued. -/
theorem Inv.waiterP_eq (h : Inv s) (hp : s.phase t = .pending w) :
    s.waiterP t = .ok { s with
      waiter := Function.update s.waiter w (some ⟨0,if w ∈ s.waitQueue then [t] else []⟩)
      phase := Function.update s.phase t (if w ∈ s.waitQueue then .asleep w else .passed w) } := by
  have hk := h.phases t
  simp only [PhaseOk,hp] at hk
  by_cases hm : w ∈ s.waitQueue <;>
    simp [waiterP,waiterPass,hp,hk.2.1,hm,Semaphore.P,append_of_notMem,
      bind,Except.bind,pure,Except.pure]

/-- The re-test after a wake-up always gets through. -/
theorem Inv.waiterResume_eq (h : Inv s) (hp : s.phase t = .ready w) :
    s.waiterResume t = .ok { s with
      waiter := Function.update s.waiter w (some ⟨0,[]⟩)
      phase := Function.update s.phase t (.passed w) } := by
  have hk := h.phases t
  simp only [PhaseOk,hp] at hk
  simp [waiterResume,waiterPass,hp,hk.2.2.1,Semaphore.P,bind,Except.bind,pure,Except.pure]

theorem waiterP_phase (hs : s.waiterP t = .ok s') : ∃ w, s.phase t = .pending w := by
  unfold waiterP at hs
  cases hc : s.phase t <;> simp_all

theorem waiterResume_phase (hs : s.waiterResume t = .ok s') : ∃ w, s.phase t = .ready w := by
  unfold waiterResume at hs
  cases hc : s.phase t <;> simp_all

theorem Inv.waiterP (h : Inv s) (hs : s.waiterP t = .ok s') : Inv s' := by
  obtain ⟨w,hp⟩ := waiterP_phase hs
  have hk := h.phases t
  simp only [PhaseOk,hp] at hk
  rw [h.waiterP_eq hp] at hs
  cases hs
  apply h.moveWaiter (by simp [hp,Phase.waiter])
  · split <;> rfl
  · intro hm; simp [hm]
  · by_cases hm : w ∈ s.waitQueue <;> simp [PhaseOk,hm,hk.1,hk.2.2]

theorem Inv.waiterResume (h : Inv s) (hs : s.waiterResume t = .ok s') : Inv s' := by
  obtain ⟨w,hp⟩ := waiterResume_phase hs
  have hk := h.phases t
  simp only [PhaseOk,hp] at hk
  rw [h.waiterResume_eq hp] at hs
  cases hs
  apply h.moveWaiter (by simp [hp,Phase.waiter]) rfl
  · intro hm; exact absurd hm hk.2.1
  · simp [PhaseOk,hk.1,hk.2.1,hk.2.2.2]

/-- `Signal` with a waiter at the head of the queue.  Its owner `u` either sleeps, and is
made ready, or has not reached its `P` yet, and will find the unit there. -/
theorem Inv.signalBody_eq (h : Inv s) {q : List ℕ} (hq : s.waitQueue = w :: q)
    (ht : s.lock.IsHeldByCurrentThread t) :
    ∃ u p, (s.phase u = .pending w ∧ p = .pending w ∨ s.phase u = .asleep w ∧ p = .ready w) ∧
      s.signalBody t = .ok { s with
        waitQueue := q
        waiter := Function.update s.waiter w (some ⟨1,[]⟩)
        phase := Function.update s.phase u p
        vCount := Function.update s.vCount w (s.vCount w + 1) } := by
  have hw : w ∈ s.waitQueue := by simp [hq]
  obtain ⟨u,hu⟩ := h.queued w hw
  have hk := h.phases u
  rcases hu with hu | hu
  · refine ⟨u,.pending w,Or.inl ⟨hu,rfl⟩,?_⟩
    have hsame : Function.update s.phase u (.pending w) = s.phase := by
      rw [← hu,Function.update_eq_self]
    simp only [PhaseOk,hu,hw,if_true] at hk
    simp [signalBody,ht,hq,hk.2.1,Semaphore.V,hsame,bind,Except.bind,pure,Except.pure]
  · refine ⟨u,.ready w,Or.inr ⟨hu,rfl⟩,?_⟩
    simp only [PhaseOk,hu] at hk
    simp [signalBody,ht,hq,hk.2.2.1,Semaphore.V,bind,Except.bind,pure,Except.pure]

theorem signalBody_nil (hq : s.waitQueue = []) (ht : s.lock.IsHeldByCurrentThread t) :
    s.signalBody t = .ok s := by
  simp [signalBody,ht,hq,bind,Except.bind,pure,Except.pure]

/-- Releasing the head of the queue keeps the invariant, whatever loop it is part of. -/
theorem Inv.signalled (h : Inv s) {q : List ℕ} (hq : s.waitQueue = w :: q) {p : Phase}
    (hu : s.phase u = .pending w ∧ p = .pending w ∨ s.phase u = .asleep w ∧ p = .ready w)
    {b : Thread → Option (List ℕ × List ℕ)}
    (hb : ∀ t q' d, b t = some (q',d) → s.lock.loc t = .inside ∧ q' = d ++ q) :
    Inv { s with
      waitQueue := q
      waiter := Function.update s.waiter w (some ⟨1,[]⟩)
      phase := Function.update s.phase u p
      broadcasting := b
      vCount := Function.update s.vCount w (s.vCount w + 1) } := by
  have hsort := h.sorted
  rw [hq] at hsort
  have hwq : w ∉ q := fun hm => lt_irrefl w (List.rel_of_pairwise_cons hsort hm)
  have hold : (s.phase u).waiter = some w := by
    rcases hu with ⟨hu,_⟩ | ⟨hu,_⟩ <;> simp [hu,Phase.waiter]
  have hnew : p.waiter = some w := by rcases hu with ⟨_,rfl⟩ | ⟨_,rfl⟩ <;> rfl
  have hlt := h.waiter_lt hold
  have hmem : ∀ v, v ≠ w → (v ∈ q ↔ v ∈ s.waitQueue) := fun v hv => by simp [hq,hv]
  have hwaiter : ∀ a, (Function.update s.phase u p a).waiter = (s.phase a).waiter := by
    intro a
    by_cases ha : a = u
    · simp [ha,hold,hnew]
    · simp [ha]
  refine ⟨h.lock,hsort.of_cons,?_,?_,?_,?_,?_,?_,hb⟩
  · intro v hv
    simp only at hv
    have hvw : v ≠ w := by omega
    simpa [hvw,hmem v hvw] using h.fresh v hv
  · intro v hv
    have hvw : v ≠ w := fun he => hwq (he ▸ hv)
    obtain ⟨a,ha⟩ := h.queued v ((hmem v hvw).mp hv)
    have hau : a ≠ u := by
      intro he
      apply hvw
      rcases ha with ha | ha <;> simpa [he ▸ ha,Phase.waiter] using hold
    exact ⟨a,by simpa [hau] using ha⟩
  · intro v hv
    by_cases hvw : v = w
    · have hc := h.count w hlt
      simp only [hq,List.mem_cons,true_or,if_true] at hc
      simp [hvw,hwq,hc]
    · simpa [hvw,hmem v hvw] using h.count v hv
  · intro a
    by_cases ha : a = u
    · have hk := h.phases u
      rcases hu with ⟨hu,rfl⟩ | ⟨hu,rfl⟩
      · simp only [PhaseOk,hu] at hk
        simp [PhaseOk,ha,hwq,hk.1,hk.2.2]
      · simp only [PhaseOk,hu] at hk
        simp [PhaseOk,ha,hwq,hk.1,hk.2.2.2]
    · refine (h.phases a).congr (by simp [ha]) le_rfl (fun v hv => ?_) rfl
      have hvw : v ≠ w := fun he => ha (h.unique a u w (he ▸ hv) hold)
      exact ⟨hmem v hvw,by simp [hvw]⟩
  · intro a c v ha hc
    exact h.unique a c v (by rw [← hwaiter]; exact ha) (by rw [← hwaiter]; exact hc)
  · intro v hv
    by_cases hvw : v = w
    · exact ⟨u,by simp [hvw,hnew]⟩
    · obtain ⟨a,ha⟩ := h.alloc v (by simpa [hvw] using hv)
      exact ⟨a,by simpa only [hwaiter] using ha⟩

omit [DecidableEq Thread] in
theorem Inv.held (h : Inv s) (hl : s.lock.loc t = .inside) : s.lock.IsHeldByCurrentThread t :=
  (h.lock.holder t).mpr hl

theorem Inv.signal (h : Inv s) (hs : s.signal t = .ok s') : Inv s' := by
  obtain ⟨hf,hs⟩ := require_bind_ok.mp hs
  have ht := h.held hf.1
  cases hq : s.waitQueue with
  | nil =>
    rw [signalBody_nil hq ht] at hs
    cases hs
    exact h
  | cons w q =>
    obtain ⟨u,p,hu,he⟩ := h.signalBody_eq hq ht
    rw [he] at hs
    cases hs
    exact h.signalled hq hu fun a q' d ha => by simp [h.no_broadcast hf a] at ha

theorem Inv.broadcast (h : Inv s) (hs : s.broadcast t = .ok s') : Inv s' := by
  obtain ⟨hf,he⟩ := require_bind_ok.mp hs
  cases he
  refine ⟨h.lock,h.sorted,h.fresh,h.queued,h.count,h.phases,h.unique,h.alloc,?_⟩
  intro u q d hu
  by_cases hut : u = t
  · simp only [hut,Function.update_self,Option.some.injEq,Prod.mk.injEq] at hu
    exact ⟨hut ▸ hf.1,by simp [← hu.1,← hu.2]⟩
  · exact h.loop u q d (by simpa [hut] using hu)

/-- The three cases of a test of the loop in `Broadcast`. -/
theorem Inv.broadcastLoop_cases (h : Inv s) (hs : s.broadcastLoop t = .ok s') :
    ∃ q d, s.broadcasting t = some (q,d) ∧
      ((s.waitQueue = [] ∧
          s' = { s with broadcasting := Function.update s.broadcasting t none }) ∨
        (∃ w rest u p, s.waitQueue = w :: rest ∧
          (s.phase u = .pending w ∧ p = .pending w ∨ s.phase u = .asleep w ∧ p = .ready w) ∧
          s' = { s with
            waitQueue := rest
            waiter := Function.update s.waiter w (some ⟨1,[]⟩)
            phase := Function.update s.phase u p
            broadcasting := Function.update s.broadcasting t (some (q,d ++ [w]))
            vCount := Function.update s.vCount w (s.vCount w + 1) })) := by
  cases hb : s.broadcasting t with
  | none => simp [State.broadcastLoop,hb] at hs
  | some r =>
    obtain ⟨q,d⟩ := r
    refine ⟨q,d,rfl,?_⟩
    cases hq : s.waitQueue with
    | nil =>
      simp only [State.broadcastLoop,hb,hq] at hs
      cases hs
      exact Or.inl ⟨rfl,by simp⟩
    | cons w rest =>
      obtain ⟨u,p,hu,he⟩ := h.signalBody_eq hq (h.held (h.loop t q d hb).1)
      simp only [State.broadcastLoop,hb,hq,he,bind,Except.bind] at hs
      cases hs
      exact Or.inr ⟨w,rest,u,p,rfl,hu,rfl⟩

theorem Inv.broadcastLoop (h : Inv s) (hs : s.broadcastLoop t = .ok s') : Inv s' := by
  obtain ⟨q,d,hb,hc⟩ := h.broadcastLoop_cases hs
  have hl := h.loop t q d hb
  -- the lock has one owner, so `t` is the only thread in a loop
  have honly : ∀ u, u ≠ t → s.broadcasting u = none := by
    intro u hu
    cases hbu : s.broadcasting u with
    | none => rfl
    | some r => exact absurd (h.lock.owner_unique (Or.inr (h.loop u r.1 r.2 hbu).1)
        (Or.inr hl.1)) hu
  rcases hc with ⟨hq,rfl⟩ | ⟨w,rest,u,p,hq,hu,rfl⟩
  · refine ⟨h.lock,h.sorted,h.fresh,h.queued,h.count,h.phases,h.unique,h.alloc,?_⟩
    intro a q' d' ha
    by_cases hat : a = t
    · simp [hat] at ha
    · simp [hat,honly a hat] at ha
  · apply h.signalled hq hu
    intro a q' d' ha
    by_cases hat : a = t
    · simp only [hat,Function.update_self,Option.some.injEq,Prod.mk.injEq] at ha
      rw [← ha.1,← ha.2,hl.2,hq]
      exact ⟨hat ▸ hl.1,by simp⟩
    · simp [hat,honly a hat] at ha

end State

open State

omit [DecidableEq Thread] in
theorem inv_initial : Inv (new : State Thread) := by
  refine ⟨Lock.inv_initial,?_,?_,?_,?_,?_,?_,?_,?_⟩ <;> simp [new,PhaseOk,Phase.waiter]

theorem inv_step {s s' : State Thread} {a : Action Thread} (hs : Inv s)
    (h : step s a = .ok s') : Inv s' := by
  cases a with
  | acquire t => exact hs.acquire h
  | resume t => exact hs.resume h
  | setHolder t => exact hs.setHolder h
  | release t => exact hs.release h
  | wait t => exact hs.wait h
  | waiterP t => exact hs.waiterP h
  | waiterResume t => exact hs.waiterResume h
  | signal t => exact hs.signal h
  | broadcast t => exact hs.broadcast h
  | broadcastLoop t => exact hs.broadcastLoop h

theorem reachable_inv {s : State Thread} (h : machine.Reachable s) : Inv s :=
  h.invariant (fun _ hi => hi ▸ inv_initial) fun _ _ _ => inv_step

theorem State.Inv.step_not_assertion {s : State Thread} (hs : Inv s) (a : Action Thread) :
    step s a ≠ .error .assertion := by
  intro h
  cases a with
  | acquire t =>
    obtain ⟨_,h⟩ := require_bind_assertion.mp h
    exact hs.lock.step_not_assertion (.acquire t) (bind_pure_assertion.mp h)
  | resume t =>
    exact hs.lock.step_not_assertion (.resume t) (bind_pure_assertion.mp h)
  | setHolder t =>
    rcases bind_assertion.mp h with h | ⟨_,_,h⟩
    · exact hs.lock.step_not_assertion (.setHolder t) h
    · cases hc : s.phase t <;> simp [hc,pure,Except.pure] at h
  | release t =>
    obtain ⟨_,h⟩ := require_bind_assertion.mp h
    exact hs.lock.step_not_assertion (.release t) (bind_pure_assertion.mp h)
  | wait t =>
    obtain ⟨hf,h⟩ := require_bind_assertion.mp h
    have h := check_bind_assertion.mp h (hs.held hf.1)
    dsimp only at h
    rw [append_of_notMem (hs.fresh _ le_rfl).2.2] at h
    rcases bind_assertion.mp h with h | ⟨_,_,h⟩
    · cases h
    · exact hs.lock.step_not_assertion (.release t) (bind_pure_assertion.mp h)
  | waiterP t =>
    simp only [step,State.waiterP] at h
    cases hp : s.phase t with
    | pending w =>
      have he := hs.waiterP_eq hp
      simp only [State.waiterP,hp] at he
      simp [hp,he] at h
    | _ => simp [hp] at h
  | waiterResume t =>
    simp only [step,State.waiterResume] at h
    cases hp : s.phase t with
    | ready w =>
      have he := hs.waiterResume_eq hp
      simp only [State.waiterResume,hp] at he
      simp [hp,he] at h
    | _ => simp [hp] at h
  | signal t =>
    obtain ⟨hf,h⟩ := require_bind_assertion.mp h
    cases hq : s.waitQueue with
    | nil => rw [signalBody_nil hq (hs.held hf.1)] at h; cases h
    | cons w q =>
      obtain ⟨_,_,_,he⟩ := hs.signalBody_eq hq (hs.held hf.1)
      rw [he] at h
      cases h
  | broadcast t =>
    obtain ⟨_,h⟩ := require_bind_assertion.mp h
    cases h
  | broadcastLoop t =>
    simp only [step,State.broadcastLoop] at h
    cases hb : s.broadcasting t with
    | none => simp [hb] at h
    | some r =>
      cases hq : s.waitQueue with
      | nil => simp [hb,hq,pure,Except.pure] at h
      | cons w q =>
        obtain ⟨_,_,_,he⟩ := hs.signalBody_eq hq (hs.held (hs.loop t r.1 r.2 hb).1)
        simp [hb,hq,he,bind,Except.bind,pure,Except.pure] at h

/-! The guarantees of a condition variable. -/

namespace State

/-- `t` is in `Wait` and its semaphore is still queued. -/
def Waiting (s : State Thread) (t : Thread) (w : ℕ) : Prop :=
  w ∈ s.waitQueue ∧ (s.phase t).waiter = some w

/-- `t` is in `Wait` and its semaphore has been taken off the queue. -/
def Released (s : State Thread) (t : Thread) (w : ℕ) : Prop :=
  w ∉ s.waitQueue ∧ (s.phase t).waiter = some w

/-- `w`, the first semaphore in the queue, gets its `V`: its owner `u` is released and no other
thread. -/
structure ReleasesFirst (s s' : State Thread) (u : Thread) (w : ℕ) (q : List ℕ) : Prop where
  waiting : s.Waiting u w
  released : s'.Released u w
  longest : ∀ v ∈ q, w < v
  queue : s'.waitQueue = q
  vCount : s'.vCount = Function.update s.vCount w 1
  others : ∀ a, a ≠ u → ∀ v, (s'.Waiting a v ↔ s.Waiting a v) ∧ (s'.Released a v ↔ s.Released a v)

end State

/-- A run during which `t` stays in the loop of its `Broadcast`. -/
inductive LoopRun (t : Thread) : State Thread → State Thread → Prop
  | refl {s : State Thread} : s.broadcasting t ≠ none → LoopRun t s s
  | step {s m s' : State Thread} {a : Action Thread} : LoopRun t s m → step m a = .ok s' →
      s'.broadcasting t ≠ none → LoopRun t s s'

/-- While `t` is in its loop no other thread starts to wait or is released. -/
theorem others_in_loop {s s' : State Thread} {a : Action Thread} {t : Thread} {q d : List ℕ}
    (hs : Inv s) (hb : s.broadcasting t = some (q,d)) (ha : a ≠ .broadcastLoop t)
    (h : step s a = .ok s') : s'.nextWaiter = s.nextWaiter ∧ s'.waitQueue = s.waitQueue ∧
      s'.broadcasting t = some (q,d) := by
  have hfree : ∀ u, ¬ s.Free u := fun u hf => by simp [hs.no_broadcast hf t] at hb
  cases a with
  | acquire u =>
    obtain ⟨_,h⟩ := require_bind_ok.mp h
    obtain ⟨lock,_,he⟩ := bind_ok.mp h
    cases he
    exact ⟨rfl,rfl,hb⟩
  | resume u =>
    obtain ⟨lock,_,he⟩ := bind_ok.mp h
    cases he
    exact ⟨rfl,rfl,hb⟩
  | setHolder u =>
    obtain ⟨lock,_,hc⟩ := setHolder_cases h
    rcases hc with ⟨w,_,rfl⟩ | ⟨_,rfl⟩ <;> exact ⟨rfl,rfl,hb⟩
  | release u => exact absurd (require_bind_ok.mp h).1 (hfree u)
  | wait u => exact absurd (wait_ok h).1 (hfree u)
  | waiterP u =>
    obtain ⟨w,hp⟩ := waiterP_phase h
    have he := (hs.waiterP_eq hp).symm.trans h
    cases he
    exact ⟨rfl,rfl,hb⟩
  | waiterResume u =>
    obtain ⟨w,hp⟩ := waiterResume_phase h
    have he := (hs.waiterResume_eq hp).symm.trans h
    cases he
    exact ⟨rfl,rfl,hb⟩
  | signal u => exact absurd (require_bind_ok.mp h).1 (hfree u)
  | broadcast u => exact absurd (require_bind_ok.mp h).1 (hfree u)
  | broadcastLoop u =>
    -- the thread in a loop is the one inside the lock
    obtain ⟨q',d',hb',_⟩ := hs.broadcastLoop_cases h
    have hu := hs.lock.owner_unique (Or.inr (hs.loop u q' d' hb').1) (Or.inr (hs.loop t q d hb).1)
    exact absurd (congrArg Action.broadcastLoop hu) ha

/-- The queue recorded at the call stays the one recorded until the loop ends. -/
theorem step_in_loop {s s' : State Thread} {a : Action Thread} {t : Thread} {q d : List ℕ}
    (hs : Inv s) (hb : s.broadcasting t = some (q,d)) (h : step s a = .ok s') :
    s'.nextWaiter = s.nextWaiter ∧
      (s'.broadcasting t = none ∧ s'.waitQueue = [] ∨ ∃ d', s'.broadcasting t = some (q,d')) := by
  by_cases ha : a = .broadcastLoop t
  · subst ha
    obtain ⟨q',d',hb',hc⟩ := hs.broadcastLoop_cases h
    have hqd : q' = q ∧ d' = d := by simpa [hb,eq_comm] using hb'
    rcases hc with ⟨hq,rfl⟩ | ⟨w,rest,v,p,_,_,rfl⟩
    · exact ⟨rfl,Or.inl ⟨by simp,hq⟩⟩
    · exact ⟨rfl,Or.inr ⟨d' ++ [w],by simp [hqd.1]⟩⟩
  · obtain ⟨hn,_,hb'⟩ := others_in_loop hs hb ha h
    exact ⟨hn,Or.inr ⟨d,hb'⟩⟩

theorem LoopRun.spec {t : Thread} {s s' : State Thread} {q d : List ℕ} (hs : Inv s)
    (hb : s.broadcasting t = some (q,d)) (h : LoopRun t s s') :
    Inv s' ∧ s'.nextWaiter = s.nextWaiter ∧ ∃ d', s'.broadcasting t = some (q,d') := by
  induction h with
  | refl _ => exact ⟨hs,rfl,d,hb⟩
  | step _ hstep hne ih =>
    obtain ⟨hm,hn,d',hd⟩ := ih
    obtain ⟨hn',hc⟩ := step_in_loop hm hd hstep
    rcases hc with ⟨hnone,_⟩ | hc
    · exact absurd hnone hne
    · exact ⟨inv_step hm hstep,hn'.trans hn,hc⟩

/-- A whole `Broadcast`, interleaved with steps of any other threads, gives one `V` to
each semaphore that was queued when it was called and to no other. -/
theorem broadcast_releases {t : Thread} {s s₁ s₂ s₃ : State Thread} {a : Action Thread}
    (hs : Inv s) (hcall : s.broadcast t = .ok s₁) (hloop : LoopRun t s₁ s₂)
    (hlast : step s₂ a = .ok s₃) (hend : s₃.broadcasting t = none) :
    s₃.waitQueue = [] ∧
      ∀ w, s₃.vCount w = s.vCount w + if w ∈ s.waitQueue then 1 else 0 := by
  have h₁ := hs.broadcast hcall
  obtain ⟨_,he⟩ := require_bind_ok.mp hcall
  cases he
  obtain ⟨h₂,hn,d,hd⟩ := hloop.spec h₁ (by simp : _ = some (s.waitQueue,[]))
  obtain ⟨hn',hc⟩ := step_in_loop h₂ hd hlast
  have h₃ := inv_step h₂ hlast
  rcases hc with ⟨_,hq⟩ | ⟨_,hc⟩
  · refine ⟨hq,fun w => ?_⟩
    simp only at hn
    by_cases hw : w < s.nextWaiter
    · rw [h₃.count w (by omega),hs.count w hw]
      by_cases hm : w ∈ s.waitQueue <;> simp [hq,hm]
    · have hf := hs.fresh w (by omega)
      rw [(h₃.fresh w (by omega)).2.1,hf.2.1]
      simp [hf.2.2]
  · simp [hend] at hc

/-- What holds of a condition variable in a state `s`, clause by clause: a signal
releases the longest waiter and no other, a signal on an empty queue does nothing, a
broadcast is never refused, releases one waiter in each pass, is not disturbed by other
threads, ends when the queue is empty and so has released those queued at the call, a
semaphore leaves the queue with its one `V`, a released waiter gets through its `P`, and
`Wait` returns only after a release and with the lock held. -/
structure SignalsExact (s : State Thread) : Prop where
  signal_one : ∀ t w q, s.Free t → s.waitQueue = w :: q →
    ∃ u s', s.signal t = .ok s' ∧ s.ReleasesFirst s' u w q
  signal_none : ∀ t, s.Free t → s.waitQueue = [] → s.signal t = .ok s
  broadcast_starts : ∀ t, s.Free t → ∃ s', s.broadcast t = .ok s' ∧
    s'.broadcasting t ≠ none ∧ s' = { s with broadcasting := s'.broadcasting }
  broadcast_pass : ∀ t w q, s.broadcasting t ≠ none → s.waitQueue = w :: q →
    ∃ u s', s.broadcastLoop t = .ok s' ∧ s'.broadcasting t ≠ none ∧ s.ReleasesFirst s' u w q
  broadcast_others : ∀ t a s', s.broadcasting t ≠ none → a ≠ .broadcastLoop t →
    step s a = .ok s' → s'.waitQueue = s.waitQueue ∧ s'.broadcasting t = s.broadcasting t
  broadcast_ends : ∀ t, s.broadcasting t ≠ none → s.waitQueue = [] →
    ∃ s', s.broadcastLoop t = .ok s' ∧
      s'.broadcasting t = none ∧ s' = { s with broadcasting := s'.broadcasting }
  broadcast_completes : ∀ t, s.broadcasting t ≠ none → ∃ s',
    machine.run s (List.replicate (s.waitQueue.length + 1) (.broadcastLoop t)) = .ok s' ∧
    s'.broadcasting t = none ∧ s'.waitQueue = []
  broadcast_all : ∀ t s₁ s₂ s₃ a, s.broadcast t = .ok s₁ → LoopRun t s₁ s₂ →
    step s₂ a = .ok s₃ → s₃.broadcasting t = none →
    s₃.waitQueue = [] ∧ ∀ w, s₃.vCount w = s.vCount w + if w ∈ s.waitQueue then 1 else 0
  one_V : ∀ w, s.vCount w ≤ 1
  queued_iff : ∀ w, w < s.nextWaiter → (w ∈ s.waitQueue ↔ s.vCount w = 0)
  released_passes : ∀ t w, s.Released t w → s.phase t = .passed w ∨
    ∃ s', (s.waiterP t = .ok s' ∨ s.waiterResume t = .ok s') ∧ s'.phase t = .passed w
  returns : ∀ a t w s', (s.phase t).waiter = some w → step s a = .ok s' →
    s'.phase t = .none → s.Released t w ∧ s.vCount w = 1 ∧
      s'.lock.lockHolder = some t ∧ s'.lock.loc t = .inside
  no_failure : ∀ a, step s a ≠ .error .assertion

/-- A thread leaves `Wait` only through the end of its second `Acquire`. -/
theorem waiter_step {s s' : State Thread} {a : Action Thread} {t : Thread} {w : ℕ}
    (hs : Inv s) (hw : (s.phase t).waiter = some w) (h : step s a = .ok s') :
    (s'.phase t).waiter = some w ∨ a = .setHolder t ∧ s.phase t = .passed w := by
  have hupdate : ∀ (u : Thread) (p : Phase), p.waiter = (s.phase u).waiter →
      (Function.update s.phase u p t).waiter = some w := by
    intro u p hp
    by_cases hu : t = u
    · simpa [hu,hp] using hu ▸ hw
    · simpa [hu] using hw
  have hsignalled : ∀ (u : Thread) (v : ℕ) (p : Phase),
      (s.phase u = .pending v ∧ p = .pending v ∨ s.phase u = .asleep v ∧ p = .ready v) →
      (Function.update s.phase u p t).waiter = some w := by
    intro u v p hu
    apply hupdate
    rcases hu with ⟨hu,rfl⟩ | ⟨hu,rfl⟩ <;> simp [hu,Phase.waiter]
  have hinside : ∀ u, s.Free u → u ≠ t := by
    intro u hf he
    simp [← he,hf.2.1,Phase.waiter] at hw
  cases a with
  | acquire u =>
    obtain ⟨_,h⟩ := require_bind_ok.mp h
    obtain ⟨lock,_,he⟩ := bind_ok.mp h
    cases he
    exact Or.inl hw
  | resume u =>
    obtain ⟨lock,_,he⟩ := bind_ok.mp h
    cases he
    exact Or.inl hw
  | setHolder u =>
    obtain ⟨lock,_,hc⟩ := setHolder_cases h
    rcases hc with ⟨v,hv,rfl⟩ | ⟨_,rfl⟩
    · by_cases hu : t = u
      · have hvw : v = w := by simpa [hu,hv,Phase.waiter] using hw
        exact Or.inr ⟨by rw [hu],by rw [hu,hv,hvw]⟩
      · exact Or.inl (by simpa [hu] using hw)
    · exact Or.inl hw
  | release u =>
    obtain ⟨_,h⟩ := require_bind_ok.mp h
    obtain ⟨lock,_,he⟩ := bind_ok.mp h
    cases he
    exact Or.inl hw
  | wait u =>
    obtain ⟨hf,_,lock,_,rfl⟩ := wait_ok h
    exact Or.inl (by simpa [(hinside u hf).symm] using hw)
  | waiterP u =>
    obtain ⟨v,hp⟩ := waiterP_phase h
    have he := (hs.waiterP_eq hp).symm.trans h
    cases he
    refine Or.inl (hupdate u _ ?_)
    split <;> simp [hp,Phase.waiter]
  | waiterResume u =>
    obtain ⟨v,hp⟩ := waiterResume_phase h
    have he := (hs.waiterResume_eq hp).symm.trans h
    cases he
    exact Or.inl (hupdate u _ (by simp [hp,Phase.waiter]))
  | signal u =>
    obtain ⟨hf,h⟩ := require_bind_ok.mp h
    cases hq : s.waitQueue with
    | nil =>
      rw [signalBody_nil hq (hs.held hf.1)] at h
      cases h
      exact Or.inl hw
    | cons v q =>
      obtain ⟨x,p,hx,he⟩ := hs.signalBody_eq hq (hs.held hf.1)
      rw [he] at h
      cases h
      exact Or.inl (hsignalled x v p hx)
  | broadcast u =>
    obtain ⟨_,he⟩ := require_bind_ok.mp h
    cases he
    exact Or.inl hw
  | broadcastLoop u =>
    obtain ⟨_,_,_,hc⟩ := hs.broadcastLoop_cases h
    rcases hc with ⟨_,rfl⟩ | ⟨v,rest,x,p,_,hx,rfl⟩
    · exact Or.inl hw
    · exact Or.inl (hsignalled x v p hx)

theorem signalBody_releases {s : State Thread} (hs : Inv s) {t : Thread} {w : ℕ} {q : List ℕ}
    (hl : s.lock.loc t = .inside) (hq : s.waitQueue = w :: q) : ∃ u s', s.signalBody t = .ok s' ∧
      s.ReleasesFirst s' u w q := by
  obtain ⟨u,p,hu,he⟩ := hs.signalBody_eq hq (hs.held hl)
  have hsort := hs.sorted
  rw [hq] at hsort
  have hlt : ∀ v ∈ q, w < v := fun v hv => List.rel_of_pairwise_cons hsort hv
  have hold : (s.phase u).waiter = some w := by
    rcases hu with ⟨hu,_⟩ | ⟨hu,_⟩ <;> simp [hu,Phase.waiter]
  have hcount : s.vCount w = 0 := by
    rw [hs.count w (hs.waiter_lt hold)]
    simp [hq]
  refine ⟨u,_,he,⟨by simp [hq],hold⟩,⟨?_,?_⟩,hlt,rfl,?_,?_⟩
  · intro hm
    exact lt_irrefl w (hlt w hm)
  · rcases hu with ⟨_,rfl⟩ | ⟨_,rfl⟩ <;> simp [Phase.waiter]
  · simp [hcount]
  · intro a ha v
    have hphase : Function.update s.phase u p a = s.phase a := by simp [ha]
    have hmem : (s.phase a).waiter = some v → (v ∈ q ↔ v ∈ s.waitQueue) := by
      intro hv
      have hvw : v ≠ w := fun he => ha (hs.unique a u w (he ▸ hv) hold)
      simp [hq,hvw]
    simp only [State.Waiting,State.Released,hphase]
    constructor
    · exact and_congr_left fun hv => hmem hv
    · exact and_congr_left fun hv => not_congr (hmem hv)

/-- A pass of the loop in `Broadcast` while there is a waiter. -/
theorem broadcastLoop_releases {s : State Thread} (hs : Inv s) {t : Thread} {w : ℕ} {q : List ℕ}
    (hb : s.broadcasting t ≠ none) (hq : s.waitQueue = w :: q) :
    ∃ u s', s.broadcastLoop t = .ok s' ∧ s'.broadcasting t ≠ none ∧ s.ReleasesFirst s' u w q := by
  obtain ⟨⟨called,d⟩,hb⟩ := Option.ne_none_iff_exists'.mp hb
  obtain ⟨u,s',hbody,h⟩ := signalBody_releases hs (hs.loop t called d hb).1 hq
  refine ⟨u,{ s' with broadcasting := Function.update s'.broadcasting t (some (called,d ++ [w])) },
    ?_,?_,⟨h.waiting,h.released,h.longest,h.queue,h.vCount,h.others⟩⟩
  · simp only [State.broadcastLoop,hb,hq,hbody]
    rfl
  · simp

theorem broadcastLoop_nil {s : State Thread} {t : Thread} (hb : s.broadcasting t ≠ none)
    (hq : s.waitQueue = []) : s.broadcastLoop t =
      .ok { s with broadcasting := Function.update s.broadcasting t none } := by
  obtain ⟨r,hb⟩ := Option.ne_none_iff_exists'.mp hb
  simp only [State.broadcastLoop,hb,hq]
  rfl

/-- `Broadcast` ends after one pass for each waiter. -/
theorem broadcast_run {s : State Thread} (hs : Inv s) {t : Thread}
    (hb : s.broadcasting t ≠ none) : ∃ s',
      machine.run s (List.replicate (s.waitQueue.length + 1) (.broadcastLoop t)) = .ok s' ∧
      s'.broadcasting t = none ∧ s'.waitQueue = [] := by
  generalize hq : s.waitQueue = q
  induction q generalizing s with
  | nil =>
    refine ⟨_,machine.run_cons_ok.mpr ⟨_,broadcastLoop_nil hb hq,rfl⟩,by simp,hq⟩
  | cons w q ih =>
    obtain ⟨u,m,hstep,hbm,hm⟩ := broadcastLoop_releases hs hb hq
    obtain ⟨s',hrun,hend⟩ := ih (hs.broadcastLoop hstep) hbm hm.queue
    exact ⟨s',machine.run_cons_ok.mpr ⟨m,hstep,hrun⟩,hend⟩

/-- Condition variables neither lose nor duplicate a signal: in every state that any
interleaving of `Wait`, `Signal` and `Broadcast` under the lock can reach. -/
theorem condition_signals_exact (s : State Thread) (h : machine.Reachable s) :
    SignalsExact s := by
  have hs := reachable_inv h
  have hcount : ∀ w, w < s.nextWaiter → (w ∈ s.waitQueue ↔ s.vCount w = 0) := by
    intro w hw
    rw [hs.count w hw]
    by_cases hm : w ∈ s.waitQueue <;> simp [hm]
  refine ⟨?_,?_,?_,?_,?_,?_,?_,?_,?_,hcount,?_,?_,hs.step_not_assertion⟩
  · intro t w q hf hq
    obtain ⟨u,s',hbody,h⟩ := signalBody_releases hs hf.1 hq
    exact ⟨u,s',require_bind_ok.mpr ⟨hf,hbody⟩,h⟩
  · intro t hf hq
    exact require_bind_ok.mpr ⟨hf,signalBody_nil hq (hs.held hf.1)⟩
  · intro t hf
    exact ⟨_,require_bind_ok.mpr ⟨hf,rfl⟩,by simp,rfl⟩
  · intro t w q hb hq
    exact broadcastLoop_releases hs hb hq
  · intro t a s' hb ha hstep
    obtain ⟨r,hb⟩ := Option.ne_none_iff_exists'.mp hb
    obtain ⟨_,hqueue,hb'⟩ := others_in_loop hs hb ha hstep
    exact ⟨hqueue,hb'.trans hb.symm⟩
  · intro t hb hq
    exact ⟨_,broadcastLoop_nil hb hq,by simp,rfl⟩
  · intro t hb
    exact broadcast_run hs hb
  · intro t s₁ s₂ s₃ a hcall hloop hlast hend
    exact broadcast_releases hs hcall hloop hlast hend
  · intro w
    by_cases hw : w < s.nextWaiter
    · rw [hs.count w hw]
      split <;> omega
    · rw [(hs.fresh w (by omega)).2.1]
      omega
  · rintro t w ⟨hnq,hw⟩
    have hk := hs.phases t
    cases hp : s.phase t with
    | none => simp [hp,Phase.waiter] at hw
    | pending v =>
      have hvw : v = w := by simpa [hp,Phase.waiter] using hw
      subst hvw
      exact Or.inr ⟨_,Or.inl (hs.waiterP_eq hp),by simp [hnq]⟩
    | asleep v =>
      have hvw : v = w := by simpa [hp,Phase.waiter] using hw
      simp only [PhaseOk,hp] at hk
      exact absurd (hvw ▸ hk.2.1) hnq
    | ready v =>
      have hvw : v = w := by simpa [hp,Phase.waiter] using hw
      subst hvw
      exact Or.inr ⟨_,Or.inr (hs.waiterResume_eq hp),by simp⟩
    | passed v =>
      have hvw : v = w := by simpa [hp,Phase.waiter] using hw
      exact Or.inl (by rw [hvw])
  · intro a t w s' hw hstep hret
    rcases waiter_step hs hw hstep with hkeep | ⟨rfl,hp⟩
    · simp [hret,Phase.waiter] at hkeep
    · have hk := hs.phases t
      simp only [PhaseOk,hp] at hk
      have hv : s.vCount w = 1 := by rw [hs.count w hk.1]; simp [hk.2.1]
      obtain ⟨lock,hlock,hc⟩ := setHolder_cases hstep
      obtain ⟨_,rfl⟩ := Lock.State.setHolder_ok.mp hlock
      refine ⟨⟨hk.2.1,hw⟩,hv,?_⟩
      rcases hc with ⟨v,_,rfl⟩ | ⟨_,rfl⟩ <;> simp

/-- Two threads wait, the second asleep, and the broadcast of a third has released the first. -/
theorem condition_signals_exact_broadcast :
    ∃ s : State (Fin 3),
      machine.run new [.acquire 0,.setHolder 0,.wait 0,.acquire 1,.setHolder 1,.wait 1,.waiterP 1,
        .acquire 2,.setHolder 2,.broadcast 2,.broadcastLoop 2] = .ok s ∧
      s.waitQueue = [1] ∧ s.vCount 0 = 1 ∧ s.broadcasting 2 = some ([0,1],[0]) ∧
      SignalsExact s := by
  refine ⟨_,rfl,rfl,rfl,rfl,condition_signals_exact _ ?_⟩
  apply Machine.reachable_iff_run.mpr
  exact ⟨new,[.acquire 0,.setHolder 0,.wait 0,.acquire 1,.setHolder 1,.wait 1,.waiterP 1,
    .acquire 2,.setHolder 2,.broadcast 2,.broadcastLoop 2],rfl,rfl⟩

end Condition
end NachOS
