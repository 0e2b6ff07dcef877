import NachOS.KernelList
import NachOS.Memory

/-! `Semaphore::P` and `Semaphore::V` (threads/synch.cc) as atomic sections.
Both run with interrupts off, so a context switch happens only where `P` goes to
sleep or where the old interrupt level is restored.  The machine below lets any
thread that is not in the wait queue take the next section: the order in which the
ready list is served is not used. -/
namespace NachOS

open StateMachine KernelList Memory

variable {Thread : Type} [DecidableEq Thread]

/-- `value` is an `int`. -/
structure Semaphore (Thread : Type) where
  value : ℤ
  queue : List Thread
  deriving DecidableEq, Repr

namespace Semaphore

def new (initialValue : ℤ) : Semaphore Thread := ⟨initialValue,[]⟩

/-- One pass of the loop in `Semaphore::P`.  The flag tells whether the thread got
through; if not it is queued and goes to sleep. -/
def P (s : Semaphore Thread) (t : Thread) : Except Fault (Semaphore Thread × Bool) :=
  if s.value = 0 then do
    let queue ← append s.queue t
    return ({ s with queue := queue },false)
  else
    return ({ s with value := wrap (s.value - 1) },true)

/-- `Semaphore::V`, with the thread it hands to `Scheduler::ReadyToRun`, if any. -/
def V (s : Semaphore Thread) : Semaphore Thread × Option Thread :=
  match s.queue with
  | [] => ({ s with value := wrap (s.value + 1) },none)
  | t :: queue => (⟨wrap (s.value + 1),queue⟩,some t)

/-- The three ways a pass of `P` can end. -/
theorem P_cases (s : Semaphore Thread) (t : Thread) :
    (s.value = 0 ∧ t ∈ s.queue ∧ s.P t = .error .assertion) ∨
    (s.value = 0 ∧ t ∉ s.queue ∧ s.P t = .ok (⟨s.value,s.queue ++ [t]⟩,false)) ∨
    (s.value ≠ 0 ∧ s.P t = .ok (⟨wrap (s.value - 1),s.queue⟩,true)) := by
  by_cases hv : s.value = 0
  · by_cases ht : t ∈ s.queue
    · left; exact ⟨hv,ht,by simp [P,hv,append_of_mem ht,bind,Except.bind]⟩
    · right; left
      exact ⟨hv,ht,by simp [P,hv,append_of_notMem ht,bind,Except.bind,pure,Except.pure]⟩
  · right; right; exact ⟨hv,by simp [P,hv,pure,Except.pure]⟩

omit [DecidableEq Thread] in
theorem V_cases (s : Semaphore Thread) :
    (s.queue = [] ∧ s.V = (⟨wrap (s.value + 1),[]⟩,none)) ∨
    (∃ t queue, s.queue = t :: queue ∧ s.V = (⟨wrap (s.value + 1),queue⟩,some t)) := by
  cases hq : s.queue with
  | nil => left; simp [V,hq]
  | cons t queue => right; exact ⟨t,queue,rfl,by simp [V,hq]⟩

/-- A semaphore together with the threads that `V` has moved to the ready list and
that have not yet re-tested `value`.  The two counters are ghosts. -/
structure State (Thread : Type) where
  sem : Semaphore Thread
  woken : List Thread
  completedP : ℕ
  completedV : ℕ

namespace State

/-- The thread is inside `P`: it sleeps, or it was woken and has not run since. -/
def InP (s : State Thread) (t : Thread) : Prop := t ∈ s.sem.queue ∨ t ∈ s.woken

instance (s : State Thread) (t : Thread) : Decidable (s.InP t) :=
  inferInstanceAs (Decidable (_ ∨ _))

/-- Run one pass of `P` for `t`. -/
def passP (s : State Thread) (t : Thread) : Except Fault (State Thread × Bool) := do
  let (sem,through) ← s.sem.P t
  return ({ s with
    sem := sem
    completedP := if through then s.completedP + 1 else s.completedP },through)

/-- A thread that is not inside `P` calls it. -/
def callP (s : State Thread) (t : Thread) : Except Fault (State Thread × Bool) := do
  require (¬ s.InP t)
  s.passP t

/-- A woken thread is dispatched and re-tests `value`. -/
def resumeP (s : State Thread) (t : Thread) : Except Fault (State Thread × Bool) := do
  require (t ∈ s.woken)
  { s with woken := s.woken.erase t }.passP t

def callV (s : State Thread) : State Thread :=
  { s with
    sem := s.sem.V.1
    woken := s.woken ++ s.sem.V.2.toList
    completedV := s.completedV + 1 }

end State

/-- Threads call `P` and `V`; handlers call `V`, and may call `P` only where it does
not sleep, since a handler runs on the stack of whichever thread it interrupted. -/
inductive Action (Thread : Type)
  | callP (t : Thread) | resumeP (t : Thread) | threadV (t : Thread) | handlerV | handlerP
  deriving DecidableEq, Repr

open State in
def step (s : State Thread) : Action Thread → Except Fault (State Thread)
  | .callP t => do return (← s.callP t).1
  | .resumeP t => do return (← s.resumeP t).1
  | .threadV t => do
    require (¬ s.InP t)
    return s.callV
  | .handlerV => return s.callV
  | .handlerP => do
    require (s.sem.value ≠ 0)
    return { s with
      sem := { s.sem with value := wrap (s.sem.value - 1) }
      completedP := s.completedP + 1 }

def machine (initialValue : ℤ) : Machine (State Thread) (Action Thread) where
  initial s := s = ⟨new initialValue,[],0,0⟩
  step := step

namespace State

/-- What a pass of `P` does to the state, as one case distinction. -/
theorem passP_cases {s s' : State Thread} {t : Thread} {b : Bool}
    (h : s.passP t = .ok (s',b)) :
    (s.sem.value = 0 ∧ t ∉ s.sem.queue ∧ b = false ∧
      s' = { s with sem := ⟨s.sem.value,s.sem.queue ++ [t]⟩ }) ∨
    (s.sem.value ≠ 0 ∧ b = true ∧
      s' = { s with sem := ⟨wrap (s.sem.value - 1),s.sem.queue⟩,
                    completedP := s.completedP + 1 }) := by
  rcases s.sem.P_cases t with ⟨hv,hq,hp⟩ | ⟨hv,hq,hp⟩ | ⟨hv,hp⟩
  · simp [passP,hp,bind,Except.bind] at h
  · left
    simp only [passP,hp,bind,Except.bind,pure,Except.pure,Except.ok.injEq,Prod.mk.injEq] at h
    exact ⟨hv,hq,h.2.symm,by simp [← h.1]⟩
  · right
    simp only [passP,hp,bind,Except.bind,pure,Except.pure,Except.ok.injEq,Prod.mk.injEq] at h
    exact ⟨hv,h.2.symm,by simp [← h.1]⟩

theorem passP_assertion {s : State Thread} {t : Thread} (h : s.passP t = .error .assertion) :
    t ∈ s.sem.queue := by
  rcases s.sem.P_cases t with ⟨_,hq,_⟩ | ⟨_,_,hp⟩ | ⟨_,hp⟩
  · exact hq
  · simp [passP,hp,bind,Except.bind,pure,Except.pure] at h
  · simp [passP,hp,bind,Except.bind,pure,Except.pure] at h

omit [DecidableEq Thread] in
theorem callV_cases (s : State Thread) :
    (s.sem.queue = [] ∧ s.callV =
      { s with sem := ⟨wrap (s.sem.value + 1),[]⟩, completedV := s.completedV + 1 }) ∨
    (∃ t queue, s.sem.queue = t :: queue ∧ s.callV =
      { s with sem := ⟨wrap (s.sem.value + 1),queue⟩, woken := s.woken ++ [t],
               completedV := s.completedV + 1 }) := by
  rcases s.sem.V_cases with ⟨hq,hv⟩ | ⟨t,queue,hq,hv⟩
  · left; simp [callV,hv,hq]
  · right; exact ⟨t,queue,hq,by simp [callV,hv]⟩

/-- The semaphore invariant.  `wakeups` is the no-lost-wake-up bound: while some thread
sleeps, every unit of `value` is matched by a woken thread that will re-test it. -/
structure Inv (initialValue : ℤ) (s : State Thread) : Prop where
  nonneg : 0 ≤ s.sem.value
  range : s.sem.value < 2 ^ 31
  account : s.sem.value = initialValue + s.completedV - s.completedP
  nodup : (s.sem.queue ++ s.woken).Nodup
  wakeups : s.sem.queue ≠ [] → s.sem.value ≤ s.woken.length

variable {v₀ : ℤ} {s s' : State Thread} {t : Thread} {b : Bool}

/-- Counting down a value that is not negative does not wrap around. -/
theorem wrap_pred {value : ℤ} (hn : 0 ≤ value) (hr : value < 2 ^ 31) :
    wrap (value - 1) = value - 1 := wrap_of_range (by omega) (by omega)

omit [DecidableEq Thread] in
theorem Inv.wrap_succ (hs : Inv v₀ s) (hroom : s.sem.value < 2 ^ 31 - 1) :
    wrap (s.sem.value + 1) = s.sem.value + 1 := by
  have := hs.nonneg
  exact wrap_of_range (by omega) (by omega)

/-- The pass of `P` by a thread that is nowhere inside `P`. `room` is the bound that
still holds once that thread has left the woken ones. -/
theorem Inv.passP (hn : 0 ≤ s.sem.value) (hr : s.sem.value < 2 ^ 31)
    (ha : s.sem.value = v₀ + s.completedV - s.completedP)
    (hd : (s.sem.queue ++ s.woken).Nodup)
    (room : s.sem.queue ≠ [] → s.sem.value ≤ s.woken.length + 1) (ht : ¬ s.InP t)
    (h : s.passP t = .ok (s',b)) : Inv v₀ s' := by
  have hq : t ∉ s.sem.queue := fun hm => ht (Or.inl hm)
  have hw : t ∉ s.woken := fun hm => ht (Or.inr hm)
  rcases passP_cases h with ⟨hv,_,_,rfl⟩ | ⟨hv,_,rfl⟩
  · refine ⟨hn,hr,ha,?_,fun _ => by simp only [hv]; positivity⟩
    have hp : (s.sem.queue ++ [t] ++ s.woken).Perm (t :: (s.sem.queue ++ s.woken)) := by
      simp
    exact hp.nodup_iff.mpr (List.nodup_cons.mpr ⟨by simp [hq,hw],hd⟩)
  · rw [wrap_pred hn hr]
    refine ⟨?_,?_,?_,hd,?_⟩
    · simp only; omega
    · simp only; omega
    · simp only [Nat.cast_add,Nat.cast_one]; omega
    · intro hne; have := room hne; simp only; omega

omit [DecidableEq Thread] in
theorem Inv.callV (hs : Inv v₀ s) (hroom : s.sem.value < 2 ^ 31 - 1) : Inv v₀ s.callV := by
  have hvalue := hs.wrap_succ hroom
  obtain ⟨hn,hr,ha,hd,hw⟩ := hs
  rcases s.callV_cases with ⟨hq,he⟩ | ⟨t,queue,hq,he⟩
  · rw [he,hvalue]
    refine ⟨by simp only; omega,by simp only; omega,by simp only [Nat.cast_add,Nat.cast_one]; omega,
      ?_,by simp⟩
    simpa [hq] using hd
  · rw [he,hvalue]
    refine ⟨by simp only; omega,by simp only; omega,by simp only [Nat.cast_add,Nat.cast_one]; omega,
      ?_,?_⟩
    · rw [hq] at hd
      have hp : (queue ++ (s.woken ++ [t])).Perm (t :: queue ++ s.woken) := by
        rw [← List.append_assoc]
        exact List.perm_append_comm.trans (by simp)
      exact hp.nodup_iff.mpr hd
    · intro _
      have := hw (by simp [hq])
      simp only [List.length_append,List.length_singleton,Nat.cast_add,Nat.cast_one]
      omega

theorem Inv.callP (hs : Inv v₀ s) (h : s.callP t = .ok (s',b)) : Inv v₀ s' := by
  obtain ⟨ht,hp⟩ := require_bind_ok.mp h
  exact Inv.passP hs.nonneg hs.range hs.account hs.nodup
    (fun hne => (hs.wakeups hne).trans (by omega)) ht hp

theorem Inv.resumeP (hs : Inv v₀ s) (h : s.resumeP t = .ok (s',b)) : Inv v₀ s' := by
  obtain ⟨ht,hp⟩ := require_bind_ok.mp h
  have hd := List.nodup_append.mp hs.nodup
  have hlen : (s.woken.erase t).length + 1 = s.woken.length := by
    have := List.length_erase_of_mem ht
    have := List.length_pos_of_mem ht
    omega
  refine Inv.passP (s := { s with woken := s.woken.erase t }) hs.nonneg hs.range hs.account
    ?_ ?_ ?_ hp
  · exact hs.nodup.sublist (List.Sublist.append (List.Sublist.refl _) List.erase_sublist)
  · intro hne
    have := hs.wakeups hne
    simp only
    omega
  · rintro (hq | hw)
    · exact hd.2.2 t hq t ht rfl
    · exact (hd.2.1.mem_erase_iff.mp hw).1 rfl

end State

open State

/-- A call of `V` finds a value that can be counted up. -/
def Room (s : State Thread) : Action Thread → Prop
  | .threadV _ | .handlerV => s.sem.value < 2 ^ 31 - 1
  | _ => True

instance (s : State Thread) (a : Action Thread) : Decidable (Room s a) := by
  cases a <;> unfold Room <;> infer_instance

omit [DecidableEq Thread] in
theorem inv_initial (v₀ : ℤ) (h : 0 ≤ v₀) (hr : v₀ < 2 ^ 31) :
    Inv v₀ (⟨new v₀,[],0,0⟩ : State Thread) :=
  ⟨h,hr,by simp [new],by simp [new],by simp [new]⟩

theorem inv_step {v₀ : ℤ} {s s' : State Thread} {a : Action Thread} (hs : Inv v₀ s)
    (hroom : Room s a) (h : step s a = .ok s') : Inv v₀ s' := by
  cases a with
  | callP t =>
    obtain ⟨⟨r,b⟩,hr,he⟩ := bind_ok.mp h
    cases he
    exact hs.callP hr
  | resumeP t =>
    obtain ⟨⟨r,b⟩,hr,he⟩ := bind_ok.mp h
    cases he
    exact hs.resumeP hr
  | threadV t =>
    obtain ⟨_,he⟩ := require_bind_ok.mp h
    cases he
    exact hs.callV hroom
  | handlerV =>
    cases h
    exact hs.callV hroom
  | handlerP =>
    obtain ⟨hv,he⟩ := require_bind_ok.mp h
    cases he
    obtain ⟨hn,hr,ha,hd,hw⟩ := hs
    rw [wrap_pred hn hr]
    refine ⟨by simp only; omega,by simp only; omega,by simp only [Nat.cast_add,Nat.cast_one]; omega,
      hd,?_⟩
    intro hne
    have := hw hne
    simp only
    omega

theorem reachable_inv {v₀ : ℤ} (hv : 0 ≤ v₀) (hr : v₀ < 2 ^ 31) {s : State Thread}
    (h : (machine v₀).ReachableWith Room s) : Inv v₀ s :=
  h.invariant (fun _ hi => hi ▸ inv_initial v₀ hv hr) fun _ _ _ => inv_step

theorem State.callP_not_assertion (s : State Thread) (t : Thread) :
    s.callP t ≠ .error .assertion := by
  intro h
  obtain ⟨ht,hp⟩ := require_bind_assertion.mp h
  exact ht (Or.inl (passP_assertion hp))

theorem State.resumeP_not_assertion {v₀ : ℤ} {s : State Thread} (hs : Inv v₀ s) (t : Thread) :
    s.resumeP t ≠ .error .assertion := by
  intro h
  obtain ⟨ht,hp⟩ := require_bind_assertion.mp h
  have hq := passP_assertion (s := { s with woken := s.woken.erase t }) hp
  exact (List.nodup_append.mp hs.nodup).2.2 t hq t ht rfl

/-! What the users of a semaphore need to know about its three sections. -/

/-- The first pass of `P` and a re-test in one form: the thread is inside `P` afterwards
exactly if it did not get through. -/
def State.PassesP (s s' : State Thread) (t : Thread) (b : Bool) : Prop :=
  (b = false ∧ s.sem.value = 0 ∧ s'.sem.value = 0 ∧ ∀ u, s'.InP u ↔ s.InP u ∨ u = t) ∨
  (b = true ∧ s.sem.value ≠ 0 ∧ s'.sem.value = s.sem.value - 1 ∧ ∀ u, s'.InP u ↔ s.InP u ∧ u ≠ t)

theorem State.callP_passes {v₀ : ℤ} {s s' : State Thread} {t : Thread} {b : Bool}
    (hs : Inv v₀ s) (h : s.callP t = .ok (s',b)) : s.PassesP s' t b := by
  obtain ⟨ht,hp⟩ := require_bind_ok.mp h
  rcases passP_cases hp with ⟨hv,_,hb,rfl⟩ | ⟨hv,hb,rfl⟩
  · refine Or.inl ⟨hb,hv,hv,fun u => ?_⟩
    simp only [InP,List.mem_append,List.mem_singleton]
    tauto
  · refine Or.inr ⟨hb,hv,wrap_pred hs.nonneg hs.range,fun u => ?_⟩
    constructor
    · intro hu
      exact ⟨hu,fun he => ht (he ▸ hu)⟩
    · exact And.left

theorem State.resumeP_passes {v₀ : ℤ} {s s' : State Thread} {t : Thread} {b : Bool}
    (hs : Inv v₀ s) (h : s.resumeP t = .ok (s',b)) : s.PassesP s' t b := by
  obtain ⟨ht,hp⟩ := require_bind_ok.mp h
  have hd := List.nodup_append.mp hs.nodup
  have hq : t ∉ s.sem.queue := fun hq => hd.2.2 t hq t ht rfl
  rcases passP_cases hp with ⟨hv,_,hb,rfl⟩ | ⟨hv,hb,rfl⟩
  · refine Or.inl ⟨hb,hv,hv,fun u => ?_⟩
    simp only [InP,List.mem_append,List.mem_singleton,hd.2.1.mem_erase_iff]
    by_cases hu : u = t
    · simp [hu]
    · simp [hu]
  · refine Or.inr ⟨hb,hv,wrap_pred hs.nonneg hs.range,fun u => ?_⟩
    simp only [InP,hd.2.1.mem_erase_iff]
    by_cases hu : u = t
    · simp [hu,hq]
    · simp [hu]

theorem State.callP_of_value {s : State Thread} {t : Thread} (hv : s.sem.value ≠ 0)
    (ht : ¬ s.InP t) : ∃ s', s.callP t = .ok (s',true) := by
  rcases s.sem.P_cases t with ⟨h0,_⟩ | ⟨h0,_⟩ | ⟨_,hp⟩
  · exact absurd h0 hv
  · exact absurd h0 hv
  · refine ⟨{ s with sem := ⟨wrap (s.sem.value - 1),s.sem.queue⟩,
                     completedP := s.completedP + 1 },?_⟩
    simp only [callP,require_of ht,passP,hp]
    rfl

omit [DecidableEq Thread] in
theorem State.callV_spec {v₀ : ℤ} {s : State Thread} (hs : Inv v₀ s)
    (hroom : s.sem.value < 2 ^ 31 - 1) :
    s.callV.sem.value = s.sem.value + 1 ∧ ∀ u, s.callV.InP u ↔ s.InP u := by
  rcases s.callV_cases with ⟨hq,he⟩ | ⟨t,queue,hq,he⟩
  · rw [he]
    exact ⟨hs.wrap_succ hroom,fun u => by simp [InP,hq]⟩
  · rw [he]
    refine ⟨hs.wrap_succ hroom,fun u => ?_⟩
    simp only [InP,hq,List.mem_append,List.mem_cons,List.not_mem_nil,or_false]
    tauto

/-- Safety of a semaphore and absence of lost wake-ups, in every state that any
interleaving of `P` and `V` sections can reach without a `V` at the largest `int`. -/
theorem semaphore_safety (v₀ : ℤ) (hv : 0 ≤ v₀) (hr : v₀ < 2 ^ 31) (s : State Thread)
    (h : (machine v₀).ReachableWith Room s) :
    0 ≤ s.sem.value ∧
    s.sem.value = v₀ + s.completedV - s.completedP ∧
    s.sem.queue.Nodup ∧
    (s.sem.queue ≠ [] → s.sem.value ≤ s.woken.length) := by
  have hi := reachable_inv hv hr h
  exact ⟨hi.nonneg,hi.account,(List.nodup_append.mp hi.nodup).1,hi.wakeups⟩

/-- Two threads go to sleep on an empty semaphore and a handler wakes the first. -/
theorem semaphore_safety_two_waiters :
    let s : State (Fin 2) := ⟨⟨1,[1]⟩,[0],0,1⟩
    (machine 0).runWith Room ⟨new 0,[],0,0⟩ [.callP 0,.callP 1,.handlerV] = .ok s ∧
    0 ≤ s.sem.value ∧
    s.sem.value = 0 + s.completedV - s.completedP ∧
    s.sem.queue.Nodup ∧
    (s.sem.queue ≠ [] → s.sem.value ≤ s.woken.length) := by
  intro s
  have hr : (machine 0).runWith Room (⟨new 0,[],0,0⟩ : State (Fin 2))
      [.callP 0,.callP 1,.handlerV] = .ok s := rfl
  exact ⟨hr,semaphore_safety 0 le_rfl (by norm_num) s
    ((Machine.ReachableWith.start rfl).runWith hr)⟩

/-- One `V` at the largest `int`: the value is negative afterwards. -/
theorem semaphore_value_overflows : ∃ s : State (Fin 1),
    (machine (2 ^ 31 - 1)).run ⟨new (2 ^ 31 - 1),[],0,0⟩ [.threadV 0] = .ok s ∧
    s.sem.value = -2 ^ 31 ∧
    s.sem.value ≠ 2 ^ 31 - 1 + s.completedV - s.completedP :=
  ⟨_,rfl,by decide,by decide⟩

end Semaphore
end NachOS
