import NachOS.Semaphore

/-! `Lock::Acquire` and `Lock::Release` (threads/synch.cc).  A lock is a semaphore
plus a separately written `lockHolder`, so the sections of a thread are: the call of
`P`, each re-test after a wake-up, the assignment after `P` has returned (another
thread may run before it), and the whole of `Release`. -/
namespace NachOS
namespace Lock

open StateMachine

variable {Thread : Type} [DecidableEq Thread]

/-- Where a thread is with respect to the lock: `acquired` is the window in which
`P` has returned and `lockHolder` is not yet set. -/
inductive Loc
  | outside | acquiring | acquired | inside
  deriving DecidableEq, Repr

structure State (Thread : Type) where
  semaphore : Semaphore.State Thread
  lockHolder : Option Thread
  loc : Thread → Loc

def new : State Thread := ⟨⟨Semaphore.new 1,[],0,0⟩,none,fun _ => .outside⟩

namespace State

def IsHeldByCurrentThread (s : State Thread) (currentThread : Thread) : Prop :=
  s.lockHolder = some currentThread

instance (s : State Thread) (t : Thread) : Decidable (s.IsHeldByCurrentThread t) :=
  inferInstanceAs (Decidable (_ = _))

def afterP (s : State Thread) (t : Thread) (r : Semaphore.State Thread × Bool) : State Thread :=
  { s with
    semaphore := r.1
    loc := Function.update s.loc t (if r.2 then .acquired else .acquiring) }

def acquire (s : State Thread) (t : Thread) : Except Fault (State Thread) := do
  require (s.loc t = .outside)
  return s.afterP t (← s.semaphore.callP t)

def resume (s : State Thread) (t : Thread) : Except Fault (State Thread) := do
  require (s.loc t = .acquiring)
  return s.afterP t (← s.semaphore.resumeP t)

def setHolder (s : State Thread) (t : Thread) : Except Fault (State Thread) := do
  require (s.loc t = .acquired)
  return { s with lockHolder := some t, loc := Function.update s.loc t .inside }

def release (s : State Thread) (t : Thread) : Except Fault (State Thread) := do
  require (s.loc t = .inside)
  check (s.IsHeldByCurrentThread t)
  return { s with
    lockHolder := none
    semaphore := s.semaphore.callV
    loc := Function.update s.loc t .outside }

end State

inductive Action (Thread : Type)
  | acquire (t : Thread) | resume (t : Thread) | setHolder (t : Thread) | release (t : Thread)
  deriving DecidableEq, Repr

def step (s : State Thread) : Action Thread → Except Fault (State Thread)
  | .acquire t => s.acquire t
  | .resume t => s.resume t
  | .setHolder t => s.setHolder t
  | .release t => s.release t

def machine : Machine (State Thread) (Action Thread) where
  initial s := s = new
  step := step

namespace State

/-- `P` has returned to the thread and its `V` is still to come. -/
def Owns (s : State Thread) (t : Thread) : Prop := s.loc t = .acquired ∨ s.loc t = .inside

/-- The lock invariant: `value` and the owning thread exclude each other, and the
holder mark is exactly the thread inside. -/
structure Inv (s : State Thread) : Prop where
  sem : Semaphore.State.Inv 1 s.semaphore
  excl : (s.semaphore.sem.value = 1 ∧ ∀ t, ¬ s.Owns t) ∨
    (s.semaphore.sem.value = 0 ∧ ∃ t, s.Owns t ∧ ∀ u, s.Owns u → u = t)
  holder : ∀ t, s.lockHolder = some t ↔ s.loc t = .inside
  inP : ∀ t, s.semaphore.InP t ↔ s.loc t = .acquiring

omit [DecidableEq Thread] in
theorem Inv.value {s : State Thread} (h : Inv s) :
    s.semaphore.sem.value = 0 ∨ s.semaphore.sem.value = 1 := by
  rcases h.excl with ⟨hv,_⟩ | ⟨hv,_⟩
  · exact Or.inr hv
  · exact Or.inl hv

omit [DecidableEq Thread] in
theorem Inv.owner_unique {s : State Thread} (h : Inv s) {t u : Thread} (ht : s.Owns t)
    (hu : s.Owns u) : t = u := by
  rcases h.excl with ⟨_,hn⟩ | ⟨_,w,_,hw⟩
  · exact absurd ht (hn t)
  · rw [hw t ht,hw u hu]

omit [DecidableEq Thread] in
theorem Inv.value_of_owner {s : State Thread} (h : Inv s) {t : Thread} (ht : s.Owns t) :
    s.semaphore.sem.value = 0 := by
  rcases h.excl with ⟨_,hn⟩ | ⟨hv,_⟩
  · exact absurd ht (hn t)
  · exact hv

variable {s s' : State Thread} {t : Thread}

/-- A pass of `P` that got through turns a free lock into one owned by `t`; one that
did not leaves the owner alone. -/
theorem Inv.afterP (h : Inv s) {r : Semaphore.State Thread} {b : Bool}
    (hsem : Semaphore.State.Inv 1 r) (hloc : s.loc t = .outside ∨ s.loc t = .acquiring)
    (hr : s.semaphore.PassesP r t b) : Inv (s.afterP t (r,b)) := by
  have hown : ¬ s.Owns t := by
    rintro (ho | ho) <;> rcases hloc with hl | hl <;> simp [hl] at ho
  have hholder : ∀ u, (s.afterP t (r,b)).lockHolder = some u ↔
      (s.afterP t (r,b)).loc u = .inside := by
    intro u
    by_cases hu : u = t
    · subst hu
      have hout : s.loc u ≠ .inside := fun hl => hown (Or.inr hl)
      cases b <;> simp [State.afterP,h.holder,hout]
    · simp [State.afterP,h.holder,hu]
  rcases hr with ⟨rfl,hv,hv',hin⟩ | ⟨rfl,hv,hv',hin⟩
  · have hO : ∀ u, (s.afterP t (r,false)).Owns u ↔ s.Owns u := by
      intro u
      by_cases hu : u = t
      · subst hu
        simp only [hown,iff_false]
        simp [State.afterP,Owns]
      · simp [State.afterP,Owns,hu]
    refine ⟨hsem,?_,hholder,?_⟩
    · rcases h.excl with ⟨h1,_⟩ | ⟨_,w,hw,hu⟩
      · omega
      · exact Or.inr ⟨hv',w,(hO w).mpr hw,fun u hu' => hu u ((hO u).mp hu')⟩
    · intro u
      simp only [State.afterP,hin,h.inP]
      by_cases hu : u = t <;> simp [hu]
  · have hfree : s.semaphore.sem.value = 1 ∧ ∀ u, ¬ s.Owns u := by
      rcases h.excl with hf | ⟨h0,_⟩
      · exact hf
      · exact absurd h0 hv
    refine ⟨hsem,Or.inr ⟨by rw [State.afterP]; simp only; omega,t,?_,?_⟩,hholder,?_⟩
    · simp [State.afterP,Owns]
    · intro u hu
      by_contra hne
      exact hfree.2 u (by simpa [State.afterP,Owns,hne] using hu)
    · intro u
      simp only [State.afterP,hin,h.inP]
      by_cases hu : u = t <;> simp [hu]

theorem Inv.acquire (h : Inv s) (hs : s.acquire t = .ok s') : Inv s' := by
  obtain ⟨hloc,hs⟩ := require_bind_ok.mp hs
  obtain ⟨⟨r,b⟩,hr,he⟩ := bind_ok.mp hs
  cases he
  exact h.afterP (h.sem.callP hr) (Or.inl hloc) (Semaphore.State.callP_passes h.sem hr)

theorem Inv.resume (h : Inv s) (hs : s.resume t = .ok s') : Inv s' := by
  obtain ⟨hloc,hs⟩ := require_bind_ok.mp hs
  obtain ⟨⟨r,b⟩,hr,he⟩ := bind_ok.mp hs
  cases he
  exact h.afterP (h.sem.resumeP hr) (Or.inr hloc) (Semaphore.State.resumeP_passes h.sem hr)

theorem Inv.setHolder (h : Inv s) (hs : s.setHolder t = .ok s') : Inv s' := by
  obtain ⟨hloc,he⟩ := require_bind_ok.mp hs
  cases he
  have hown : s.Owns t := Or.inl hloc
  have hnone : ∀ u, s.loc u ≠ .inside := by
    intro u hu
    have := h.owner_unique hown (Or.inr hu)
    subst this
    simp [hloc] at hu
  refine ⟨h.sem,Or.inr ⟨h.value_of_owner hown,t,by simp [Owns],?_⟩,?_,?_⟩
  · intro u hu
    by_contra hne
    exact hne (h.owner_unique (by simpa [Owns,hne] using hu) hown)
  · intro u
    by_cases hu : u = t
    · simp [hu]
    · simp [hu,hnone u,Ne.symm hu]
  · intro u
    by_cases hu : u = t
    · simp [hu,h.inP,hloc]
    · simp [hu,h.inP]

theorem Inv.release (h : Inv s) (hs : s.release t = .ok s') : Inv s' := by
  obtain ⟨hloc,hs⟩ := require_bind_ok.mp hs
  obtain ⟨_,he⟩ := check_bind_ok.mp hs
  cases he
  have hown : s.Owns t := Or.inr hloc
  have hzero := h.value_of_owner hown
  have hroom : s.semaphore.sem.value < 2 ^ 31 - 1 := by rw [hzero]; norm_num
  obtain ⟨hv,hin⟩ := Semaphore.State.callV_spec h.sem hroom
  have hgone : ∀ u, ¬ (u ≠ t ∧ s.Owns u) := fun u hu => hu.1 (h.owner_unique hu.2 hown)
  refine ⟨h.sem.callV hroom,Or.inl ⟨by simp only [hv,hzero]; norm_num,?_⟩,?_,?_⟩
  · intro u hu
    by_cases he : u = t
    · simp [Owns,he] at hu
    · exact hgone u ⟨he,by simpa [Owns,he] using hu⟩
  · intro u
    by_cases he : u = t
    · simp [he]
    · have : s.loc u ≠ .inside := fun hl => hgone u ⟨he,Or.inr hl⟩
      simp [he,this]
  · intro u
    by_cases he : u = t
    · simp [he,hin,h.inP,hloc]
    · simp [he,hin,h.inP]

end State

open State

omit [DecidableEq Thread] in
theorem inv_initial : Inv (new : State Thread) := by
  refine ⟨Semaphore.inv_initial 1 (by norm_num) (by norm_num),Or.inl ⟨rfl,?_⟩,?_,?_⟩
  · simp [new,Owns]
  · simp [new]
  · simp [new,Semaphore.State.InP,Semaphore.new]

theorem inv_step {s s' : State Thread} {a : Action Thread} (hs : Inv s)
    (h : step s a = .ok s') : Inv s' := by
  cases a with
  | acquire t => exact hs.acquire h
  | resume t => exact hs.resume h
  | setHolder t => exact hs.setHolder h
  | release t => exact hs.release h

theorem reachable_inv {s : State Thread} (h : machine.Reachable s) : Inv s :=
  h.invariant (fun _ hi => hi ▸ inv_initial) fun _ _ _ => inv_step

/-- In a state that satisfies the invariant no section stops at an assertion. -/
theorem State.Inv.step_not_assertion {s : State Thread} (hs : Inv s) (a : Action Thread) :
    step s a ≠ .error .assertion := by
  intro h
  cases a with
  | acquire t =>
    obtain ⟨_,h⟩ := require_bind_assertion.mp h
    exact s.semaphore.callP_not_assertion t (bind_pure_assertion.mp h)
  | resume t =>
    obtain ⟨_,h⟩ := require_bind_assertion.mp h
    exact Semaphore.State.resumeP_not_assertion hs.sem t (bind_pure_assertion.mp h)
  | setHolder t =>
    obtain ⟨_,h⟩ := require_bind_assertion.mp h
    cases h
  | release t =>
    obtain ⟨hl,h⟩ := require_bind_assertion.mp h
    have h := check_bind_assertion.mp h ((hs.holder t).mpr hl)
    cases h

/-! How each section moves the thread that runs it. -/

theorem State.acquire_loc {s s' : State Thread} {t : Thread} (h : s.acquire t = .ok s') :
    s.loc t = .outside ∧ ∃ l, (l = .acquired ∨ l = .acquiring) ∧
      s'.loc = Function.update s.loc t l := by
  obtain ⟨hloc,h⟩ := require_bind_ok.mp h
  obtain ⟨⟨r,b⟩,_,he⟩ := bind_ok.mp h
  cases he
  exact ⟨hloc,_,by cases b <;> simp,rfl⟩

theorem State.resume_loc {s s' : State Thread} {t : Thread} (h : s.resume t = .ok s') :
    s.loc t = .acquiring ∧ ∃ l, (l = .acquired ∨ l = .acquiring) ∧
      s'.loc = Function.update s.loc t l := by
  obtain ⟨hloc,h⟩ := require_bind_ok.mp h
  obtain ⟨⟨r,b⟩,_,he⟩ := bind_ok.mp h
  cases he
  exact ⟨hloc,_,by cases b <;> simp,rfl⟩

theorem State.setHolder_ok {s s' : State Thread} {t : Thread} :
    s.setHolder t = .ok s' ↔ s.loc t = .acquired ∧
      s' = { s with lockHolder := some t, loc := Function.update s.loc t .inside } := by
  refine require_bind_ok.trans (and_congr_right fun _ => ?_)
  simp [pure,Except.pure,eq_comm]

theorem State.release_ok {s s' : State Thread} {t : Thread} :
    s.release t = .ok s' ↔ s.loc t = .inside ∧ s.IsHeldByCurrentThread t ∧
      s' = { s with lockHolder := none, semaphore := s.semaphore.callV,
                    loc := Function.update s.loc t .outside } := by
  refine require_bind_ok.trans (and_congr_right fun _ => check_bind_ok.trans ?_)
  refine and_congr_right fun _ => ?_
  simp [pure,Except.pure,eq_comm]

/-- `Acquire` of a free lock does not wait. -/
theorem State.Inv.acquire_free {s : State Thread} (h : Inv s) (hfree : ∀ u, s.loc u = .outside)
    (t : Thread) : ∃ s₁ s₂, s.acquire t = .ok s₁ ∧ s₁.setHolder t = .ok s₂ ∧
      s₂.loc = Function.update s.loc t .inside := by
  have hv : s.semaphore.sem.value ≠ 0 := by
    rcases h.excl with ⟨hv,_⟩ | ⟨_,u,hu,_⟩
    · simp [hv]
    · rcases hu with hu | hu <;> cases hu.symm.trans (hfree u)
  have hin : ¬ s.semaphore.InP t := by
    rw [h.inP,hfree t]
    decide
  obtain ⟨r,hr⟩ := Semaphore.State.callP_of_value hv hin
  have hacquire : s.acquire t = .ok (s.afterP t (r,true)) := by
    simp only [State.acquire,require_of (hfree t),hr]
    rfl
  have hloc : (s.afterP t (r,true)).loc t = .acquired := by simp [State.afterP]
  refine ⟨_,_,hacquire,setHolder_ok.mpr ⟨hloc,rfl⟩,?_⟩
  simp [State.afterP]

theorem State.Inv.release_inside {s : State Thread} (h : Inv s) {t : Thread}
    (ht : s.loc t = .inside) : ∃ s', s.release t = .ok s' ∧
      s'.loc = Function.update s.loc t .outside :=
  ⟨_,release_ok.mpr ⟨ht,(h.holder t).mpr ht,rfl⟩,rfl⟩

/-- Mutual exclusion of `Lock`, for every interleaving of any number of threads. -/
theorem lock_mutual_exclusion (s : State Thread) (h : machine.Reachable s) :
    (∀ t u, s.loc t = .inside → s.loc u = .inside → t = u) ∧
    (s.semaphore.sem.value = 0 ∨ s.semaphore.sem.value = 1) ∧
    (∀ t, s.lockHolder = some t ↔ s.loc t = .inside) ∧
    ∀ a, step s a ≠ .error .assertion := by
  have hi := reachable_inv h
  exact ⟨fun t u ht hu => hi.owner_unique (Or.inr ht) (Or.inr hu),hi.value,hi.holder,
    hi.step_not_assertion⟩

/-- The first thread is inside while the second waits in `P`. -/
theorem lock_mutual_exclusion_contended :
    ∃ s : State (Fin 2), machine.run new [.acquire 0,.acquire 1,.setHolder 0] = .ok s ∧
    s.loc 0 = .inside ∧ s.loc 1 = .acquiring ∧
    (∀ t u, s.loc t = .inside → s.loc u = .inside → t = u) ∧
    (s.semaphore.sem.value = 0 ∨ s.semaphore.sem.value = 1) ∧
    (∀ t, s.lockHolder = some t ↔ s.loc t = .inside) ∧
    ∀ a, step s a ≠ .error .assertion := by
  refine ⟨_,rfl,rfl,rfl,lock_mutual_exclusion _ ?_⟩
  apply Machine.reachable_iff_run.mpr
  exact ⟨new,[.acquire 0,.acquire 1,.setHolder 0],rfl,rfl⟩

end Lock
end NachOS
