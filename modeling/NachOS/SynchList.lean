import NachOS.Condition

/-! `SynchList` (threads/synchlist.cc): a list, a lock and one condition variable.
A section runs from one point where interrupts are enabled again to the next, so what
a thread does to the list between two such points is one step: `Append` puts its item
on the list and takes a waiter off the queue before anybody else can run. -/
namespace NachOS

open StateMachine

/-! The waiters a consumer of the list can count on. -/
namespace Condition

variable {Thread : Type} [DecidableEq Thread]

/-- Semaphores that have left the queue and whose `Wait` has not returned. -/
def State.signalled (s : State Thread) : Finset ℕ :=
  (Finset.range s.nextWaiter).filter fun w => w ∉ s.waitQueue ∧ (s.waiter w).isSome

open State KernelList

variable {s s' : State Thread} {t : Thread} {w : ℕ}

omit [DecidableEq Thread] in
theorem State.mem_signalled : w ∈ s.signalled ↔
    w < s.nextWaiter ∧ w ∉ s.waitQueue ∧ (s.waiter w).isSome := by
  simp [signalled]

omit [DecidableEq Thread] in
/-- They are the semaphores of the released threads. -/
theorem State.Inv.mem_signalled_iff (h : Inv s) : w ∈ s.signalled ↔ ∃ t, s.Released t w := by
  rw [mem_signalled]
  constructor
  · rintro ⟨_,hq,hw⟩
    obtain ⟨t,ht⟩ := h.alloc w (by intro hn; simp [hn] at hw)
    exact ⟨t,hq,ht⟩
  · rintro ⟨t,hq,ht⟩
    refine ⟨h.waiter_lt ht,hq,?_⟩
    have hk := h.phases t
    unfold PhaseOk at hk
    cases hp : s.phase t <;> simp_all [Phase.waiter]

omit [DecidableEq Thread] in
theorem State.signalled_congr (hn : s'.nextWaiter = s.nextWaiter)
    (hq : s'.waitQueue = s.waitQueue) (hw : s'.waiter = s.waiter) :
    s'.signalled = s.signalled := by
  simp [signalled,hn,hq,hw]

theorem acquire_signalled (hs : s.acquire t = .ok s') :
    s'.signalled = s.signalled ∧ s'.waitQueue = s.waitQueue := by
  obtain ⟨_,hs⟩ := require_bind_ok.mp hs
  obtain ⟨lock,_,he⟩ := bind_ok.mp hs
  cases he
  exact ⟨signalled_congr rfl rfl rfl,rfl⟩

theorem resume_signalled (hs : s.resume t = .ok s') :
    s'.signalled = s.signalled ∧ s'.waitQueue = s.waitQueue := by
  obtain ⟨lock,_,he⟩ := bind_ok.mp hs
  cases he
  exact ⟨signalled_congr rfl rfl rfl,rfl⟩

theorem release_signalled (hs : s.release t = .ok s') :
    s'.signalled = s.signalled ∧ s'.waitQueue = s.waitQueue := by
  obtain ⟨_,hs⟩ := require_bind_ok.mp hs
  obtain ⟨lock,_,he⟩ := bind_ok.mp hs
  cases he
  exact ⟨signalled_congr rfl rfl rfl,rfl⟩

/-- Returning from `Wait` uses up one signalled waiter. -/
theorem setHolder_signalled (hs : s.setHolder t = .ok s') :
    s'.waitQueue = s.waitQueue ∧ s.signalled.card ≤ s'.signalled.card + 1 ∧
      ((∀ w, s.phase t ≠ .passed w) → s'.signalled = s.signalled) := by
  obtain ⟨lock,_,hc⟩ := setHolder_cases hs
  rcases hc with ⟨w,hw,rfl⟩ | ⟨hw,rfl⟩
  · refine ⟨rfl,?_,fun hn => absurd hw (hn w)⟩
    have he : ({ s with
        lock := lock
        waiter := Function.update s.waiter w none
        phase := Function.update s.phase t .none } : State Thread).signalled =
        s.signalled.erase w := by
      ext v
      simp only [mem_signalled,Finset.mem_erase]
      by_cases hv : v = w <;> simp [hv]
    rw [he]
    have hcard := Finset.pred_card_le_card_erase (s := s.signalled) (a := w)
    omega
  · have he : ({ s with lock := lock } : State Thread).signalled = s.signalled :=
      signalled_congr rfl rfl rfl
    exact ⟨rfl,by rw [he]; omega,fun _ => he⟩

/-- A signal adds one waiter to the signalled ones if there is one to be added. -/
theorem signal_signalled (h : Inv s) (hs : s.signal t = .ok s') :
    (s.waitQueue = [] ∧ s' = s) ∨
    (s.waitQueue ≠ [] ∧ s'.signalled.card = s.signalled.card + 1) := by
  obtain ⟨hf,hs⟩ := require_bind_ok.mp hs
  cases hq : s.waitQueue with
  | nil =>
    rw [signalBody_nil hq (h.held hf.1)] at hs
    cases hs
    exact Or.inl ⟨rfl,rfl⟩
  | cons w q =>
    obtain ⟨u,p,hu,he⟩ := h.signalBody_eq hq (h.held hf.1)
    rw [he] at hs
    cases hs
    refine Or.inr ⟨by simp,?_⟩
    have hsort := h.sorted
    rw [hq] at hsort
    have hwq : w ∉ q := fun hm => lt_irrefl w (List.rel_of_pairwise_cons hsort hm)
    have hlt : w < s.nextWaiter := by
      apply h.waiter_lt (t := u)
      rcases hu with ⟨hu,_⟩ | ⟨hu,_⟩ <;> simp [hu,Phase.waiter]
    have hins : ({ s with
        waitQueue := q
        waiter := Function.update s.waiter w (some ⟨1,[]⟩)
        phase := Function.update s.phase u p
        vCount := Function.update s.vCount w (s.vCount w + 1) } : State Thread).signalled =
        insert w s.signalled := by
      ext v
      simp only [mem_signalled,Finset.mem_insert]
      by_cases hv : v = w
      · simp [hv,hwq,hlt]
      · simp [hv,hq]
    rw [hins,Finset.card_insert_of_notMem]
    simp [mem_signalled,hq]

theorem waiterP_signalled (h : Inv s) (hs : s.waiterP t = .ok s') :
    s'.signalled = s.signalled ∧ s'.waitQueue = s.waitQueue := by
  obtain ⟨w,hp⟩ := waiterP_phase hs
  have hk := h.phases t
  simp only [PhaseOk,hp] at hk
  rw [h.waiterP_eq hp] at hs
  cases hs
  refine ⟨?_,rfl⟩
  ext v
  simp only [mem_signalled]
  by_cases hv : v = w <;> simp [hv,hk.2.1]

theorem waiterResume_signalled (h : Inv s) (hs : s.waiterResume t = .ok s') :
    s'.signalled = s.signalled ∧ s'.waitQueue = s.waitQueue := by
  obtain ⟨w,hp⟩ := waiterResume_phase hs
  have hk := h.phases t
  simp only [PhaseOk,hp] at hk
  rw [h.waiterResume_eq hp] at hs
  cases hs
  refine ⟨?_,rfl⟩
  ext v
  simp only [mem_signalled]
  by_cases hv : v = w <;> simp [hv,hk.2.2.1]

/-- A run of sections of `t` leaves `t` at `l` and the other threads where they are. -/
structure Moves (s s' : State Thread) (t : Thread) (l : Lock.Loc) : Prop where
  loc : s'.lock.loc = Function.update s.lock.loc t l
  phase : ∀ u, u ≠ t → (s'.phase u = .none ↔ s.phase u = .none)
  broadcasting : s'.broadcasting = s.broadcasting

theorem Moves.trans {s₁ s₂ s₃ : State Thread} {l l' : Lock.Loc} (h : Moves s₁ s₂ t l)
    (h' : Moves s₂ s₃ t l') : Moves s₁ s₃ t l' :=
  ⟨by rw [h'.loc,h.loc,Function.update_idem],
    fun u hu => (h'.phase u hu).trans (h.phase u hu),h'.broadcasting.trans h.broadcasting⟩

theorem acquire_moves (hs : s.acquire t = .ok s') : s.lock.loc t = .outside ∧
    s'.phase = s.phase ∧ ∃ l, (l = .acquired ∨ l = .acquiring) ∧ Moves s s' t l := by
  obtain ⟨_,hs⟩ := require_bind_ok.mp hs
  obtain ⟨lock,hlock,he⟩ := bind_ok.mp hs
  cases he
  obtain ⟨hout,l,hl,hloc⟩ := Lock.State.acquire_loc hlock
  exact ⟨hout,rfl,l,hl,hloc,fun _ _ => Iff.rfl,rfl⟩

theorem resume_moves (hs : s.resume t = .ok s') : s.lock.loc t = .acquiring ∧
    s'.phase = s.phase ∧ ∃ l, (l = .acquired ∨ l = .acquiring) ∧ Moves s s' t l := by
  obtain ⟨lock,hlock,he⟩ := bind_ok.mp hs
  cases he
  obtain ⟨hacq,l,hl,hloc⟩ := Lock.State.resume_loc hlock
  exact ⟨hacq,rfl,l,hl,hloc,fun _ _ => Iff.rfl,rfl⟩

theorem setHolder_moves (hs : s.setHolder t = .ok s') :
    s.lock.loc t = .acquired ∧ Moves s s' t .inside := by
  obtain ⟨lock,hlock,hc⟩ := setHolder_cases hs
  obtain ⟨hacq,rfl⟩ := Lock.State.setHolder_ok.mp hlock
  refine ⟨hacq,?_⟩
  rcases hc with ⟨w,_,rfl⟩ | ⟨_,rfl⟩
  · exact ⟨rfl,fun u hu => by simp [hu],rfl⟩
  · exact ⟨rfl,fun _ _ => Iff.rfl,rfl⟩

theorem release_moves (hs : s.release t = .ok s') :
    s'.phase = s.phase ∧ Moves s s' t .outside := by
  obtain ⟨_,hs⟩ := require_bind_ok.mp hs
  obtain ⟨lock,hlock,he⟩ := bind_ok.mp hs
  cases he
  obtain ⟨_,_,rfl⟩ := Lock.State.release_ok.mp hlock
  exact ⟨rfl,rfl,fun _ _ => Iff.rfl,rfl⟩

theorem wait_moves (hs : s.wait t = .ok s') :
    s'.phase t ≠ .none ∧ Moves s s' t .outside := by
  obtain ⟨_,_,lock,hlock,rfl⟩ := wait_ok hs
  obtain ⟨_,_,rfl⟩ := Lock.State.release_ok.mp hlock
  exact ⟨by simp,rfl,fun u hu => by simp [hu],rfl⟩

theorem signal_moves (h : Inv s) (hs : s.signal t = .ok s') : Moves s s' t .inside := by
  obtain ⟨hf,hs⟩ := require_bind_ok.mp hs
  have hloc : s.lock.loc = Function.update s.lock.loc t .inside := by
    rw [← hf.1,Function.update_eq_self]
  cases hq : s.waitQueue with
  | nil =>
    rw [signalBody_nil hq (h.held hf.1)] at hs
    cases hs
    exact ⟨hloc,fun _ _ => Iff.rfl,rfl⟩
  | cons w q =>
    obtain ⟨v,p,hv,he⟩ := h.signalBody_eq hq (h.held hf.1)
    rw [he] at hs
    cases hs
    refine ⟨hloc,fun u hu => ?_,rfl⟩
    by_cases huv : u = v
    · subst huv
      rcases hv with ⟨hv,rfl⟩ | ⟨hv,rfl⟩ <;> simp [hv]
    · simp [huv]

theorem waiterP_moves (h : Inv s) (hs : s.waiterP t = .ok s') :
    s.phase t ≠ .none ∧ s'.phase t ≠ .none ∧ Moves s s' t (s.lock.loc t) := by
  obtain ⟨w,hp⟩ := waiterP_phase hs
  rw [h.waiterP_eq hp] at hs
  cases hs
  refine ⟨by simp [hp],?_,by simp,fun u hu => by simp [hu],rfl⟩
  by_cases hw : w ∈ s.waitQueue <;> simp [hw]

theorem waiterResume_moves (h : Inv s) (hs : s.waiterResume t = .ok s') :
    s.phase t ≠ .none ∧ s'.phase t ≠ .none ∧ Moves s s' t (s.lock.loc t) := by
  obtain ⟨w,hp⟩ := waiterResume_phase hs
  rw [h.waiterResume_eq hp] at hs
  cases hs
  exact ⟨by simp [hp],by simp,by simp,fun u hu => by simp [hu],rfl⟩

/-! Sections of the thread that holds the lock are never refused. -/

theorem setHolder_enabled (hl : s.lock.loc t = .acquired) : ∃ s', s.setHolder t = .ok s' := by
  have hlock := Lock.State.setHolder_ok.mpr ⟨hl,rfl⟩
  unfold setHolder
  rw [hlock]
  cases s.phase t <;> exact ⟨_,rfl⟩

theorem State.Inv.lock_release (h : Inv s) (hf : s.Free t) :
    ∃ lock, s.lock.release t = .ok lock :=
  ⟨_,Lock.State.release_ok.mpr ⟨hf.1,h.held hf.1,rfl⟩⟩

theorem State.Inv.release_enabled (h : Inv s) (hf : s.Free t) : ∃ s', s.release t = .ok s' := by
  obtain ⟨lock,hlock⟩ := h.lock_release hf
  exact ⟨_,require_bind_ok.mpr ⟨hf,bind_ok.mpr ⟨lock,hlock,rfl⟩⟩⟩

theorem State.Inv.wait_enabled (h : Inv s) (hf : s.Free t) : ∃ s', s.wait t = .ok s' := by
  obtain ⟨lock,hlock⟩ := h.lock_release hf
  have hn := (h.fresh s.nextWaiter le_rfl).2.2
  have happ := append_of_notMem hn
  exact ⟨_,require_bind_ok.mpr ⟨hf,check_bind_ok.mpr ⟨h.held hf.1,
    bind_ok.mpr ⟨_,happ,bind_ok.mpr ⟨lock,hlock,rfl⟩⟩⟩⟩⟩

theorem State.Inv.signal_enabled (h : Inv s) (hf : s.Free t) : ∃ s', s.signal t = .ok s' := by
  cases hq : s.waitQueue with
  | nil => exact ⟨s,require_bind_ok.mpr ⟨hf,signalBody_nil hq (h.held hf.1)⟩⟩
  | cons w q =>
    obtain ⟨u,p,_,he⟩ := h.signalBody_eq hq (h.held hf.1)
    exact ⟨_,require_bind_ok.mpr ⟨hf,he⟩⟩

end Condition

namespace SynchList

variable {Thread Item : Type} [DecidableEq Thread] [DecidableEq Item]

/-- What a thread is doing: nothing, `Append` before its signal, `Append` after a signal
that woke somebody (interrupts were enabled in between), or `RemoveFront`. -/
inductive Call (Item : Type)
  | none | appending (item : Item) | signalled | removing
  deriving DecidableEq, Repr

/-- `appended` and `removed` are ghosts: the items in the order of the list operations. -/
structure State (Thread Item : Type) where
  listEmpty : Condition.State Thread
  list : List Item
  call : Thread → Call Item
  appended : List Item
  removed : List Item

def new : State Thread Item := ⟨Condition.new,[],fun _ => .none,[],[]⟩

namespace State

def append (s : State Thread Item) (t : Thread) (item : Item) :
    Except Fault (State Thread Item) := do
  require (s.call t = .none)
  return { s with
    listEmpty := ← s.listEmpty.acquire t
    call := Function.update s.call t (.appending item) }

def removeFront (s : State Thread Item) (t : Thread) : Except Fault (State Thread Item) := do
  require (s.call t = .none)
  return { s with
    listEmpty := ← s.listEmpty.acquire t
    call := Function.update s.call t .removing }

/-- The rest of `Append`, from the end of `Acquire`.  That the item is not in the list is
the promise of the callers.  `Signal` ends the section only if it woke a waiter. -/
def appendBody (s : State Thread Item) (t : Thread) (item : Item) :
    Except Fault (State Thread Item) := do
  let held ← s.listEmpty.setHolder t
  require (item ∉ s.list)
  let list ← KernelList.append s.list item
  let signalled ← held.signal t
  let s' := { s with list := list, appended := s.appended ++ [item] }
  if held.waitQueue = [] then
    return { s' with
      listEmpty := ← signalled.release t
      call := Function.update s.call t .none }
  else
    return { s' with listEmpty := signalled, call := Function.update s.call t .signalled }

/-- One test of the loop in `RemoveFront`, from the end of the `Acquire` before it. -/
def removeFrontBody (s : State Thread Item) (t : Thread) : Except Fault (State Thread Item) := do
  let held ← s.listEmpty.setHolder t
  if s.list = [] then
    return { s with listEmpty := ← held.wait t }
  else
    let (item,list) ← KernelList.removeFront s.list
    return { s with
      listEmpty := ← held.release t
      list := list
      call := Function.update s.call t .none
      removed := s.removed ++ [item] }

def enter (s : State Thread Item) (t : Thread) : Except Fault (State Thread Item) :=
  match s.call t with
  | .appending item => s.appendBody t item
  | .removing => s.removeFrontBody t
  | _ => .error .blocked

def finishAppend (s : State Thread Item) (t : Thread) : Except Fault (State Thread Item) := do
  require (s.call t = .signalled)
  return { s with
    listEmpty := ← s.listEmpty.release t
    call := Function.update s.call t .none }

/-- `conditionLock->Acquire()` in `Wait`. -/
def reacquire (s : State Thread Item) (t : Thread) : Except Fault (State Thread Item) := do
  require (s.call t = .removing)
  return { s with listEmpty := ← s.listEmpty.acquire t }

end State

inductive Action (Thread Item : Type)
  | append (t : Thread) (item : Item) | removeFront (t : Thread) | lockResume (t : Thread)
  | enter (t : Thread) | finishAppend (t : Thread)
  | waiterP (t : Thread) | waiterResume (t : Thread) | reacquire (t : Thread)
  deriving DecidableEq, Repr

def step (s : State Thread Item) : Action Thread Item → Except Fault (State Thread Item)
  | .append t item => s.append t item
  | .removeFront t => s.removeFront t
  | .lockResume t => do return { s with listEmpty := ← s.listEmpty.resume t }
  | .enter t => s.enter t
  | .finishAppend t => s.finishAppend t
  | .waiterP t => do return { s with listEmpty := ← s.listEmpty.waiterP t }
  | .waiterResume t => do return { s with listEmpty := ← s.listEmpty.waiterResume t }
  | .reacquire t => s.reacquire t

def machine : Machine (State Thread Item) (Action Thread Item) where
  initial s := s = new
  step := step

namespace State

/-- The place of a thread in the lock and the condition, as its call has it. -/
def CallOk (s : State Thread Item) (t : Thread) : Prop :=
  match s.call t with
  | .none => s.listEmpty.lock.loc t = .outside ∧ s.listEmpty.phase t = .none
  | .appending _ => (s.listEmpty.lock.loc t = .acquired ∨ s.listEmpty.lock.loc t = .acquiring) ∧
      s.listEmpty.phase t = .none
  | .signalled => s.listEmpty.lock.loc t = .inside ∧ s.listEmpty.phase t = .none
  | .removing => s.listEmpty.lock.loc t ≠ .inside ∧
      (s.listEmpty.phase t = .none → s.listEmpty.lock.loc t ≠ .outside)

structure Inv (s : State Thread Item) : Prop where
  cond : s.listEmpty.Inv
  calls : ∀ t, s.CallOk t
  quiet : ∀ t, s.listEmpty.broadcasting t = none
  fifo : s.appended = s.removed ++ s.list
  covered : s.listEmpty.waitQueue ≠ [] → s.list.length ≤ s.listEmpty.signalled.card

variable {s s' : State Thread Item} {t : Thread} {item : Item}

omit [DecidableEq Item] in
/-- Only the moving thread has to be looked at again. -/
theorem Inv.moved (h : Inv s) {l : Lock.Loc} (hcond : s'.listEmpty.Inv)
    (hm : Condition.Moves s.listEmpty s'.listEmpty t l)
    (hcall : ∀ u, u ≠ t → s'.call u = s.call u) (ht : s'.CallOk t)
    (hfifo : s'.appended = s'.removed ++ s'.list)
    (hcov : s'.listEmpty.waitQueue ≠ [] → s'.list.length ≤ s'.listEmpty.signalled.card) :
    Inv s' := by
  refine ⟨hcond,fun u => ?_,fun u => by rw [hm.broadcasting]; exact h.quiet u,hfifo,hcov⟩
  by_cases hu : u = t
  · exact hu ▸ ht
  · have hk := h.calls u
    have hloc : s'.listEmpty.lock.loc u = s.listEmpty.lock.loc u := by simp [hm.loc,hu]
    unfold CallOk at hk ⊢
    rw [hcall u hu,hloc]
    cases hc : s.call u <;> simp only [hc,hm.phase u hu] at hk ⊢ <;> exact hk

omit [DecidableEq Item] in
/-- The same when the list, the queue and the signalled waiters are left alone. -/
theorem Inv.moved_quietly (h : Inv s) {c : Condition.State Thread} {k : Thread → Call Item}
    {l : Lock.Loc} (hcond : c.Inv) (hm : Condition.Moves s.listEmpty c t l)
    (hsig : c.signalled = s.listEmpty.signalled ∧ c.waitQueue = s.listEmpty.waitQueue)
    (hcall : ∀ u, u ≠ t → k u = s.call u) (ht : { s with listEmpty := c, call := k }.CallOk t) :
    Inv { s with listEmpty := c, call := k } := by
  refine h.moved hcond hm hcall ht h.fifo ?_
  simp only [hsig.1,hsig.2]
  exact h.covered

theorem Inv.append (h : Inv s) (hs : s.append t item = .ok s') : Inv s' := by
  obtain ⟨hcall,hs⟩ := require_bind_ok.mp hs
  obtain ⟨c,hc,he⟩ := bind_ok.mp hs
  cases he
  obtain ⟨_,hp,l,hl,hm⟩ := Condition.acquire_moves hc
  refine h.moved_quietly (h.cond.acquire hc) hm (Condition.acquire_signalled hc)
    (fun u hu => by simp [hu]) ?_
  have hk := h.calls t
  simp only [CallOk,hcall] at hk
  simp only [CallOk,Function.update_self,hm.loc,hp]
  exact ⟨hl,hk.2⟩

theorem Inv.removeFront (h : Inv s) (hs : s.removeFront t = .ok s') : Inv s' := by
  obtain ⟨_,hs⟩ := require_bind_ok.mp hs
  obtain ⟨c,hc,he⟩ := bind_ok.mp hs
  cases he
  obtain ⟨_,_,l,hl,hm⟩ := Condition.acquire_moves hc
  refine h.moved_quietly (h.cond.acquire hc) hm (Condition.acquire_signalled hc)
    (fun u hu => by simp [hu]) ?_
  simp only [CallOk,Function.update_self,hm.loc]
  rcases hl with rfl | rfl <;> simp

theorem Inv.reacquire (h : Inv s) (hs : s.reacquire t = .ok s') : Inv s' := by
  obtain ⟨hcall,hs⟩ := require_bind_ok.mp hs
  obtain ⟨c,hc,he⟩ := bind_ok.mp hs
  cases he
  obtain ⟨_,_,l,hl,hm⟩ := Condition.acquire_moves hc
  refine h.moved_quietly (h.cond.acquire hc) hm (Condition.acquire_signalled hc)
    (fun _ _ => rfl) ?_
  simp only [CallOk,hcall,hm.loc,Function.update_self]
  rcases hl with rfl | rfl <;> simp

theorem Inv.lockResume (h : Inv s) (hs : step s (.lockResume t) = .ok s') : Inv s' := by
  obtain ⟨c,hc,he⟩ := bind_ok.mp hs
  cases he
  obtain ⟨hacq,hp,l,hl,hm⟩ := Condition.resume_moves hc
  refine h.moved_quietly (h.cond.resume hc) hm (Condition.resume_signalled hc)
    (fun _ _ => rfl) ?_
  have hk := h.calls t
  unfold CallOk at hk ⊢
  cases hcall : s.call t with
  | none => simp [hcall,hacq] at hk
  | appending item =>
    simp only [hcall] at hk
    simp only [hm.loc,hp,Function.update_self]
    exact ⟨hl,hk.2⟩
  | signalled => simp [hcall,hacq] at hk
  | removing =>
    simp only [hm.loc,Function.update_self]
    rcases hl with rfl | rfl <;> simp

omit [DecidableEq Thread] [DecidableEq Item] in
/-- A thread asleep in `Wait` is one that is removing. -/
theorem Inv.removing_of_phase (h : Inv s) (hp : s.listEmpty.phase t ≠ .none) :
    s.call t = .removing := by
  have hk := h.calls t
  unfold CallOk at hk
  cases hcall : s.call t <;> simp_all

omit [DecidableEq Item] in
theorem Inv.sleeper (h : Inv s) {c : Condition.State Thread} (hcond : c.Inv)
    (hp : s.listEmpty.phase t ≠ .none) (hp' : c.phase t ≠ .none)
    (hm : Condition.Moves s.listEmpty c t (s.listEmpty.lock.loc t))
    (hsig : c.signalled = s.listEmpty.signalled ∧ c.waitQueue = s.listEmpty.waitQueue) :
    Inv { s with listEmpty := c } := by
  have hcall := h.removing_of_phase hp
  refine h.moved_quietly hcond hm hsig (fun _ _ => rfl) ?_
  have hk := h.calls t
  simp only [CallOk,hcall] at hk
  simp only [CallOk,hcall,hm.loc,Function.update_self]
  exact ⟨hk.1,fun hn => absurd hn hp'⟩

theorem Inv.finishAppend (h : Inv s) (hs : s.finishAppend t = .ok s') : Inv s' := by
  obtain ⟨hcall,hs⟩ := require_bind_ok.mp hs
  obtain ⟨c,hc,he⟩ := bind_ok.mp hs
  cases he
  obtain ⟨hp,hm⟩ := Condition.release_moves hc
  refine h.moved_quietly (h.cond.release hc) hm (Condition.release_signalled hc)
    (fun u hu => by simp [hu]) ?_
  have hk := h.calls t
  simp only [CallOk,hcall] at hk
  simp only [CallOk,Function.update_self,hm.loc,hp]
  exact ⟨trivial,hk.2⟩

/-- What the section of `Append` under the lock has done when it ends. -/
theorem appendBody_ok (hs : s.appendBody t item = .ok s') :
    ∃ held signalled, s.listEmpty.setHolder t = .ok held ∧ item ∉ s.list ∧
      held.signal t = .ok signalled ∧
      ((held.waitQueue = [] ∧ ∃ c, signalled.release t = .ok c ∧ s' = { s with
          listEmpty := c
          list := s.list ++ [item]
          call := Function.update s.call t .none
          appended := s.appended ++ [item] }) ∨
        (held.waitQueue ≠ [] ∧ s' = { s with
          listEmpty := signalled
          list := s.list ++ [item]
          call := Function.update s.call t .signalled
          appended := s.appended ++ [item] })) := by
  obtain ⟨held,hheld,hs⟩ := bind_ok.mp hs
  obtain ⟨hn,hs⟩ := require_bind_ok.mp hs
  obtain ⟨list,hlist,hs⟩ := bind_ok.mp hs
  obtain ⟨signalled,hsig,hs⟩ := bind_ok.mp hs
  rw [KernelList.append_of_notMem hn] at hlist
  cases hlist
  refine ⟨held,signalled,hheld,hn,hsig,?_⟩
  by_cases hq : held.waitQueue = []
  · rw [if_pos hq] at hs
    obtain ⟨c,hc,he⟩ := bind_ok.mp hs
    cases he
    exact Or.inl ⟨hq,c,hc,rfl⟩
  · rw [if_neg hq] at hs
    cases hs
    exact Or.inr ⟨hq,rfl⟩

theorem Inv.appendBody (h : Inv s) (hcall : s.call t = .appending item)
    (hs : s.appendBody t item = .ok s') : Inv s' := by
  obtain ⟨held,c,hheld,_,hc,hend⟩ := appendBody_ok hs
  have hk := h.calls t
  simp only [CallOk,hcall] at hk
  have hinv := h.cond.setHolder hheld
  obtain ⟨_,hm⟩ := Condition.setHolder_moves hheld
  obtain ⟨hq,_,hsame⟩ := Condition.setHolder_signalled hheld
  have hsig := hsame fun w => by simp [hk.2]
  have hm' := hm.trans (Condition.signal_moves hinv hc)
  have hin := hinv.signal hc
  have hnone : c.phase t = .none := hin.phase_of_inside (by simp [hm'.loc])
  rcases Condition.signal_signalled hinv hc with ⟨hq',rfl⟩ | ⟨hq',hcard⟩
  · rcases hend with ⟨_,d,hd,rfl⟩ | ⟨hne,_⟩
    · obtain ⟨hp,hmd⟩ := Condition.release_moves hd
      refine h.moved (hin.release hd) (hm'.trans hmd) (fun u hu => by simp [hu]) ?_ ?_ ?_
      · simp only [CallOk,Function.update_self,hmd.loc,hp]
        exact ⟨trivial,hnone⟩
      · simp [h.fifo]
      · simp [(Condition.release_signalled hd).2,hq']
    · exact absurd hq' hne
  · rcases hend with ⟨he,_⟩ | ⟨_,rfl⟩
    · exact absurd he hq'
    · refine h.moved hin hm' (fun u hu => by simp [hu]) ?_ ?_ ?_
      · simp only [CallOk,Function.update_self,hm'.loc]
        exact ⟨trivial,hnone⟩
      · simp [h.fifo]
      · -- the new item is matched by the waiter that was signalled for it
        intro _
        have hcov := h.covered (hq ▸ hq')
        simp only [List.length_append,List.length_singleton,hcard,hsig]
        omega

omit [DecidableEq Item] in
/-- What one test of the loop in `RemoveFront` has done when its section ends. -/
theorem removeFrontBody_ok (hs : s.removeFrontBody t = .ok s') :
    ∃ held, s.listEmpty.setHolder t = .ok held ∧
      ((s.list = [] ∧ ∃ c, held.wait t = .ok c ∧ s' = { s with listEmpty := c }) ∨
        (∃ item list c, s.list = item :: list ∧ held.release t = .ok c ∧ s' = { s with
          listEmpty := c
          list := list
          call := Function.update s.call t .none
          removed := s.removed ++ [item] })) := by
  obtain ⟨held,hheld,hs⟩ := bind_ok.mp hs
  refine ⟨held,hheld,?_⟩
  cases hl : s.list with
  | nil =>
    rw [if_pos hl] at hs
    obtain ⟨c,hc,he⟩ := bind_ok.mp hs
    cases he
    exact Or.inl ⟨rfl,c,hc,by rw [← hl]⟩
  | cons item list =>
    rw [if_neg (by simp [hl]),hl] at hs
    obtain ⟨⟨i,l⟩,hi,hs⟩ := bind_ok.mp hs
    cases hi
    obtain ⟨c,hc,he⟩ := bind_ok.mp hs
    cases he
    exact Or.inr ⟨item,list,c,rfl,hc,rfl⟩

omit [DecidableEq Item] in
theorem Inv.removeFrontBody (h : Inv s) (hcall : s.call t = .removing)
    (hs : s.removeFrontBody t = .ok s') : Inv s' := by
  obtain ⟨held,hheld,hend⟩ := removeFrontBody_ok hs
  have hinv := h.cond.setHolder hheld
  obtain ⟨_,hm⟩ := Condition.setHolder_moves hheld
  obtain ⟨hq,hcard,_⟩ := Condition.setHolder_signalled hheld
  rcases hend with ⟨hl,c,hc,rfl⟩ | ⟨item,list,c,hl,hc,rfl⟩
  · obtain ⟨hp,hmc⟩ := Condition.wait_moves hc
    refine h.moved (hinv.wait hc) (hm.trans hmc) (fun _ _ => rfl) ?_ h.fifo ?_
    · simp only [CallOk,hcall,hmc.loc,Function.update_self]
      exact ⟨by simp,fun hn => absurd hn hp⟩
    · simp [hl]
  · obtain ⟨hp,hmc⟩ := Condition.release_moves hc
    obtain ⟨hsig,hq'⟩ := Condition.release_signalled hc
    have hnone : held.phase t = .none := hinv.phase_of_inside (by simp [hm.loc])
    refine h.moved (hinv.release hc) (hm.trans hmc) (fun u hu => by simp [hu]) ?_ ?_ ?_
    · simp only [CallOk,Function.update_self,hmc.loc,hp]
      exact ⟨trivial,hnone⟩
    · simp [h.fifo,hl]
    · -- the item taken and the waiter that took it leave together
      intro hne
      have hcov := h.covered (by simpa only [hq',hq] using hne)
      rw [hl,List.length_cons] at hcov
      simp only [hsig]
      omega

end State

open State

omit [DecidableEq Thread] [DecidableEq Item] in
theorem inv_initial : Inv (new : State Thread Item) := by
  refine ⟨Condition.inv_initial,?_,?_,rfl,?_⟩ <;>
    simp [new,CallOk,Condition.new,Lock.new]

theorem enter_cases {s s' : State Thread Item} {t : Thread} (h : s.enter t = .ok s') :
    (∃ item, s.call t = .appending item ∧ s.appendBody t item = .ok s') ∨
    (s.call t = .removing ∧ s.removeFrontBody t = .ok s') := by
  unfold State.enter at h
  cases hcall : s.call t <;> simp_all

theorem inv_step {s s' : State Thread Item} {a : Action Thread Item} (hs : Inv s)
    (h : step s a = .ok s') : Inv s' := by
  cases a with
  | append t item => exact hs.append h
  | removeFront t => exact hs.removeFront h
  | lockResume t => exact hs.lockResume h
  | enter t =>
    rcases enter_cases h with ⟨item,hcall,h⟩ | ⟨hcall,h⟩
    · exact hs.appendBody hcall h
    · exact hs.removeFrontBody hcall h
  | finishAppend t => exact hs.finishAppend h
  | waiterP t =>
    obtain ⟨c,hc,he⟩ := bind_ok.mp h
    cases he
    obtain ⟨hp,hp',hm⟩ := Condition.waiterP_moves hs.cond hc
    exact hs.sleeper (hs.cond.waiterP hc) hp hp' hm (Condition.waiterP_signalled hs.cond hc)
  | waiterResume t =>
    obtain ⟨c,hc,he⟩ := bind_ok.mp h
    cases he
    obtain ⟨hp,hp',hm⟩ := Condition.waiterResume_moves hs.cond hc
    exact hs.sleeper (hs.cond.waiterResume hc) hp hp' hm
      (Condition.waiterResume_signalled hs.cond hc)
  | reacquire t => exact hs.reacquire h

theorem reachable_inv {s : State Thread Item} (h : machine.Reachable s) : Inv s :=
  h.invariant (fun _ hi => hi ▸ inv_initial) fun _ _ _ => inv_step

omit [DecidableEq Item] in
/-- The thread that has just got the lock is between two calls of the condition. -/
theorem State.Inv.held_free {s : State Thread Item} {t : Thread} {held : Condition.State Thread}
    (h : Inv s) (hheld : s.listEmpty.setHolder t = .ok held) : held.Inv ∧ held.Free t := by
  have hinv := h.cond.setHolder hheld
  obtain ⟨_,hm⟩ := Condition.setHolder_moves hheld
  have hl : held.lock.loc t = .inside := by simp [hm.loc]
  exact ⟨hinv,hl,hinv.phase_of_inside hl,by rw [hm.broadcasting]; exact h.quiet t⟩

/-- A thread that has the lock always gets through its section: what it calls there
neither fails an assertion nor is refused. -/
theorem State.Inv.enter_enabled {s : State Thread Item} {t : Thread} (h : Inv s)
    (hl : s.listEmpty.lock.loc t = .acquired)
    (hnew : ∀ item, s.call t = .appending item → item ∉ s.list) :
    ∃ s', s.enter t = .ok s' := by
  obtain ⟨held,hheld⟩ := Condition.setHolder_enabled hl
  obtain ⟨hinv,hfree⟩ := h.held_free hheld
  have hk := h.calls t
  unfold CallOk at hk
  cases hcall : s.call t with
  | none => simp [hcall,hl] at hk
  | signalled => simp [hcall,hl] at hk
  | appending item =>
    have happ := KernelList.append_of_notMem (hnew item hcall)
    obtain ⟨c,hc⟩ := hinv.signal_enabled hfree
    have hm := Condition.signal_moves hinv hc
    have hin := hinv.signal hc
    have hl' : c.lock.loc t = .inside := by simp [hm.loc]
    obtain ⟨d,hd⟩ := hin.release_enabled
      ⟨hl',hin.phase_of_inside hl',by rw [hm.broadcasting]; exact hfree.2.2⟩
    simp only [State.enter,hcall,State.appendBody,hheld,happ,hc,hd,bind,Except.bind,
      require_of (hnew item hcall)]
    split <;> exact ⟨_,rfl⟩
  | removing =>
    simp only [State.enter,hcall,State.removeFrontBody,hheld,bind,Except.bind]
    cases hlist : s.list with
    | nil =>
      obtain ⟨c,hc⟩ := hinv.wait_enabled hfree
      simp only [hc,if_pos]
      exact ⟨_,rfl⟩
    | cons item list =>
      obtain ⟨c,hc⟩ := hinv.release_enabled hfree
      simp only [hc,KernelList.removeFront]
      exact ⟨_,rfl⟩

theorem State.Inv.step_not_assertion {s : State Thread Item} (hs : Inv s)
    (a : Action Thread Item) : step s a ≠ .error .assertion := by
  have hcond := hs.cond.step_not_assertion
  intro h
  cases a with
  | append t item =>
    exact hcond (.acquire t) (bind_pure_assertion.mp (require_bind_assertion.mp h).2)
  | removeFront t =>
    exact hcond (.acquire t) (bind_pure_assertion.mp (require_bind_assertion.mp h).2)
  | lockResume t => exact hcond (.resume t) (bind_pure_assertion.mp h)
  | finishAppend t =>
    exact hcond (.release t) (bind_pure_assertion.mp (require_bind_assertion.mp h).2)
  | waiterP t => exact hcond (.waiterP t) (bind_pure_assertion.mp h)
  | waiterResume t => exact hcond (.waiterResume t) (bind_pure_assertion.mp h)
  | reacquire t => exact hcond (.acquire t) (bind_pure_assertion.mp (require_bind_assertion.mp h).2)
  | enter t =>
    by_cases hl : s.listEmpty.lock.loc t = .acquired
    · by_cases hnew : ∀ item, s.call t = .appending item → item ∉ s.list
      · obtain ⟨s',hok⟩ := hs.enter_enabled hl hnew
        have hok : step s (.enter t) = .ok s' := hok
        rw [hok] at h
        cases h
      · push Not at hnew
        obtain ⟨item,hcall,hmem⟩ := hnew
        obtain ⟨held,hheld⟩ := Condition.setHolder_enabled hl
        have hblocked : step s (.enter t) = .error .blocked := by
          simp [step,State.enter,hcall,State.appendBody,hheld,require,hmem,bind,Except.bind]
        rw [hblocked] at h
        cases h
    · have hblocked : ∀ f : Condition.State Thread → Except Fault (State Thread Item),
          (s.listEmpty.setHolder t >>= f) = .error .blocked := by
        intro f
        simp [Condition.State.setHolder,Lock.State.setHolder,require,hl,bind,Except.bind]
      change s.enter t = .error .assertion at h
      unfold State.enter at h
      cases hcall : s.call t with
      | none => simp [hcall] at h
      | signalled => simp [hcall] at h
      | appending item =>
        rw [hcall] at h
        cases (hblocked _).symm.trans h
      | removing =>
        rw [hcall] at h
        cases (hblocked _).symm.trans h

/-- `SynchList` is a blocking queue: in every interleaving the items come out in the order
in which they went in, the list is never asked for an item it does not have, and a thread
is left in the wait queue only if every item has a released thread that is still to look. -/
theorem synchList_blocking_queue (s : State Thread Item) (h : machine.Reachable s) :
    s.removed <+: s.appended ∧ s.appended = s.removed ++ s.list ∧
    (∀ a, step s a ≠ .error .assertion) ∧
    (s.listEmpty.waitQueue ≠ [] → s.list.length ≤ s.listEmpty.signalled.card) ∧
    (∀ w, w ∈ s.listEmpty.signalled → ∃! t, s.listEmpty.Released t w) ∧
    ∀ t w, s.listEmpty.Released t w → w ∈ s.listEmpty.signalled ∧ s.call t = .removing := by
  have hs := reachable_inv h
  refine ⟨⟨s.list,hs.fifo.symm⟩,hs.fifo,hs.step_not_assertion,hs.covered,?_,?_⟩
  · intro w hw
    obtain ⟨t,ht⟩ := hs.cond.mem_signalled_iff.mp hw
    exact ⟨t,ht,fun u hu => hs.cond.unique u t w hu.2 ht.2⟩
  · intro t w ht
    refine ⟨hs.cond.mem_signalled_iff.mpr ⟨t,ht⟩,hs.removing_of_phase ?_⟩
    intro hn
    have := ht.2
    simp [hn,Condition.Phase.waiter] at this

/-- A consumer waits, another one has queued behind it, and an item arrives. -/
theorem synchList_blocking_queue_two_consumers :
    ∃ s : State (Fin 3) ℕ, machine.run new [.removeFront 0,.enter 0,.waiterP 0,.removeFront 1,
        .enter 1,.append 2 7,.enter 2] = .ok s ∧
      s.listEmpty.waitQueue = [1] ∧ s.list = [7] ∧ s.listEmpty.signalled.card = 1 ∧
      (s.listEmpty.waitQueue ≠ [] → s.list.length ≤ s.listEmpty.signalled.card) := by
  refine ⟨_,rfl,rfl,rfl,rfl,(synchList_blocking_queue _ ?_).2.2.2.1⟩
  apply Machine.reachable_iff_run.mpr
  exact ⟨new,[.removeFront 0,.enter 0,.waiterP 0,.removeFront 1,.enter 1,.append 2 7,.enter 2],
    rfl,rfl⟩

end SynchList
end NachOS
