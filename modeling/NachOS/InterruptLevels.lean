import NachOS.Scheduler

/-! The interrupt level under the scheduler (machine/interrupt.cc, threads/alarm.cc).  A call
that disables interrupts keeps the level it found in a local variable, on the stack of its
thread; the level is put back when the call returns, which may be after other threads ran. -/
namespace NachOS
namespace Scheduler

open StateMachine

variable {Sem Thread : Type} [DecidableEq Sem] [DecidableEq Thread]

namespace State

/-- The level and the request for a switch are as before, for the same thread. -/
structure KeepsLevel (k k' : State Sem Thread) : Prop where
  level : k'.level = k.level
  yieldOnReturn : k'.yieldOnReturn = k.yieldOnReturn
  currentThread : k'.currentThread = k.currentThread
  control : k'.control = k.control
  inHandler : k'.inHandler = k.inHandler

variable {k k₁ k₂ k' : State Sem Thread} {t : Thread} {s : Sem}

omit [DecidableEq Sem] [DecidableEq Thread] in
theorem KeepsLevel.trans (h : KeepsLevel k k₁) (h' : KeepsLevel k₁ k') : KeepsLevel k k' where
  level := h'.level.trans h.level
  yieldOnReturn := h'.yieldOnReturn.trans h.yieldOnReturn
  currentThread := h'.currentThread.trans h.currentThread
  control := h'.control.trans h.control
  inHandler := h'.inHandler.trans h.inHandler

omit [DecidableEq Sem] in
theorem ReadyToRun_keeps (h : k.ReadyToRun t = .ok k') : KeepsLevel k k' := by
  obtain ⟨_,rfl⟩ := eq_of_ReadyToRun h
  exact ⟨rfl,rfl,rfl,rfl,rfl⟩

omit [DecidableEq Sem] [DecidableEq Thread] in
theorem FindNextToRun_keeps {r : Option Thread} (h : k.FindNextToRun = .ok (r,k')) :
    KeepsLevel k k' := by
  obtain ⟨_,_,rfl⟩ := eq_of_FindNextToRun h
  exact ⟨rfl,rfl,rfl,rfl,rfl⟩

theorem wake_keeps (h : k.wake s = .ok k') : KeepsLevel k k' := by
  rcases of_wake h with rfl | ⟨t,ht⟩
  · exact ⟨rfl,rfl,rfl,rfl,rfl⟩
  · have hready := ReadyToRun_keeps ht
    exact ⟨hready.level,hready.yieldOnReturn,hready.currentThread,hready.control,
      hready.inHandler⟩

omit [DecidableEq Sem] [DecidableEq Thread] in
theorem SetLevel_level {now : IntStatus} (h : k.SetLevel now = .ok k') :
    k'.level = now ∧ k'.yieldOnReturn = k.yieldOnReturn := by
  rw [eq_of_SetLevel h]
  exact ⟨rfl,rfl⟩

omit [DecidableEq Sem] [DecidableEq Thread] in
/-- A section with interrupts off, between the two calls of `SetLevel` around it. -/
theorem restored_level (h₁ : k.SetLevel .intOff = .ok k₁) (h₂ : KeepsLevel k₁ k₂)
    (h : k₂.SetLevel k.level = .ok k') :
    k'.level = k.level ∧ k'.yieldOnReturn = k.yieldOnReturn := by
  obtain ⟨hlevel,hyield⟩ := SetLevel_level h
  exact ⟨hlevel,hyield.trans (h₂.yieldOnReturn.trans (SetLevel_level h₁).2)⟩

omit [DecidableEq Sem] in
theorem Fork_level (h : k.Fork t = .ok k') :
    k'.level = k.level ∧ k'.yieldOnReturn = k.yieldOnReturn := by
  obtain ⟨k₁,h₁,h⟩ := bind_ok.mp h
  obtain ⟨k₂,h₂,h⟩ := bind_ok.mp h
  exact restored_level (k := { k with saved := Function.update k.saved t .begin }) h₁
    (ReadyToRun_keeps h₂) h

theorem V_level (h : k.V s = .ok k') :
    k'.level = k.level ∧ k'.yieldOnReturn = k.yieldOnReturn := by
  obtain ⟨k₁,h₁,h⟩ := bind_ok.mp h
  obtain ⟨k₂,h₂,h⟩ := bind_ok.mp h
  exact restored_level h₁ (wake_keeps h₂) h

/-- In a handler `V` finds interrupts off and does not come to `OneTick`. -/
theorem V_off (hl : k.level = .intOff) (h : k.V s = .ok k') :
    k'.control = k.control ∧ k'.inHandler = k.inHandler := by
  obtain ⟨k₁,h₁,hrest⟩ := bind_ok.mp h
  obtain ⟨k₂,h₂,hlast⟩ := bind_ok.mp hrest
  have hwake := wake_keeps h₂
  cases (SetLevel_off k).symm.trans h₁
  rw [hl] at hlast
  cases (SetLevel_off k₂).symm.trans hlast
  exact ⟨hwake.control,hwake.inHandler⟩

omit [DecidableEq Sem] in
/-- `Yield` returns with the level it was entered with, or leaves that level in its frame. -/
theorem Yield_level (h : k.Yield t = .ok k') : k'.yieldOnReturn = k.yieldOnReturn ∧
    (k'.level = k.level ∨ k'.control = .switched ∧ k'.saved t = .yield k.level) := by
  obtain ⟨k₁,h₁,h⟩ := bind_ok.mp h
  obtain ⟨ht,h⟩ := check_bind_ok.mp h
  obtain ⟨⟨r,k₂⟩,h₂,h⟩ := bind_ok.mp h
  have hfind := FindNextToRun_keeps h₂
  cases r with
  | none =>
    obtain ⟨hlevel,hyield⟩ := SetLevel_level h
    exact ⟨hyield.trans (hfind.yieldOnReturn.trans (SetLevel_level h₁).2),Or.inl hlevel⟩
  | some next =>
    obtain ⟨k₃,h₃,h⟩ := bind_ok.mp h
    have hkeeps := hfind.trans (ReadyToRun_keeps h₃)
    rw [eq_of_Run h]
    refine ⟨hkeeps.yieldOnReturn.trans (SetLevel_level h₁).2,Or.inr ⟨rfl,?_⟩⟩
    rw [ht,← hkeeps.currentThread]
    exact Function.update_self ..

omit [DecidableEq Sem] in
theorem Sleep_level {b : Bool} {f : Frame Sem Thread} (h : k.Sleep t b f = .ok k') :
    k'.yieldOnReturn = k.yieldOnReturn ∧ k'.control = .sleeping b f := by
  rw [eq_of_Sleep h]
  exact ⟨rfl,rfl⟩

theorem passP_level {l : IntStatus} {r : Semaphore.State Thread} (h : k.passP s t l r = .ok k') :
    k'.yieldOnReturn = k.yieldOnReturn ∧
    (k'.level = l ∨ k'.control = .sleeping false (.inP s t l)) := by
  obtain ⟨⟨r',through⟩,_,h⟩ := bind_ok.mp h
  cases through with
  | true =>
    obtain ⟨hlevel,hyield⟩ := SetLevel_level h
    exact ⟨hyield,Or.inl hlevel⟩
  | false =>
    obtain ⟨hyield,hcontrol⟩ := Sleep_level h
    exact ⟨hyield,Or.inr hcontrol⟩

theorem P_level (h : k.P s = .ok k') : k'.yieldOnReturn = k.yieldOnReturn ∧
    (k'.level = k.level ∨
      k'.control = .sleeping false (.inP s k.currentThread k.level)) := by
  obtain ⟨k₁,h₁,h⟩ := bind_ok.mp h
  obtain ⟨hyield,hlevel⟩ := passP_level h
  exact ⟨hyield.trans (SetLevel_level h₁).2,hlevel⟩

omit [DecidableEq Sem] in
theorem Finish_level (h : k.Finish t = .ok k') : k'.yieldOnReturn = k.yieldOnReturn := by
  obtain ⟨k₁,h₁,h⟩ := bind_ok.mp h
  obtain ⟨_,h⟩ := check_bind_ok.mp h
  exact (Sleep_level h).1.trans (SetLevel_level h₁).2

/-- The level with which the thread that was switched to goes on: `Begin` enables
interrupts, the others put back what their frame holds. -/
def ResumesAt (k' : State Sem Thread) : Frame Sem Thread → Prop
  | .begin => k'.level = .intOn
  | .yield oldLevel => k'.level = oldLevel
  | .inP sem currentThread oldLevel => k'.level = oldLevel ∨
      k'.control = .sleeping false (.inP sem currentThread oldLevel)
  | .finish => False

theorem resume_level (h : k.resume = .ok k') :
    k'.yieldOnReturn = k.yieldOnReturn ∧ k'.ResumesAt (k.saved k.executing) := by
  obtain ⟨_,⟨l,hframe,hset⟩ | ⟨s,t,l,hframe,hpass⟩⟩ := of_resume h
  · obtain ⟨hlevel,hyield⟩ := SetLevel_level hset
    refine ⟨hyield,?_⟩
    rcases hframe with ⟨hframe,rfl⟩ | hframe
    · rw [hframe]
      exact hlevel
    · rw [hframe]
      exact hlevel
  · obtain ⟨hyield,hlevel⟩ := passP_level hpass
    rw [hframe]
    exact ⟨hyield,hlevel⟩

end State

open State

section Steps

variable {k k' : State Sem Thread} {a : Action Sem Thread}

/-- Only the timer's handler asks for a switch, and the end of `OneTick` forgets it. -/
theorem yieldOnReturn_step (h : step k a = .ok k') (hyield : k'.yieldOnReturn = true) :
    (k.yieldOnReturn = true ∧ a ≠ .returned) ∨ (a = .timer ∧ k.control = .handlers) := by
  -- a step that leaves the request alone
  have hsame : a ≠ .returned → k'.yieldOnReturn = k.yieldOnReturn →
      (k.yieldOnReturn = true ∧ a ≠ .returned) ∨ (a = .timer ∧ k.control = .handlers) :=
    fun hne he => Or.inl ⟨he.symm.trans hyield,hne⟩
  cases a with
  | fork t => exact hsame (by simp) (Fork_level (require_bind_ok.mp h).2).2
  | yield => exact hsame (by simp) (Yield_level (require_bind_ok.mp h).2).1
  | P s => exact hsame (by simp) (P_level (require_bind_ok.mp h).2).1
  | V s => exact hsame (by simp) (V_level (require_bind_ok.mp h).2).2
  | finish => exact hsame (by simp) (Finish_level (require_bind_ok.mp h).2)
  | handlerV s => exact hsame (by simp) (V_level (require_bind_ok.mp h).2).2
  | resume => exact hsame (by simp) (resume_level (require_bind_ok.mp h).2).1
  | instruction =>
    cases (require_bind_ok.mp h).2
    exact hsame (by simp) rfl
  | interrupt =>
    cases (require_bind_ok.mp h).2
    exact hsame (by simp) rfl
  | handled =>
    cases (require_bind_ok.mp h).2
    exact hsame (by simp) rfl
  | timer =>
    obtain ⟨_,h⟩ := check_bind_ok.mp (require_bind_ok.mp h).2
    cases h
    by_cases hc : k.control = .handlers
    · exact Or.inr ⟨rfl,hc⟩
    · exact hsame (by simp) (by rw [if_neg hc])
  | returned =>
    obtain ⟨_,h⟩ := require_bind_ok.mp h
    exfalso
    split at h
    · have hflag := (Yield_level h).1
      simp [hyield] at hflag
    · next hno =>
      cases h
      exact hno hyield
  | findNext =>
    obtain ⟨_,_,_,_,_,⟨next,hrun⟩ | rfl⟩ := of_findNext h
    · rw [eq_of_Run hrun] at hsame
      exact hsame (by simp) rfl
    · exact hsame (by simp) rfl
  | idled =>
    obtain ⟨_,_,_,rfl⟩ := of_idled h
    exact hsame (by simp) rfl

theorem allowed_of_ok (h : step k a = .ok k') : Allowed k a := by
  by_contra hnot
  cases (step_blocked hnot).symm.trans h

omit [DecidableEq Sem] [DecidableEq Thread] in
theorem State.Inv.inHandler (hk : k.Inv) (hc : k.control.InHandler) :
    k.level = .intOff ∧ k.inHandler = true := by
  obtain ⟨place,_,hctl⟩ := hk
  unfold ControlOk at hctl
  cases h : k.control <;> simp_all [Control.InHandler]

omit [DecidableEq Sem] [DecidableEq Thread] in
theorem State.Inv.switched (hk : k.Inv) (hc : k.control = .switched) : k.level = .intOff := by
  obtain ⟨place,_,hctl⟩ := hk
  simp only [ControlOk,hc] at hctl
  exact hctl.1

omit [DecidableEq Sem] [DecidableEq Thread] in
theorem State.Inv.enabled (hk : k.Inv)
    (hc : k.control = .running ∨ k.control = .afterHandlers) : k.level = .intOn := by
  obtain ⟨place,_,hctl⟩ := hk
  rcases hc with hc | hc <;> (simp only [ControlOk,hc] at hctl; exact hctl.1)

/-- The steps that a device's handler takes in `CheckIfDue`. -/
def Action.IsHandler : Action Sem Thread → Prop
  | .handlerV _ | .timer => True
  | _ => False

theorem handler_step (hk : k.Inv) (ha : a.IsHandler) (h : step k a = .ok k') :
    k'.level = .intOff ∧ k'.inHandler = true ∧ k'.control = k.control := by
  cases a with
  | handlerV s =>
    obtain ⟨hc,h⟩ := require_bind_ok.mp h
    obtain ⟨hl,hh⟩ := hk.inHandler hc
    obtain ⟨hcontrol,hin⟩ := V_off hl h
    exact ⟨(V_level h).1.trans hl,hin.trans hh,hcontrol⟩
  | timer =>
    obtain ⟨hc,h⟩ := require_bind_ok.mp h
    obtain ⟨hl,hh⟩ := hk.inHandler hc
    cases (check_bind_ok.mp h).2
    split
    · exact ⟨hl,hh,rfl⟩
    · exact ⟨hl,hh,rfl⟩
  | _ => exact absurd ha id

/-- Between a handler's call of `YieldOnReturn` and the test at the end of `OneTick`. -/
def State.YieldWindow (k : State Sem Thread) : Prop :=
  k.yieldOnReturn = true → k.control = .handlers ∨ k.control = .afterHandlers

theorem yieldWindow_step (hk : k.Inv) (hwindow : k.YieldWindow) (h : step k a = .ok k') :
    k'.YieldWindow := by
  intro hyield
  rcases yieldOnReturn_step h hyield with ⟨hset,hne⟩ | ⟨rfl,hc⟩
  · -- the request stands, so this is a handler's step or the end of the handlers
    have hallowed := allowed_of_ok h
    by_cases ha : a.IsHandler
    · rw [(handler_step hk ha h).2.2]
      exact hwindow hset
    · rcases hwindow hset with hc | hc <;>
        cases a <;> simp_all [Allowed,Action.IsHandler]
      cases (require_bind_ok.mp h).2
      simp
  · rw [(handler_step (a := .timer) hk trivial h).2.2]
    exact Or.inl hc

end Steps

theorem reachable_yieldWindow {initialValue : Sem → ℤ} {main : Thread} {k : State Sem Thread}
    (h : (machine initialValue main).Reachable k) : k.YieldWindow := by
  have hboth := h.invariant (P := fun k => k.Inv ∧ k.YieldWindow)
    (fun k hi => ⟨hi ▸ inv_initial initialValue main,by
      rw [show k = initial initialValue main from hi]
      simp [State.YieldWindow,initial]⟩)
    (fun k a k' hk hstep => ⟨inv_step hk.1 hstep,yieldWindow_step hk.1 hk.2 hstep⟩)
  exact hboth.2

/-- With interrupts enabled these functions stop at their assertion, and so does a handler
that would enable them. -/
def State.AssertsOff (k : State Sem Thread) : Prop :=
  (k.level ≠ .intOff → ∀ t finishing frame,
    k.ReadyToRun t = .error .assertion ∧ k.FindNextToRun = .error .assertion ∧
    k.Run t finishing frame = .error .assertion ∧
    k.Sleep t finishing frame = .error .assertion) ∧
  (k.inHandler = true → k.SetLevel .intOn = .error .assertion)

omit [DecidableEq Sem] in
theorem State.assertsOff (k : State Sem Thread) : k.AssertsOff := by
  refine ⟨fun hl t finishing frame => ⟨?_,?_,?_,?_⟩,fun hh => ?_⟩
  · simp [ReadyToRun,check,hl,bind,Except.bind]
  · simp [FindNextToRun,check,hl,bind,Except.bind]
  · simp [Run,check,hl,bind,Except.bind]
  · by_cases ht : t = k.currentThread <;> simp [Sleep,check,hl,ht,bind,Except.bind]
  · simp [SetLevel,check,hh,bind,Except.bind]

/-- Whatever the level is on entry: `Fork` and `V` return with it; `Yield` and `P` return with
it or are suspended with it in their frame, and return with what the frame holds. -/
structure State.RestoresLevel (k : State Sem Thread) : Prop where
  fork : ∀ t k', k.Fork t = .ok k' → k'.level = k.level
  V : ∀ s k', k.V s = .ok k' → k'.level = k.level
  yield : ∀ t k', k.Yield t = .ok k' →
    k'.level = k.level ∨ k'.control = .switched ∧ k'.saved t = .yield k.level
  P : ∀ s k', k.P s = .ok k' →
    k'.level = k.level ∨ k'.control = .sleeping false (.inP s k.currentThread k.level)
  resume : ∀ k', k.resume = .ok k' → k'.ResumesAt (k.saved k.executing)

theorem State.restoresLevel (k : State Sem Thread) : k.RestoresLevel where
  fork _ _ h := (Fork_level h).1
  V _ _ h := (V_level h).1
  yield _ _ h := (Yield_level h).2
  P _ _ h := (P_level h).2
  resume _ h := (resume_level h).2

/-- The calls that put the level back; the end of `OneTick` may be a call of `Yield`. -/
def Action.Restores : Action Sem Thread → Prop
  | .fork _ | .yield | .P _ | .V _ | .returned => True
  | _ => False

/-- What the interrupt level is in a state of a run.  `handlers` and `idle` are the two
places from which `CheckIfDue` runs. -/
structure State.Disciplined (M : Machine (State Sem Thread) (Action Sem Thread))
    (k : State Sem Thread) : Prop where
  asserts : ∀ a, step k a ≠ .error .assertion
  checkIfDue : k.control.InHandler → k.level = .intOff ∧ k.inHandler = true
  switchedIn : k.control = .switched → k.level = .intOff
  /-- However long the call takes and whatever runs before it returns. -/
  returns : ∀ a as k₁ k', a.Restores → step k a = .ok k₁ → M.run k₁ as = .ok k' →
    k'.control = .running → k'.executing = k.executing → k'.level = k.level
  handler : ∀ a k', a.IsHandler → step k a = .ok k' → k'.level = k.level ∧ k'.level = .intOff
  yieldWindow : k.YieldWindow
  yieldAsked : ∀ a k', step k a = .ok k' → k'.yieldOnReturn = true →
    (k.yieldOnReturn = true ∧ a ≠ .returned) ∨ (a = .timer ∧ k.control = .handlers)

/-- The discipline of interrupt levels, over all runs. -/
theorem interrupt_levels (initialValue : Sem → ℤ) (main : Thread) (k : State Sem Thread)
    (h : (machine initialValue main).Reachable k) :
    k.Disciplined (machine initialValue main) ∧
    ∀ k' : State Sem Thread, k'.AssertsOff ∧ k'.RestoresLevel := by
  have hk := reachable_inv h
  refine ⟨⟨step_not_assertion hk,hk.inHandler,hk.switched,?_,?_,reachable_yieldWindow h,
    fun a k' => yieldOnReturn_step⟩,fun k' => ⟨k'.assertsOff,k'.restoresLevel⟩⟩
  · intro a as k₁ k' ha hstep hrun hc _
    have hcontrol : k.control = .running ∨ k.control = .afterHandlers := by
      have hallowed := allowed_of_ok hstep
      cases a <;> simp_all [Allowed,Action.Restores]
    have hk' := reachable_inv (Machine.Reachable.run (.step h hstep) hrun)
    rw [hk'.enabled (Or.inl hc),hk.enabled hcontrol]
  · intro a k' ha hstep
    have hl := (handler_step hk ha hstep).1
    have hin : k.control.InHandler := by
      have hallowed := allowed_of_ok hstep
      cases a <;> simp_all [Allowed,Action.IsHandler]
    exact ⟨hl.trans (hk.inHandler hin).1.symm,hl⟩

/-- The main thread forks another one and is interrupted by the timer. -/
def timeSlice : List (Action Unit Bool) :=
  [.interrupt,.handled,.returned,.fork true,.interrupt,.timer,.handled,.returned]

/-- The other thread is switched to with interrupts off, and the main thread holds the level
it had. -/
theorem interrupt_levels_timeSlice :
    ∃ k : State Unit Bool, (machine (fun _ => 0) false).run (initial (fun _ => 0) false)
        timeSlice = .ok k ∧
      k.currentThread = true ∧ k.saved false = .yield .intOn ∧ k.control = .switched ∧
      k.level = .intOff := by
  refine ⟨_,rfl,rfl,rfl,rfl,(interrupt_levels (fun _ => 0) false _ ?_).1.switchedIn rfl⟩
  exact Machine.reachable_iff_run.mpr ⟨_,timeSlice,rfl,rfl⟩

end Scheduler
end NachOS
