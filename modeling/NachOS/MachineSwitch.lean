import NachOS.X86

/-! The kernel's own context switch (threads/switch.S and threads/switch.h for the x86, and
`Thread::StackAllocate` of threads/thread.cc). -/
namespace NachOS
namespace MachineSwitch

open StateMachine hiding Machine
open X86

abbrev MachineStateSize : ℕ := 75

/-- In words. -/
abbrev StackSize : ℕ := 8 * 1024

abbrev STACK_FENCEPOST : BitVec 32 := 0xdedbeef

/-- The offsets `_ESP`, `_EAX`, …, of the registers from the beginning of the thread object. -/
def offset : Reg → BitVec 32
  | .esp => 0#32
  | .eax => 4#32
  | .ebx => 8#32
  | .ecx => 12#32
  | .edx => 16#32
  | .ebp => 20#32
  | .esi => 24#32
  | .edi => 28#32

/-- `_PC`. -/
abbrev offsetPC : BitVec 32 := 32#32

/-- `SWITCH` up to the load of `t2`. -/
def SWITCH_save (eax_save : BitVec 32) : List Instr :=
  [.movl (.reg .eax) (.abs eax_save),
    .movl (.mem 4#32 .esp) (.reg .eax),
    .movl (.reg .ebx) (.mem (offset .ebx) .eax),
    .movl (.reg .ecx) (.mem (offset .ecx) .eax),
    .movl (.reg .edx) (.mem (offset .edx) .eax),
    .movl (.reg .esi) (.mem (offset .esi) .eax),
    .movl (.reg .edi) (.mem (offset .edi) .eax),
    .movl (.reg .ebp) (.mem (offset .ebp) .eax),
    .movl (.reg .esp) (.mem (offset .esp) .eax),
    .movl (.abs eax_save) (.reg .ebx),
    .movl (.reg .ebx) (.mem (offset .eax) .eax),
    .movl (.mem 0#32 .esp) (.reg .ebx),
    .movl (.reg .ebx) (.mem offsetPC .eax)]

/-- The return address is copied to the place of the argument `t1`, above the one that `ret`
takes. -/
def SWITCH_restore (eax_save : BitVec 32) : List Instr :=
  [.movl (.mem 8#32 .esp) (.reg .eax),
    .movl (.mem (offset .eax) .eax) (.reg .ebx),
    .movl (.reg .ebx) (.abs eax_save),
    .movl (.mem (offset .ebx) .eax) (.reg .ebx),
    .movl (.mem (offset .ecx) .eax) (.reg .ecx),
    .movl (.mem (offset .edx) .eax) (.reg .edx),
    .movl (.mem (offset .esi) .eax) (.reg .esi),
    .movl (.mem (offset .edi) .eax) (.reg .edi),
    .movl (.mem (offset .ebp) .eax) (.reg .ebp),
    .movl (.mem (offset .esp) .eax) (.reg .esp),
    .movl (.mem offsetPC .eax) (.reg .eax),
    .movl (.reg .eax) (.mem 4#32 .esp),
    .movl (.abs eax_save) (.reg .eax),
    .ret]

def SWITCH (eax_save : BitVec 32) : List Instr := SWITCH_save eax_save ++ SWITCH_restore eax_save

/-- `back` are the addresses after the calls.  What follows the last of them is not
reached. -/
def ThreadRoot (back : ℕ → BitVec 32) : List Instr :=
  [.pushl (.reg .ebp),.movl (.reg .esp) (.reg .ebp),.pushl (.reg .edx),
    .call .ecx (back 0),.call .esi (back 1),.call .edi (back 2),
    .movl (.reg .ebp) (.reg .esp),.popl (.reg .ebp),.ret]

variable {callee : State → Except Fault State} {s : State} {t eax_save : BitVec 32}

theorem aligned_add {x k : BitVec 32} (hx : Aligned x) (hk : Aligned k) : Aligned (x + k) := by
  unfold Aligned at *
  rw [BitVec.toNat_add]
  omega

theorem aligned_offset (r : Reg) : Aligned (offset r) := by cases r <;> decide

/-- Memory after the registers and the return address are saved in the object `t`. -/
def savedMem (s : State) (t eax_save : BitVec 32) : BitVec 32 → BitVec 32 :=
  let m := Function.update s.mem eax_save (s.reg .eax)
  let m := Function.update m (t + offset .ebx) (s.reg .ebx)
  let m := Function.update m (t + offset .ecx) (s.reg .ecx)
  let m := Function.update m (t + offset .edx) (s.reg .edx)
  let m := Function.update m (t + offset .esi) (s.reg .esi)
  let m := Function.update m (t + offset .edi) (s.reg .edi)
  let m := Function.update m (t + offset .ebp) (s.reg .ebp)
  let m := Function.update m (t + offset .esp) (s.reg .esp)
  let m := Function.update m (t + offset .eax) (s.reg .eax)
  Function.update m (t + offsetPC) (s.mem (s.reg .esp))

theorem run_save (ht : Aligned t) (hesp : Aligned (s.reg .esp)) (heax : Aligned eax_save)
    (harg : s.mem (s.reg .esp + 4#32) = t)
    (hobject : ∀ r, eax_save ≠ t + offset r ∧ s.reg .esp ≠ t + offset r)
    (hsave : s.reg .esp ≠ eax_save ∧ s.reg .esp + 4#32 ≠ eax_save) (code : List Instr) :
    s.run callee (SWITCH_save eax_save ++ code) =
      State.run callee ⟨Function.update (Function.update s.reg .eax t) .ebx (s.mem (s.reg .esp)),
        savedMem s t eax_save,s.eip⟩ code := by
  have hoff : ∀ r, Aligned (t + offset r) := fun r => aligned_add ht (aligned_offset r)
  have h₄ : Aligned (s.reg .esp + 4#32) := aligned_add hesp (by decide)
  have hpc : Aligned (t + 32#32) := aligned_add ht (by decide)
  simp [SWITCH_save,State.run_load,State.run_store,State.run_loadAbs,State.run_storeAbs,savedMem,
    heax,hoff,hpc,h₄,hesp,hsave.1,hsave.2,harg,hobject]
  simp [State.setReg,State.setMem]

/-- What `SWITCH` leaves behind when it returns to the thread of the object `t`. -/
def restoredState (s : State) (t eax_save : BitVec 32) : State :=
  let mem := Function.update (Function.update s.mem eax_save (s.mem (t + offset .eax)))
    (s.mem (t + offset .esp) + 4#32) (s.mem (t + offsetPC))
  { reg := fun r => if r = .esp then s.mem (t + offset .esp) + 4#32 else s.mem (t + offset r)
    mem := mem
    eip := mem (s.mem (t + offset .esp)) }

theorem run_restore (ht : Aligned t) (hesp : Aligned (s.reg .esp)) (heax : Aligned eax_save)
    (harg : s.mem (s.reg .esp + 8#32) = t)
    (hobject : ∀ r, t + offset r ≠ eax_save) (hpc : t + offsetPC ≠ eax_save)
    (hstack : Aligned (s.mem (t + offset .esp)))
    (hsave : eax_save ≠ s.mem (t + offset .esp) + 4#32) :
    s.run callee (SWITCH_restore eax_save) = ([],.ok (restoredState s t eax_save)) := by
  have hoff : ∀ r, Aligned (t + offset r) := fun r => aligned_add ht (aligned_offset r)
  have h₈ : Aligned (s.reg .esp + 8#32) := aligned_add hesp (by decide)
  have hpc' : Aligned (t + 32#32) := aligned_add ht (by decide)
  have h₄ : Aligned (s.mem (t + offset .esp) + 4#32) := aligned_add hstack (by decide)
  simp [SWITCH_restore,State.run_load,State.run_store,State.run_loadAbs,State.run_storeAbs,
    State.run_ret,heax,hoff,hpc,hpc',h₄,h₈,hsave,harg,hobject,hstack]
  unfold restoredState
  congr 1
  · funext r
    cases r <;> simp
  · simp

/-- Where the thread objects and the stacks are, and the addresses of the functions that a
new thread runs. -/
structure Layout (Thread : Type) where
  object : Thread → BitVec 32
  stack : Thread → BitVec 32
  eax_save : BitVec 32
  root : BitVec 32
  begin : BitVec 32
  finish : BitVec 32

/-- `x` is one of `n` bytes from `a` on. -/
def Within (a : BitVec 32) (n : ℕ) (x : BitVec 32) : Prop :=
  a.toNat ≤ x.toNat ∧ x.toNat < a.toNat + n

namespace Layout

variable {Thread : Type} (l : Layout Thread)

def InObject (t : Thread) (x : BitVec 32) : Prop :=
  Within (l.object t) (4 * (1 + MachineStateSize)) x

def InStack (t : Thread) (x : BitVec 32) : Prop := Within (l.stack t) (4 * StackSize) x

/-- The memory of a thread. -/
def Owns (t : Thread) (x : BitVec 32) : Prop := l.InObject t x ∨ l.InStack t x

def Apart (t u : Thread) : Prop := ∀ x, l.Owns t x → ¬ l.Owns u x

/-- Objects and stacks are allocated memory.  Threads of different times may have the same. -/
structure Ok : Prop where
  aligned : Aligned l.eax_save ∧ ∀ t, Aligned (l.object t) ∧ Aligned (l.stack t)
  fits : ∀ t, (l.object t).toNat + 4 * (1 + MachineStateSize) ≤ 2 ^ 32 ∧
    (l.stack t).toNat + 4 * StackSize ≤ 2 ^ 32
  apart : ∀ t x, l.InObject t x → ¬ l.InStack t x
  save : ∀ t, ¬ l.InObject t l.eax_save ∧ ¬ l.InStack t l.eax_save

/-- `stackTop` of a new thread. -/
def stackTop (t : Thread) : BitVec 32 := l.stack t + BitVec.ofNat 32 (4 * (StackSize - 4)) - 4#32

/-- The words that `StackAllocate` writes. -/
def StackAllocate (t : Thread) (func arg : BitVec 32) (mem : BitVec 32 → BitVec 32) :
    BitVec 32 → BitVec 32 :=
  let mem := Function.update mem (l.stackTop t) l.root
  let mem := Function.update mem (l.stack t) STACK_FENCEPOST
  let mem := Function.update mem (l.object t + offset .esp) (l.stackTop t)
  let mem := Function.update mem (l.object t + offsetPC) l.root
  let mem := Function.update mem (l.object t + offset .ecx) l.begin
  let mem := Function.update mem (l.object t + offset .esi) func
  let mem := Function.update mem (l.object t + offset .edx) arg
  Function.update mem (l.object t + offset .edi) l.finish

end Layout

/-! What `SWITCH` reads and writes. -/

theorem savedMem_register (s : State) (t eax_save : BitVec 32) (r : Reg) :
    savedMem s t eax_save (t + offset r) = s.reg r := by
  cases r <;> simp [savedMem,offset,offsetPC,Function.update]

theorem savedMem_pc (s : State) (t eax_save : BitVec 32) :
    savedMem s t eax_save (t + offsetPC) = s.mem (s.reg .esp) := by
  simp [savedMem]

theorem savedMem_of_ne {s : State} {t eax_save x : BitVec 32} (hsave : x ≠ eax_save)
    (hobject : ∀ r, x ≠ t + offset r) (hpc : x ≠ t + offsetPC) :
    savedMem s t eax_save x = s.mem x := by
  simp [savedMem,hsave,hobject,hpc]

section Memory

variable {Thread : Type} {l : Layout Thread} {t : Thread} {a : State}
  {mem mem' : BitVec 32 → BitVec 32} {x func arg : BitVec 32}

theorem toNat_add_of_lt {x k : BitVec 32} {n : ℕ} (hk : k.toNat ≤ n) (h : x.toNat + n < 2 ^ 32) :
    (x + k).toNat = x.toNat + k.toNat := by
  rw [BitVec.toNat_add]
  omega

namespace Layout.Ok

variable (hl : l.Ok)
include hl

theorem object_word (t : Thread) {k : BitVec 32} (hk : k.toNat ≤ 32) :
    l.InObject t (l.object t + k) := by
  have hfits := (hl.fits t).1
  simp only [MachineStateSize] at hfits
  have hadd : (l.object t + k).toNat = (l.object t).toNat + k.toNat :=
    toNat_add_of_lt hk (by omega)
  unfold Layout.InObject Within
  simp only [MachineStateSize]
  omega

theorem object_register (t : Thread) (r : Reg) : l.InObject t (l.object t + offset r) :=
  hl.object_word t (by cases r <;> decide)

theorem object_pc (t : Thread) : l.InObject t (l.object t + offsetPC) :=
  hl.object_word t (by decide)

theorem stackTop_toNat (t : Thread) :
    (l.stackTop t).toNat = (l.stack t).toNat + 4 * (StackSize - 4) - 4 := by
  have hfits := (hl.fits t).2
  simp only [StackSize] at hfits
  unfold Layout.stackTop
  simp only [StackSize,BitVec.toNat_sub,BitVec.toNat_add,BitVec.toNat_ofNat]
  omega

theorem aligned_stackTop (t : Thread) : Aligned (l.stackTop t) := by
  have haligned := (hl.aligned.2 t).2
  unfold Aligned at *
  rw [hl.stackTop_toNat]
  omega

/-- The words that `SWITCH` writes for the thread `t` are in its object. -/
theorem savedMem_of_notMem (m : State) (hobject : ¬ l.InObject t x) (hsave : x ≠ l.eax_save) :
    savedMem m (l.object t) l.eax_save x = m.mem x := by
  refine savedMem_of_ne hsave (fun r he => hobject ?_) fun he => hobject ?_
  · rw [he]
    exact hl.object_register t r
  · rw [he]
    exact hl.object_pc t

end Layout.Ok

/-- The object and the stack of a thread that called `SWITCH` on the machine `a`. -/
structure Saved (l : Layout Thread) (t : Thread) (a : State) (mem : BitVec 32 → BitVec 32) :
    Prop where
  aligned : Aligned (a.reg .esp)
  lower : (l.stack t).toNat ≤ (a.reg .esp).toNat
  upper : (a.reg .esp).toNat + 12 ≤ (l.stack t).toNat + 4 * StackSize
  registers : ∀ r, mem (l.object t + offset r) = a.reg r
  pc : mem (l.object t + offsetPC) = a.mem (a.reg .esp)
  stack : ∀ x, l.InStack t x → (a.reg .esp).toNat ≤ x.toNat → mem x = a.mem x

/-- The object and the stack of a thread that was forked. -/
structure Fresh (l : Layout Thread) (t : Thread) (func arg : BitVec 32)
    (mem : BitVec 32 → BitVec 32) : Prop where
  esp : mem (l.object t + offset .esp) = l.stackTop t
  startup : mem (l.object t + offset .ecx) = l.begin
  initial : mem (l.object t + offset .esi) = func
  argument : mem (l.object t + offset .edx) = arg
  whenDone : mem (l.object t + offset .edi) = l.finish
  top : mem (l.stackTop t) = l.root

theorem Saved.congr (hl : l.Ok) (h : Saved l t a mem)
    (hmem : ∀ x, l.Owns t x → mem' x = mem x) : Saved l t a mem' where
  aligned := h.aligned
  lower := h.lower
  upper := h.upper
  registers r := (hmem _ (Or.inl (hl.object_register t r))).trans (h.registers r)
  pc := (hmem _ (Or.inl (hl.object_pc t))).trans h.pc
  stack x hx hle := (hmem x (Or.inr hx)).trans (h.stack x hx hle)

theorem inStack_stackTop (hl : l.Ok) (t : Thread) : l.InStack t (l.stackTop t) := by
  have htop := hl.stackTop_toNat t
  unfold Layout.InStack Within
  simp only [StackSize] at htop ⊢
  omega

theorem Fresh.congr (hl : l.Ok) (h : Fresh l t func arg mem)
    (hmem : ∀ x, l.Owns t x → mem' x = mem x) : Fresh l t func arg mem' where
  esp := (hmem _ (Or.inl (hl.object_register t _))).trans h.esp
  startup := (hmem _ (Or.inl (hl.object_register t _))).trans h.startup
  initial := (hmem _ (Or.inl (hl.object_register t _))).trans h.initial
  argument := (hmem _ (Or.inl (hl.object_register t _))).trans h.argument
  whenDone := (hmem _ (Or.inl (hl.object_register t _))).trans h.whenDone
  top := (hmem _ (Or.inr (inStack_stackTop hl t))).trans h.top

theorem StackAllocate_fresh (hl : l.Ok) (t : Thread) (func arg : BitVec 32)
    (mem : BitVec 32 → BitVec 32) : Fresh l t func arg (l.StackAllocate t func arg mem) := by
  have hobject : ∀ r, l.stackTop t ≠ l.object t + offset r := fun r he =>
    hl.apart t _ (hl.object_register t r) (he ▸ inStack_stackTop hl t)
  have hpc : l.stackTop t ≠ l.object t + offsetPC := fun he =>
    hl.apart t _ (hl.object_pc t) (he ▸ inStack_stackTop hl t)
  have hbase : l.stackTop t ≠ l.stack t := by
    intro he
    have htop := hl.stackTop_toNat t
    rw [he] at htop
    simp only [StackSize] at htop
    omega
  refine ⟨?_,?_,?_,?_,?_,?_⟩
  · simp [Layout.StackAllocate,offset,offsetPC]
  · simp [Layout.StackAllocate,offset,offsetPC]
  · simp [Layout.StackAllocate,offset,offsetPC]
  · simp [Layout.StackAllocate,offset,offsetPC]
  · simp [Layout.StackAllocate]
  · simp [Layout.StackAllocate,hobject,hpc,hbase]

/-- `StackAllocate` writes the object and the stack of its thread. -/
theorem StackAllocate_of_notMem (hl : l.Ok) (hx : ¬ l.Owns t x) :
    l.StackAllocate t func arg mem x = mem x := by
  have hword : ∀ r, x ≠ l.object t + offset r := fun r he =>
    hx (Or.inl (he ▸ hl.object_register t r))
  have hpc : x ≠ l.object t + offsetPC := fun he => hx (Or.inl (he ▸ hl.object_pc t))
  have htop : x ≠ l.stackTop t := fun he => hx (Or.inr (he ▸ inStack_stackTop hl t))
  have hbase : x ≠ l.stack t := by
    rintro rfl
    exact hx (Or.inr ⟨le_rfl,by simp only [StackSize]; omega⟩)
  simp [Layout.StackAllocate,hword,hpc,htop,hbase]

end Memory

/-- `entered` has the machine as it was when a thread that is switched out called `SWITCH`,
and `forked` the function and the argument of a thread that has not run yet. -/
structure System (Thread : Type) where
  machine : State
  currentThread : Thread
  entered : Thread → Option State
  forked : Thread → Option (BitVec 32 × BitVec 32)

/-- The thread has been created and not yet deleted. -/
def System.Live {Thread : Type} (s : System Thread) (t : Thread) : Prop :=
  t = s.currentThread ∨ s.entered t ≠ none ∨ s.forked t ≠ none

inductive Event (Thread : Type)
  | code (machine : State)
  | fork (t : Thread) (func arg : BitVec 32)
  | switch (next : Thread)
  | delete (t : Thread)

section Runs

variable {Thread : Type}

/-- The current thread is at the entry of `SWITCH (currentThread, next)`. -/
structure Calls (l : Layout Thread) (s : System Thread) (next : Thread) : Prop where
  aligned : Aligned (s.machine.reg .esp)
  lower : (l.stack s.currentThread).toNat ≤ (s.machine.reg .esp).toNat
  upper : (s.machine.reg .esp).toNat + 12 ≤ (l.stack s.currentThread).toNat + 4 * StackSize
  t1 : s.machine.mem (s.machine.reg .esp + 4#32) = l.object s.currentThread
  t2 : s.machine.mem (s.machine.reg .esp + 8#32) = l.object next
  ne : next ≠ s.currentThread
  ready : s.entered next ≠ none ∨ s.forked next ≠ none

structure Inv (l : Layout Thread) (s : System Thread) : Prop where
  entered : ∀ t a, s.entered t = some a → t ≠ s.currentThread ∧ Saved l t a s.machine.mem
  forked : ∀ t func arg, s.forked t = some (func,arg) →
    t ≠ s.currentThread ∧ s.entered t = none ∧ Fresh l t func arg s.machine.mem
  apart : ∀ t u, s.Live t → s.Live u → t ≠ u → l.Apart t u

variable {l : Layout Thread} {s s' : System Thread} {t next : Thread} {x : BitVec 32}

theorem live_entered {a : State} (h : s.entered t = some a) : s.Live t :=
  Or.inr (Or.inl (h ▸ Option.some_ne_none a))

theorem live_forked {f : BitVec 32 × BitVec 32} (h : s.forked t = some f) : s.Live t :=
  Or.inr (Or.inr (h ▸ Option.some_ne_none f))

/-! One switch. -/

/-- The stack pointer of the thread that is switched to. -/
def System.esp (l : Layout Thread) (s : System Thread) (next : Thread) : BitVec 32 :=
  s.machine.mem (l.object next + offset .esp)

/-- The machine after `SWITCH`. -/
def System.switched (l : Layout Thread) (s : System Thread) (next : Thread) : State :=
  restoredState
    ⟨Function.update (Function.update s.machine.reg .eax (l.object s.currentThread)) .ebx
      (s.machine.mem (s.machine.reg .esp)),
      savedMem s.machine (l.object s.currentThread) l.eax_save,s.machine.eip⟩
    (l.object next) l.eax_save

namespace Calls

variable (hl : l.Ok) (hc : Calls l s next)
include hl hc

theorem inStack {k : BitVec 32} (hk : k.toNat ≤ 8) :
    l.InStack s.currentThread (s.machine.reg .esp + k) := by
  have hlower := hc.lower
  have hupper := hc.upper
  have hfits := (hl.fits s.currentThread).2
  simp only [StackSize] at hupper hfits
  have hadd := toNat_add_of_lt hk (show (s.machine.reg .esp).toNat + 8 < 2 ^ 32 by omega)
  unfold Layout.InStack Within
  simp only [StackSize]
  omega

theorem stack_mem {k : BitVec 32} (hk : k.toNat ≤ 8) :
    savedMem s.machine (l.object s.currentThread) l.eax_save (s.machine.reg .esp + k) =
      s.machine.mem (s.machine.reg .esp + k) := by
  refine hl.savedMem_of_notMem s.machine (fun ho => hl.apart _ _ ho (hc.inStack hl hk)) ?_
  intro he
  exact (hl.save s.currentThread).2 (he ▸ hc.inStack hl hk)

omit hl in
theorem apart (hi : Inv l s) : l.Apart s.currentThread next :=
  hi.apart _ _ (Or.inl rfl) (Or.inr hc.ready) hc.ne.symm

variable (hi : Inv l s)
include hi

/-- The object of the next thread is as it was. -/
theorem object_mem (hx : l.InObject next x) :
    savedMem s.machine (l.object s.currentThread) l.eax_save x = s.machine.mem x := by
  refine hl.savedMem_of_notMem s.machine (fun ho => hc.apart hi x (Or.inl ho) (Or.inl hx)) ?_
  rintro rfl
  exact (hl.save next).1 hx

theorem switched_reg {r : Reg} (hr : r ≠ .esp) :
    (s.switched l next).reg r = s.machine.mem (l.object next + offset r) := by
  simp only [System.switched,restoredState,if_neg hr]
  exact hc.object_mem hl hi (hl.object_register next r)

theorem switched_esp : (s.switched l next).reg .esp = s.esp l next + 4#32 := by
  simp only [System.switched,restoredState,if_true,System.esp]
  rw [hc.object_mem hl hi (hl.object_register next .esp)]

end Calls

/-- The thread that is switched to has room on its stack. -/
theorem Inv.target (hl : l.Ok) (hi : Inv l s) (hc : Calls l s next) :
    Aligned (s.esp l next) ∧ (l.stack next).toNat ≤ (s.esp l next).toNat ∧
      (s.esp l next).toNat + 8 ≤ (l.stack next).toNat + 4 * StackSize := by
  unfold System.esp
  rcases hc.ready with hready | hready
  · obtain ⟨a,ha⟩ := Option.ne_none_iff_exists'.mp hready
    obtain ⟨_,hsaved⟩ := hi.entered next a ha
    rw [hsaved.registers]
    have hupper := hsaved.upper
    exact ⟨hsaved.aligned,hsaved.lower,by omega⟩
  · obtain ⟨⟨func,arg⟩,hf⟩ := Option.ne_none_iff_exists'.mp hready
    obtain ⟨_,_,hfresh⟩ := hi.forked next func arg hf
    rw [hfresh.esp,hl.stackTop_toNat]
    simp only [StackSize]
    exact ⟨hl.aligned_stackTop next,by omega,by omega⟩

theorem Inv.inStack_target (hl : l.Ok) (hi : Inv l s) (hc : Calls l s next) :
    l.InStack next (s.esp l next + 4#32) := by
  obtain ⟨_,hlower,hupper⟩ := hi.target hl hc
  have hfits := (hl.fits next).2
  simp only [StackSize] at hupper hfits
  have hadd := toNat_add_of_lt (show (4#32).toNat ≤ 4 by decide)
    (show (s.esp l next).toNat + 4 < 2 ^ 32 by omega)
  unfold Layout.InStack Within
  simp only [StackSize,hadd]
  exact ⟨by omega,by simp; omega⟩

theorem run_SWITCH (hl : l.Ok) (hi : Inv l s) (hc : Calls l s next)
    (callee : State → Except Fault State) :
    s.machine.run callee (SWITCH l.eax_save) = ([],.ok (s.switched l next)) := by
  obtain ⟨haligned,_,_⟩ := hi.target hl hc
  have hesp := hc.inStack hl (k := 0#32) (by decide)
  rw [BitVec.add_zero] at hesp
  have hesp₄ := hc.inStack hl (k := 4#32) (by decide)
  have hnext : savedMem s.machine (l.object s.currentThread) l.eax_save
      (l.object next + offset .esp) = s.esp l next :=
    hc.object_mem hl hi (hl.object_register next .esp)
  rw [SWITCH,run_save (hl.aligned.2 _).1 hc.aligned hl.aligned.1 hc.t1]
  · refine run_restore (hl.aligned.2 next).1 hc.aligned hl.aligned.1 ?_ ?_ ?_ ?_ ?_
    · exact (hc.stack_mem hl (k := 8#32) (by decide)).trans hc.t2
    · intro r he
      exact (hl.save next).1 (he ▸ hl.object_register next r)
    · intro he
      exact (hl.save next).1 (he ▸ hl.object_pc next)
    · simp only [hnext]
      exact haligned
    · simp only [hnext]
      intro he
      exact (hl.save next).2 (he ▸ hi.inStack_target hl hc)
  · intro r
    constructor
    · intro he
      exact (hl.save s.currentThread).1 (he ▸ hl.object_register s.currentThread r)
    · intro he
      exact hl.apart _ _ (hl.object_register s.currentThread r) (he ▸ hesp)
  · constructor
    · intro he
      exact (hl.save s.currentThread).2 (he ▸ hesp)
    · intro he
      exact (hl.save s.currentThread).2 (he ▸ hesp₄)

section Switched

variable (hl : l.Ok) (hc : Calls l s next) (hi : Inv l s)
include hl hc hi

theorem switched_mem (hobject : ¬ l.InObject s.currentThread x) (hsave : x ≠ l.eax_save)
    (harg : x ≠ s.esp l next + 4#32) : (s.switched l next).mem x = s.machine.mem x := by
  unfold System.esp at harg
  simp only [System.switched,restoredState]
  rw [hc.object_mem hl hi (hl.object_register next .esp),Function.update_of_ne harg,
    Function.update_of_ne hsave]
  exact hl.savedMem_of_notMem s.machine hobject hsave

/-- A thread that is not concerned keeps its object and its stack. -/
theorem switched_other (hlive : s.Live t) (ht : t ≠ s.currentThread) (hne : t ≠ next)
    (hx : l.Owns t x) : (s.switched l next).mem x = s.machine.mem x := by
  have htarget := hi.inStack_target hl hc
  refine switched_mem hl hc hi (fun ho => ?_) ?_ ?_
  · exact hi.apart t _ hlive (Or.inl rfl) ht x hx (Or.inl ho)
  · rintro rfl
    exact hx.elim (hl.save t).1 (hl.save t).2
  · rintro rfl
    exact hi.apart t next hlive (Or.inr hc.ready) hne _ hx (Or.inr htarget)

/-- The thread that called `SWITCH` finds its registers in its object. -/
theorem switched_saved : Saved l s.currentThread s.machine (s.switched l next).mem := by
  have htarget := hi.inStack_target hl hc
  have hkept : ∀ y, l.InObject s.currentThread y → (s.switched l next).mem y =
      savedMem s.machine (l.object s.currentThread) l.eax_save y := by
    intro y hy
    simp only [System.switched,restoredState]
    rw [hc.object_mem hl hi (hl.object_register next .esp),Function.update_of_ne,
      Function.update_of_ne]
    · rintro rfl
      exact (hl.save s.currentThread).1 hy
    · rintro rfl
      exact hc.apart hi _ (Or.inl hy) (Or.inr htarget)
  refine ⟨hc.aligned,hc.lower,hc.upper,fun r => ?_,?_,fun y hy _ => ?_⟩
  · rw [hkept _ (hl.object_register s.currentThread r),savedMem_register]
  · rw [hkept _ (hl.object_pc s.currentThread),savedMem_pc]
  · refine switched_mem hl hc hi (fun ho => hl.apart _ _ ho hy) ?_ ?_
    · rintro rfl
      exact (hl.save s.currentThread).2 hy
    · rintro rfl
      exact hc.apart hi _ (Or.inr hy) (Or.inr htarget)

theorem switched_eip : (s.switched l next).eip = s.machine.mem (s.esp l next) := by
  obtain ⟨_,hlower,hupper⟩ := hi.target hl hc
  have hstack : l.InStack next (s.esp l next) := ⟨hlower,by omega⟩
  have heip : (s.switched l next).eip = (s.switched l next).mem (s.esp l next) := by
    simp only [System.switched,restoredState]
    rw [hc.object_mem hl hi (hl.object_register next .esp)]
    rfl
  rw [heip]
  refine switched_mem hl hc hi (fun ho => hc.apart hi _ (Or.inl ho) (Or.inr hstack)) ?_ (by simp)
  intro he
  exact (hl.save next).2 (he ▸ hstack)

end Switched

/-! Runs. -/

variable [DecidableEq Thread]

/-- `code` is what the current thread does between two switches.  It does not reach the
objects and the stacks of the other threads that exist; a new thread gets memory that none of
them has, also such as a deleted thread had. -/
inductive Step (l : Layout Thread) (s : System Thread) : Event Thread → System Thread → Prop
  | code {machine : State} (h : ∀ t x, t ≠ s.currentThread → s.Live t → l.Owns t x →
      machine.mem x = s.machine.mem x) : Step l s (.code machine) { s with machine := machine }
  | fork {t : Thread} {func arg : BitVec 32} (h : t ≠ s.currentThread) (hnew : s.entered t = none)
      (hapart : ∀ u, s.Live u → u ≠ t → l.Apart t u) :
      Step l s (.fork t func arg)
        { s with machine := { s.machine with mem := l.StackAllocate t func arg s.machine.mem }
                 forked := Function.update s.forked t (some (func,arg)) }
  | switch {next : Thread} {machine : State} (h : Calls l s next)
      (hrun : s.machine.run .ok (SWITCH l.eax_save) = ([],.ok machine)) :
      Step l s (.switch next)
        { machine := machine
          currentThread := next
          entered := Function.update
            (Function.update s.entered s.currentThread (some s.machine)) next none
          forked := Function.update s.forked next none }
  | delete {t : Thread} (h : t ≠ s.currentThread) :
      Step l s (.delete t)
        { s with entered := Function.update s.entered t none
                 forked := Function.update s.forked t none }

/-- The kernel starts with one thread. -/
inductive Reachable (l : Layout Thread) : System Thread → Prop
  | start (machine : State) (main : Thread) :
      Reachable l ⟨machine,main,fun _ => none,fun _ => none⟩
  | step {s s' : System Thread} {e : Event Thread} :
      Reachable l s → Step l s e s' → Reachable l s'

omit [DecidableEq Thread] in
theorem Inv.apart_of (hi : Inv l s) (hlive : ∀ t, s'.Live t → s.Live t) :
    ∀ t u, s'.Live t → s'.Live u → t ≠ u → l.Apart t u :=
  fun t u ht hu hne => hi.apart t u (hlive t ht) (hlive u hu) hne

theorem of_update_none {α : Type} {f : Thread → Option α} {t u : Thread} {a : α}
    (h : Function.update f u none t = some a) : t ≠ u ∧ f t = some a := by
  have hne : t ≠ u := by
    rintro rfl
    simp at h
  rw [Function.update_of_ne hne] at h
  exact ⟨hne,h⟩

section Step

variable (hl : l.Ok) (hi : Inv l s)
include hl hi

omit [DecidableEq Thread] in
theorem Inv.code {machine : State} (hmem : ∀ t x, t ≠ s.currentThread → s.Live t → l.Owns t x →
    machine.mem x = s.machine.mem x) : Inv l { s with machine := machine } := by
  refine ⟨fun t a ha => ?_,fun t func arg hf => ?_,hi.apart_of fun _ => id⟩
  · obtain ⟨hne,hsaved⟩ := hi.entered t a ha
    exact ⟨hne,hsaved.congr hl fun x hx => hmem t x hne (live_entered ha) hx⟩
  · obtain ⟨hne,hnew,hfresh⟩ := hi.forked t func arg hf
    exact ⟨hne,hnew,hfresh.congr hl fun x hx => hmem t x hne (live_forked hf) hx⟩

theorem Inv.fork {u : Thread} {func arg : BitVec 32} (h : Step l s (.fork u func arg) s') :
    Inv l s' := by
  obtain _ | ⟨hu,hnew,hapart⟩ := h
  have hother : ∀ t x, s.Live t → t ≠ u → l.Owns t x →
      l.StackAllocate u func arg s.machine.mem x = s.machine.mem x := fun t x hlive ht hx =>
    StackAllocate_of_notMem hl fun ho => hapart t hlive ht x ho hx
  refine ⟨fun t a ha => ?_,fun t func' arg' hf => ?_,fun t v ht hv hne => ?_⟩
  · obtain ⟨hne,hsaved⟩ := hi.entered t a ha
    have htu : t ≠ u := by
      rintro rfl
      cases hnew.symm.trans ha
    exact ⟨hne,hsaved.congr hl fun x hx => hother t x (live_entered ha) htu hx⟩
  · by_cases htu : t = u
    · subst htu
      simp only [Function.update_self,Option.some.injEq,Prod.mk.injEq] at hf
      obtain ⟨rfl,rfl⟩ := hf
      exact ⟨hu,hnew,StackAllocate_fresh hl t func arg s.machine.mem⟩
    · simp only [Function.update_of_ne htu] at hf
      obtain ⟨hne,hnone,hfresh⟩ := hi.forked t func' arg' hf
      exact ⟨hne,hnone,hfresh.congr hl fun x hx => hother t x (live_forked hf) htu hx⟩
  · -- the new thread is apart from the others, which were apart before
    have hlive : ∀ w, w ≠ u → System.Live { s with
        machine := { s.machine with mem := l.StackAllocate u func arg s.machine.mem }
        forked := Function.update s.forked u (some (func,arg)) } w → s.Live w := by
      intro w hw h
      simpa [System.Live,Function.update_of_ne hw] using h
    by_cases htu : t = u
    · subst htu
      exact hapart v (hlive v hne.symm hv) hne.symm
    · by_cases hvu : v = u
      · subst hvu
        exact fun x hx hx' => hapart t (hlive t htu ht) htu x hx' hx
      · exact hi.apart t v (hlive t htu ht) (hlive v hvu hv) hne

theorem Inv.switch (h : Step l s (.switch next) s') : Inv l s' := by
  obtain _ | _ | ⟨hc,hrun⟩ := h
  rw [run_SWITCH hl hi hc] at hrun
  cases hrun
  refine ⟨fun t a ha => ?_,fun t func arg hf => ?_,hi.apart_of fun t ht => ?_⟩
  · obtain ⟨hnext,ha⟩ := of_update_none ha
    refine ⟨hnext,?_⟩
    by_cases ht : t = s.currentThread
    · subst ht
      simp only [Function.update_self,Option.some.injEq] at ha
      subst ha
      exact switched_saved hl hc hi
    · simp only [Function.update_of_ne ht] at ha
      exact (hi.entered t a ha).2.congr hl fun x hx =>
        switched_other hl hc hi (live_entered ha) ht hnext hx
  · obtain ⟨hnext,hf⟩ := of_update_none hf
    obtain ⟨ht,hnone,hfresh⟩ := hi.forked t func arg hf
    refine ⟨hnext,?_,hfresh.congr hl fun x hx =>
      switched_other hl hc hi (live_forked hf) ht hnext hx⟩
    simp only [Function.update_of_ne hnext,Function.update_of_ne ht]
    exact hnone
  · by_cases hnext : t = next
    · exact Or.inr (hnext ▸ hc.ready)
    · by_cases hcurrent : t = s.currentThread
      · exact Or.inl hcurrent
      · simpa [System.Live,hnext,hcurrent,Function.update_of_ne] using ht

omit hl in
theorem Inv.delete {u : Thread} (hu : u ≠ s.currentThread) : Inv l
    { s with entered := Function.update s.entered u none
             forked := Function.update s.forked u none } := by
  refine ⟨fun t a ha => hi.entered t a (of_update_none ha).2,fun t func arg hf => ?_,
    hi.apart_of fun t ht => ?_⟩
  · obtain ⟨htu,hf⟩ := of_update_none hf
    simp only [Function.update_of_ne htu]
    exact hi.forked t func arg hf
  · by_cases htu : t = u
    · simp [System.Live,htu,hu] at ht
    · simpa [System.Live,Function.update_of_ne htu] using ht

theorem Inv.step {e : Event Thread} (h : Step l s e s') : Inv l s' := by
  cases h with
  | code hmem => exact hi.code hl hmem
  | fork hu hnew hapart => exact hi.fork hl (.fork hu hnew hapart)
  | switch hc hrun => exact hi.switch hl (.switch hc hrun)
  | delete hu => exact hi.delete hu

end Step

theorem Reachable.inv (hl : l.Ok) (h : Reachable l s) : Inv l s := by
  induction h with
  | start machine main =>
    refine ⟨fun _ _ ha => (nomatch ha),fun _ _ _ hf => (nomatch hf),fun t u ht hu hne => ?_⟩
    simp only [System.Live,ne_eq,not_true_eq_false,or_false] at ht hu
    exact absurd (ht.trans hu.symm) hne
  | step _ hstep ih => exact ih.step hl hstep

/-- The thread goes on as if `SWITCH` had been an ordinary function: only the place of its
first argument has changed. -/
structure Resumes (l : Layout Thread) (t : Thread) (a m : State) : Prop where
  eip : m.eip = a.mem (a.reg .esp)
  esp : m.reg .esp = a.reg .esp + 4#32
  registers : ∀ r, r ≠ .esp → m.reg r = a.reg r
  stack : ∀ x, l.InStack t x → (a.reg .esp).toNat ≤ x.toNat → x ≠ a.reg .esp + 4#32 →
    m.mem x = a.mem x

/-- A new thread is at the entry of `ThreadRoot`. -/
structure Starts (l : Layout Thread) (t : Thread) (func arg : BitVec 32) (m : State) : Prop where
  eip : m.eip = l.root
  esp : m.reg .esp = l.stackTop t + 4#32
  startupPC : m.reg .ecx = l.begin
  initialPC : m.reg .esi = func
  initialArg : m.reg .edx = arg
  whenDonePC : m.reg .edi = l.finish

omit [DecidableEq Thread] in
theorem Inv.resumes {a : State} (hl : l.Ok) (hi : Inv l s) (hc : Calls l s next)
    (ha : s.entered next = some a) : Resumes l next a (s.switched l next) := by
  obtain ⟨_,hsaved⟩ := hi.entered next a ha
  have hesp : s.esp l next = a.reg .esp := hsaved.registers .esp
  have hupper := hsaved.upper
  refine ⟨?_,?_,fun r hr => ?_,fun x hx hle hne => ?_⟩
  · rw [switched_eip hl hc hi,hesp]
    exact hsaved.stack _ ⟨hsaved.lower,by omega⟩ le_rfl
  · rw [hc.switched_esp hl hi,hesp]
  · rw [hc.switched_reg hl hi hr,hsaved.registers]
  · rw [switched_mem hl hc hi (fun ho => hc.apart hi _ (Or.inl ho) (Or.inr hx)) ?_ (hesp ▸ hne)]
    · exact hsaved.stack x hx hle
    · rintro rfl
      exact (hl.save next).2 hx

omit [DecidableEq Thread] in
theorem Inv.starts {func arg : BitVec 32} (hl : l.Ok) (hi : Inv l s) (hc : Calls l s next)
    (hf : s.forked next = some (func,arg)) : Starts l next func arg (s.switched l next) := by
  obtain ⟨_,_,hfresh⟩ := hi.forked next func arg hf
  have hesp : s.esp l next = l.stackTop next := hfresh.esp
  refine ⟨?_,?_,?_,?_,?_,?_⟩
  · rw [switched_eip hl hc hi,hesp,hfresh.top]
  · rw [hc.switched_esp hl hi,hesp]
  · rw [hc.switched_reg hl hi (by decide),hfresh.startup]
  · rw [hc.switched_reg hl hi (by decide),hfresh.initial]
  · rw [hc.switched_reg hl hi (by decide),hfresh.argument]
  · rw [hc.switched_reg hl hi (by decide),hfresh.whenDone]

/-- After the last call `ThreadRoot` calls nothing. -/
theorem run_epilogue (callee : State → Except Fault State) (m : State) :
    (m.run callee [.movl (.reg .ebp) (.reg .esp),.popl (.reg .ebp),.ret]).1 = [] := by
  rw [State.run_move]
  simp only [State.run]
  split <;> rfl

/-- `ThreadRoot` calls the three functions of its registers in turn, the second one with its
argument. -/
theorem ThreadRoot_calls {m : State} {callee : State → Except Fault State}
    (haligned : Aligned (m.reg .esp)) (hroom : 12 ≤ (m.reg .esp).toNat)
    (hbegin : ∀ e, e.eip = m.reg .ecx →
      ∃ e', callee e = .ok e' ∧ Returns 0 (m.reg .esp).toNat e e')
    (hfunc : ∀ e, e.eip = m.reg .esi →
      ∃ e', callee e = .ok e' ∧ Returns 1 (m.reg .esp).toNat e e')
    (back : ℕ → BitVec 32) : ∃ e₀ e₁ e₂, (m.run callee (ThreadRoot back)).1 = [e₀,e₁,e₂] ∧
      e₀.eip = m.reg .ecx ∧ e₁.eip = m.reg .esi ∧
      e₁.mem (e₁.reg .esp + 4#32) = m.reg .edx ∧ e₂.eip = m.reg .edi := by
  have hsub : ∀ {x : BitVec 32}, Aligned x → Aligned (x - 4#32) := by
    intro x hx
    unfold Aligned at *
    rw [BitVec.toNat_sub]
    simp only [BitVec.toNat_ofNat]
    omega
  have h₄ := hsub haligned
  have h₈ := hsub h₄
  have hnat : ∀ {x : BitVec 32}, 4 ≤ x.toNat → (x - 4#32).toNat = x.toNat - 4 := by
    intro x hx
    rw [BitVec.toNat_sub_of_le hx]
    rfl
  have hne : ∀ x : BitVec 32, x ≠ x - 4#32 := by
    intro x
    bv_omega
  have hn₄ := hnat (show 4 ≤ (m.reg .esp).toNat by omega)
  have hn₈ := hnat (show 4 ≤ (m.reg .esp - 4#32).toNat by omega)
  have hn₁₂ := hnat (show 4 ≤ (m.reg .esp - 4#32 - 4#32).toNat by omega)
  -- the frame: the old ebp and the argument
  obtain ⟨s,hs⟩ : ∃ s : State, s = (((((m.setReg .esp (m.reg .esp - 4#32)).setMem
      (m.reg .esp - 4#32) (m.reg .ebp)).setReg .ebp (m.reg .esp - 4#32)).setReg .esp
      (m.reg .esp - 4#32 - 4#32)).setMem (m.reg .esp - 4#32 - 4#32) (m.reg .edx)) := ⟨_,rfl⟩
  have hrun : m.run callee (ThreadRoot back) = s.run callee ((ThreadRoot back).drop 3) := by
    rw [hs]
    simp [ThreadRoot,State.run_push,State.run_move,h₄,h₈]
  have hesp : s.reg .esp = m.reg .esp - 4#32 - 4#32 := by simp [hs]
  have hecx : s.reg .ecx = m.reg .ecx := by simp [hs]
  have hesi : s.reg .esi = m.reg .esi := by simp [hs]
  have hedi : s.reg .edi = m.reg .edi := by simp [hs]
  have harg : s.mem (s.reg .esp) = m.reg .edx := by simp [hs]
  obtain ⟨e₀,s₁,hrun₀,heip₀,_,hmem₀,hesp₁,hsaved₁,hframe₁⟩ := State.run_call_returns
    (back 0) ((ThreadRoot back).drop 4) (hesp ▸ hsub h₈) (by decide) (hecx ▸ hbegin)
  have hesi₁ : s₁.reg .esi = m.reg .esi := (hsaved₁ .esi (by decide)).trans hesi
  have hedi₁ : s₁.reg .edi = m.reg .edi := (hsaved₁ .edi (by decide)).trans hedi
  have harg₁ : s₁.mem (s₁.reg .esp) = m.reg .edx := by
    rw [hesp₁,hframe₁ _ (by rw [hesp]; omega) (by rw [hesp]; omega),hmem₀,
      Function.update_of_ne (hne _),harg]
  obtain ⟨e₁,s₂,hrun₁,heip₁,hespe,hmem₁,hesp₂,hsaved₂,_⟩ := State.run_call_returns
    (back 1) ((ThreadRoot back).drop 5) (hesp₁ ▸ hesp ▸ hsub h₈) (by decide) (hesi₁ ▸ hfunc)
  have hedi₂ : s₂.reg .edi = m.reg .edi := (hsaved₂ .edi (by decide)).trans hedi₁
  obtain ⟨e₂,he₂⟩ : ∃ e : State, e = { (s₂.setReg .esp (s₂.reg .esp - 4#32)).setMem
      (s₂.reg .esp - 4#32) (back 2) with eip := (s₂.setReg .esp (s₂.reg .esp - 4#32)).reg .edi } :=
    ⟨_,rfl⟩
  have hrun₂ : (s₂.run callee ((ThreadRoot back).drop 5)).1 = [e₂] := by
    have hcall := State.run_call callee ((ThreadRoot back).drop 6)
      (hesp₂ ▸ hesp₁ ▸ hesp ▸ hsub h₈) he₂
    have hcode : (ThreadRoot back).drop 5 = .call .edi (back 2) :: (ThreadRoot back).drop 6 := rfl
    rw [hcode,hcall]
    cases callee e₂ with
    | error f => rfl
    | ok s₃ => exact congrArg (e₂ :: ·) (run_epilogue callee s₃)
  refine ⟨e₀,e₁,e₂,?_,heip₀.trans hecx,heip₁.trans hesi₁,?_,?_⟩
  · have hcode₃ : (ThreadRoot back).drop 3 = .call .ecx (back 0) :: (ThreadRoot back).drop 4 := rfl
    have hcode₄ : (ThreadRoot back).drop 4 = .call .esi (back 1) :: (ThreadRoot back).drop 5 := rfl
    rw [hrun,hcode₃,hrun₀,hcode₄,hrun₁]
    simp only [hrun₂]
  · rw [hespe,BitVec.sub_add_cancel,hmem₁,Function.update_of_ne (hne _),harg₁]
  · rw [he₂]
    simpa using hedi₂

/-- A thread that is switched to goes on where it called `SWITCH`, with its registers and its
stack, whatever the other threads did in between; a new one runs `ThreadBegin`, its function
with its argument and `ThreadFinish`. -/
theorem switch_resumes (hl : l.Ok) (hs : Reachable l s) (hc : Calls l s next) : ∃ m : State,
    (∀ callee, s.machine.run callee (SWITCH l.eax_save) = ([],.ok m)) ∧
    (∀ a, s.entered next = some a → Resumes l next a m) ∧
    ∀ func arg, s.forked next = some (func,arg) → Starts l next func arg m ∧
      ∀ (callee : State → Except Fault State) (back : ℕ → BitVec 32),
        (∀ e, e.eip = l.begin → ∃ e', callee e = .ok e' ∧ Returns 0 (m.reg .esp).toNat e e') →
        (∀ e, e.eip = func → ∃ e', callee e = .ok e' ∧ Returns 1 (m.reg .esp).toNat e e') →
        ∃ e₀ e₁ e₂, (m.run callee (ThreadRoot back)).1 = [e₀,e₁,e₂] ∧ e₀.eip = l.begin ∧
          e₁.eip = func ∧ e₁.mem (e₁.reg .esp + 4#32) = arg ∧ e₂.eip = l.finish := by
  have hi := hs.inv hl
  refine ⟨s.switched l next,run_SWITCH hl hi hc,fun a ha => hi.resumes hl hc ha,
    fun func arg hf => ?_⟩
  have hstarts := hi.starts hl hc hf
  refine ⟨hstarts,fun callee back hbegin hfunc => ?_⟩
  have htop := hl.stackTop_toNat next
  have hfits := (hl.fits next).2
  simp only [StackSize] at htop hfits
  have hroom : 12 ≤ ((s.switched l next).reg .esp).toNat := by
    rw [hstarts.esp,toNat_add_of_lt (show (4#32).toNat ≤ 4 by decide) (by omega)]
    omega
  have haligned : Aligned ((s.switched l next).reg .esp) := by
    rw [hstarts.esp]
    exact aligned_add (hl.aligned_stackTop next) (by decide)
  obtain ⟨e₀,e₁,e₂,hrun,h₀,h₁,harg,h₂⟩ := ThreadRoot_calls haligned hroom
    (by rw [hstarts.startupPC]; exact hbegin) (by rw [hstarts.initialPC]; exact hfunc) back
  exact ⟨e₀,e₁,e₂,hrun,h₀.trans hstarts.startupPC,h₁.trans hstarts.initialPC,
    harg.trans hstarts.initialArg,h₂.trans hstarts.whenDonePC⟩

/-- Two threads, `false` being the first one. -/
def twoThreads : Layout Bool where
  object t := if t then 0x2000#32 else 0x1000#32
  stack t := if t then 0x20000#32 else 0x10000#32
  eax_save := 0x100#32
  root := 1#32
  begin := 2#32
  finish := 3#32

theorem twoThreads_object {t : Bool} {x : BitVec 32} (hx : twoThreads.InObject t x) :
    0x1000 ≤ x.toNat ∧ x.toNat < 0x3000 ∧ (t = true ↔ 0x2000 ≤ x.toNat) := by
  cases t <;> simp [Layout.InObject,Within,twoThreads,MachineStateSize] at hx ⊢ <;> omega

theorem twoThreads_stack {t : Bool} {x : BitVec 32} (hx : twoThreads.InStack t x) :
    0x10000 ≤ x.toNat ∧ (t = true ↔ 0x20000 ≤ x.toNat) := by
  cases t <;> simp [Layout.InStack,Within,twoThreads,StackSize] at hx ⊢ <;> omega

theorem twoThreads_ok : twoThreads.Ok := by
  refine ⟨⟨by decide,by decide⟩,by decide,fun t x ho hs => ?_,fun t => ⟨fun ho => ?_,fun hs => ?_⟩⟩
  · have h₁ := (twoThreads_object ho).2.1
    have h₂ := (twoThreads_stack hs).1
    omega
  · exact absurd (twoThreads_object ho).1 (by decide)
  · exact absurd (twoThreads_stack hs).1 (by decide)

theorem twoThreads_apart {t u : Bool} (hne : u ≠ t) : twoThreads.Apart t u := by
  rintro x (ht | ht) (hu | hu)
  · have h₁ := (twoThreads_object ht).2.2
    exact hne (Bool.eq_iff_iff.mpr ((twoThreads_object hu).2.2.trans h₁.symm))
  · have h₁ := (twoThreads_object ht).2.1
    have h₂ := (twoThreads_stack hu).1
    omega
  · have h₁ := (twoThreads_object hu).2.1
    have h₂ := (twoThreads_stack ht).1
    omega
  · have h₁ := (twoThreads_stack ht).2
    exact hne (Bool.eq_iff_iff.mpr ((twoThreads_stack hu).2.trans h₁.symm))

/-- The first thread forks the other one and is about to switch to it; it will return to 5. -/
def forkedSystem : System Bool where
  machine :=
    ⟨fun r => if r = .esp then 0x10100#32 else 6#32,
      twoThreads.StackAllocate true 7#32 9#32 fun x =>
        if x = 0x10100#32 then 5#32 else if x = 0x10104#32 then 0x1000#32
        else if x = 0x10108#32 then 0x2000#32 else 0#32,0#32⟩
  currentThread := false
  entered := fun _ => none
  forked := Function.update (fun _ => none) true (some (7#32,9#32))

theorem forkedSystem_reachable : Reachable twoThreads forkedSystem :=
  .step (.start ⟨_,_,_⟩ false) (.fork (t := true) (by decide) rfl fun _ _ => twoThreads_apart)

theorem forkedSystem_calls : Calls twoThreads forkedSystem true :=
  ⟨by decide,by decide,by decide,by decide,by decide,by decide,Or.inr (by simp [forkedSystem])⟩

/-- The new thread has run, and is about to switch back. -/
def backSystem : System Bool where
  machine :=
    ⟨fun r => if r = .esp then 0x20100#32 else 0#32,
      fun x => if x = 0x20104#32 then 0x2000#32 else if x = 0x20108#32 then 0x1000#32
        else (forkedSystem.switched twoThreads true).mem x,0#32⟩
  currentThread := true
  entered := Function.update (Function.update (fun _ => none) false (some forkedSystem.machine))
    true none
  forked := Function.update forkedSystem.forked true none

theorem backSystem_reachable : Reachable twoThreads backSystem := by
  have hi := forkedSystem_reachable.inv twoThreads_ok
  refine (forkedSystem_reachable.step (.switch forkedSystem_calls
    (run_SWITCH twoThreads_ok hi forkedSystem_calls .ok))).step (.code fun t x ht _ hx => ?_)
  obtain rfl : t = false := by simpa using ht
  have hlow : x.toNat < 0x20000 := by
    rcases hx with hx | hx
    · have hobject := (twoThreads_object hx).2.1
      omega
    · have hstack := (twoThreads_stack hx).2
      simp at hstack
      omega
  have hne : ∀ y : BitVec 32, 0x20000 ≤ y.toNat → x ≠ y := by
    rintro y hy rfl
    omega
  simp only [if_neg (hne 0x20104#32 (by decide)),if_neg (hne 0x20108#32 (by decide))]

theorem backSystem_calls : Calls twoThreads backSystem false :=
  ⟨by decide,by decide,by decide,by decide,by decide,by decide,Or.inl (by simp [backSystem])⟩

/-- A function that returns at once. -/
def returnAtOnce (e : State) : Except Fault State :=
  .ok { e.setReg .esp (e.reg .esp + 4#32) with eip := e.mem (e.reg .esp) }

theorem returnAtOnce_returns (n top : ℕ) (e : State) :
    ∃ e', returnAtOnce e = .ok e' ∧ Returns n top e e' := by
  refine ⟨_,rfl,rfl,by simp,fun r hr => ?_,fun _ _ _ => rfl⟩
  rcases hr with rfl | rfl | rfl | rfl <;> simp

/-- The new thread runs, and the first one goes on when it is switched back to. -/
theorem switch_resumes_back : ∃ m m' : State,
    (∀ callee, forkedSystem.machine.run callee (SWITCH twoThreads.eax_save) = ([],.ok m)) ∧
    m.eip = twoThreads.root ∧
    (∃ e₀ e₁ e₂, (m.run returnAtOnce (ThreadRoot fun _ => 0#32)).1 = [e₀,e₁,e₂] ∧
      e₀.eip = twoThreads.begin ∧ e₁.eip = 7#32 ∧ e₁.mem (e₁.reg .esp + 4#32) = 9#32 ∧
      e₂.eip = twoThreads.finish) ∧
    (∀ callee, backSystem.machine.run callee (SWITCH twoThreads.eax_save) = ([],.ok m')) ∧
    m'.eip = 5#32 ∧ m'.reg .esp = 0x10104#32 ∧ m'.reg .ebx = 6#32 ∧
    m'.mem 0x10108#32 = 0x2000#32 := by
  obtain ⟨m,hrun,_,hforked⟩ :=
    switch_resumes twoThreads_ok forkedSystem_reachable forkedSystem_calls
  obtain ⟨hstarts,hroot⟩ := hforked 7#32 9#32 (by simp [forkedSystem])
  obtain ⟨m',hrun',hentered,_⟩ :=
    switch_resumes twoThreads_ok backSystem_reachable backSystem_calls
  have hresumes := hentered forkedSystem.machine (by simp [backSystem])
  refine ⟨m,m',hrun,hstarts.eip,hroot returnAtOnce _ (fun e _ => returnAtOnce_returns 0 _ e)
    fun e _ => returnAtOnce_returns 1 _ e,hrun',?_,?_,?_,?_⟩
  · exact hresumes.eip.trans (by decide)
  · exact hresumes.esp.trans (by decide)
  · exact (hresumes.registers .ebx (by decide)).trans (by decide)
  · refine (hresumes.stack 0x10108#32 ?_ (by decide) (by decide)).trans (by decide)
    exact ⟨by decide,by decide⟩

end Runs

end MachineSwitch
end NachOS
